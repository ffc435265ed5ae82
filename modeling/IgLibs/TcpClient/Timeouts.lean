import IgLibs.TcpClient.Descriptors
import IgLibs.Ledger

namespace IgLibs.TcpClient

open Word CMemory CString

def timeval (timeout : Int) : Int × Int := (timeout.tdiv 1000000, timeout.tmod 1000000)

-- What a system call does to an option of a descriptor. A new socket has none set.
def tune (fd : Int) (opt : SockOpt) (value : Option (Int × Int)) : Syscall → Option (Int × Int)
  | .socket (some n) => if (n : Int) = fd then none else value
  | .setsockopt n other tv_sec tv_usec =>
      if n = fd ∧ other = opt then some (tv_sec, tv_usec) else value
  | _ => value

def in_force (fd : Int) (opt : SockOpt) (calls : List Syscall) : Option (Int × Int) :=
  calls.foldl (tune fd opt) none

-- A connect(2) finds the same timeout for both directions on its descriptor.
def Timed (before : List Syscall) : Syscall → Prop
  | .connect fd _ _ _ => ∃ value, ∀ opt, in_force fd opt before = some value
  | _ => True

-- The kernel takes the new timeouts of an open client.
def Accepts (c : TcpClient) : Op → Prop
  | .set_timeout _ rcvtimeo sndtimeo => 0 ≤ c.m_fd → rcvtimeo = 0 ∧ sndtimeo = 0
  | _ => True

def InForce (c : TcpClient) : Prop :=
  0 ≤ c.m_fd → ∀ opt, in_force c.m_fd opt c.calls = some (timeval c.m_timeout)

-- Every connection was made with timeouts, and as long as `kept` holds they are m_timeout.
def Timely (kept : Prop) (c : TcpClient) : Prop :=
  Ledger.Admitted Timed c.calls ∧ (kept → c.InForce)

-- The calls that neither open nor connect a descriptor, nor set an option.
def Plain : Syscall → Prop
  | .socket (some _) | .setsockopt _ _ _ _ | .connect _ _ _ _ => False
  | _ => True

-- Plain calls only, after which the descriptor is the same one or closed.
structure Quiet (c next : TcpClient) : Prop where
  m_timeout : next.m_timeout = c.m_timeout
  m_fd : next.m_fd = c.m_fd ∨ next.m_fd = -1
  calls : ∃ calls, next.calls = c.calls ++ calls ∧ ∀ call ∈ calls, Plain call

section

variable {c middle next : TcpClient} {calls more : List Syscall} {fd : Int} {opt : SockOpt}

theorem in_force_append : in_force fd opt (calls ++ more) =
    more.foldl (tune fd opt) (in_force fd opt calls) :=
  List.foldl_append ..

theorem in_force_plain (hplain : ∀ call ∈ more, Plain call) :
    in_force fd opt (calls ++ more) = in_force fd opt calls := by
  induction more generalizing calls with
  | nil => rw [List.append_nil]
  | cons call rest ih =>
      have hcall : in_force fd opt (calls ++ [call]) = in_force fd opt calls := by
        have hone := hplain call (by simp)
        rw [in_force_append]
        cases call with
        | socket ret =>
            cases ret with
            | none => rfl
            | some n => exact absurd hone not_false
        | setsockopt | connect => exact absurd hone not_false
        | _ => rfl
      have hrest := @ih (calls ++ [call]) fun other hmem => hplain other (by simp [hmem])
      rw [List.append_assoc] at hrest
      exact hrest.trans hcall

theorem admitted_append (h : Ledger.Admitted Timed calls)
    (hmore : ∀ fd addr port ret, .connect fd addr port ret ∉ more) :
    Ledger.Admitted Timed (calls ++ more) := by
  apply h.append
  rintro before call after rfl
  cases call with
  | connect fd addr port ret => exact absurd (by simp) (hmore fd addr port ret)
  | _ => trivial

theorem Quiet.refl (c : TcpClient) : c.Quiet c := ⟨rfl, .inl rfl, [], by simp, by simp⟩

theorem Quiet.trans (h : c.Quiet middle) (h' : middle.Quiet next) : c.Quiet next := by
  obtain ⟨calls, hcalls, hplain⟩ := h.calls
  obtain ⟨more, hmore, hplain'⟩ := h'.calls
  refine ⟨h'.m_timeout.trans h.m_timeout, ?_, calls ++ more, ?_, ?_⟩
  · rcases h'.m_fd with hsame | hclosed
    · rw [hsame]
      exact h.m_fd
    · exact .inr hclosed
  · rw [hmore, hcalls, List.append_assoc]
  · intro call hmem
    rcases List.mem_append.mp hmem with hmem | hmem
    · exact hplain call hmem
    · exact hplain' call hmem

theorem quiet_record (c : TcpClient) {call : Syscall} (hplain : Plain call) :
    c.Quiet (c.record [call]) :=
  ⟨rfl, .inl rfl, [call], rfl, by simpa using hplain⟩

theorem quiet_close (c : TcpClient) : c.Quiet c.close := by
  unfold close
  by_cases hfd : 0 ≤ c.m_fd
  · rw [if_pos hfd]
    exact ⟨rfl, .inr rfl, [.shutdown c.m_fd, .close c.m_fd], rfl, by simp [Plain]⟩
  · rw [if_neg hfd]
    exact Quiet.refl c

theorem quiet_is_real_alive (c : TcpClient) (peek : Answer Nat) :
    c.Quiet (c.is_real_alive peek).1 := by
  unfold is_real_alive
  by_cases hfd : c.m_fd < 0
  · simp only [hfd, ite_true]
    exact Quiet.refl c
  · simp only [hfd, ite_false]
    cases peek with
    | ok n => exact c.quiet_record trivial
    | error e => exact c.quiet_record trivial

theorem quiet_send_loop {buf : Span} {sent_bytes : Nat} {answers : List (Answer Nat)} {exit : Exit}
    (hcall : c.send_loop buf sent_bytes answers = some (next, exit)) : c.Quiet next := by
  induction answers generalizing c sent_bytes with
  | nil => cases hcall
  | cons answer rest ih =>
      rcases send_loop_cases hcall with
        ⟨-, rfl, -⟩ | ⟨hrest, -⟩ | ⟨rfl, -⟩ | ⟨r, c', -, rfl, -, hsent⟩
      · exact Quiet.refl _
      · exact ih hrest
      · exact c.quiet_close
      · have hcarried : c.Quiet (c.record [.send c.m_fd ((buf.bytes.drop sent_bytes).take r)]) :=
          c.quiet_record trivial
        rcases hsent with ⟨-, rfl, -⟩ | hrest
        · exact hcarried
        · exact hcarried.trans (ih hrest)

theorem quiet_send {buf : Option Span} {answers : List (Answer Nat)} {exit : Exit}
    (hcall : c.send buf answers = some (next, exit)) : c.Quiet next := by
  cases buf with
  | none =>
      cases hcall
      exact Quiet.refl _
  | some b =>
      rw [send] at hcall
      by_cases hinvalid : c.m_fd < 0 ∨ b.len = 0
      · rw [if_pos hinvalid] at hcall
        cases hcall
        exact Quiet.refl _
      · rw [if_neg hinvalid] at hcall
        exact quiet_send_loop hcall

theorem quiet_recv_loop {len : ULong} {bytes filled : List UInt8} {recv_bytes : Nat}
    {answers : List (Answer (List UInt8))} {exit : Exit}
    (hcall : c.recv_loop len bytes recv_bytes answers = some (next, filled, exit)) :
    c.Quiet next := by
  induction answers generalizing c bytes recv_bytes with
  | nil => cases hcall
  | cons answer rest ih =>
      rcases recv_loop_cases hcall with
        ⟨rfl, -⟩ | hrest | ⟨rfl, -⟩ | ⟨data, c', rfl, hreceived⟩
      · exact Quiet.refl _
      · exact ih hrest
      · exact c.quiet_close
      · have hcarried : c.Quiet (c.record [.recv c.m_fd data]) := c.quiet_record trivial
        rcases hreceived with ⟨-, rfl, -⟩ | hrest
        · exact hcarried
        · exact hcarried.trans (ih hrest)

theorem quiet_recv {buf : Option Span} {answers : List (Answer (List UInt8))}
    {filled : List UInt8} {exit : Exit} (hcall : c.recv buf answers = some (next, filled, exit)) :
    c.Quiet next := by
  cases buf with
  | none =>
      cases hcall
      exact Quiet.refl _
  | some b =>
      rw [recv] at hcall
      by_cases hinvalid : c.m_fd < 0 ∨ b.len = 0
      · rw [if_pos hinvalid] at hcall
        cases hcall
        exact Quiet.refl _
      · rw [if_neg hinvalid] at hcall
        exact quiet_recv_loop hcall

theorem quiet_writev (c : TcpClient) (iov : Option (List (List UInt8))) (iovcnt : Int)
    (ret : Answer Nat) (errno : Errno) : c.Quiet (c.writev iov iovcnt ret errno).1 := by
  by_cases hinvalid : c.m_fd < 0 ∨ iov = none ∨ iovcnt = 0
  · simp only [writev, hinvalid, ite_true]
    exact Quiet.refl c
  have hcall : c.Quiet (c.record [.writev c.m_fd ret]) := c.quiet_record trivial
  have hclosed := hcall.trans (quiet_close _)
  simp only [writev, hinvalid, ite_false]
  cases ret with
  | error e =>
      dsimp only
      split_ifs
      · exact hcall
      · exact hclosed
  | ok sent_bytes =>
      dsimp only
      split_ifs
      · exact hcall
      · exact hclosed
      · exact hcall

theorem quiet_readv (c : TcpClient) (iov : Option (List (List UInt8))) (iovcnt : Int)
    (ret : Answer (List UInt8)) : c.Quiet (c.readv iov iovcnt ret).1 := by
  by_cases hinvalid : c.m_fd < 0 ∨ iov = none ∨ iovcnt = 0
  · simp only [readv, hinvalid, ite_true]
    exact Quiet.refl c
  have hcall : c.Quiet (c.record [.readv c.m_fd ret]) := c.quiet_record trivial
  have hclosed := hcall.trans (quiet_close _)
  simp only [readv, hinvalid, ite_false]
  cases ret with
  | error e =>
      dsimp only
      split_ifs
      · exact hcall
      · exact hclosed
  | ok data =>
      dsimp only
      split_ifs
      · exact hclosed
      · exact hcall

variable {kept : Prop}

theorem Timely.quiet (h : Timely kept c) (hquiet : c.Quiet next) : Timely kept next := by
  obtain ⟨calls, hcalls, hplain⟩ := hquiet.calls
  constructor
  · rw [hcalls]
    apply admitted_append h.1
    intro fd addr port ret hmem
    exact hplain _ hmem
  · intro hkept hfd opt
    rcases hquiet.m_fd with hsame | hclosed
    · rw [hsame] at hfd
      rw [hcalls, hsame, hquiet.m_timeout, in_force_plain hplain]
      exact h.2 hkept hfd opt
    · rw [hclosed] at hfd
      cases hfd

-- Both calls of setsockopt on a descriptor leave both timeouts there.
theorem in_force_both (fd timeout : Int) (opt : SockOpt) (calls : List Syscall) :
    in_force fd opt (calls ++ [.setsockopt fd .SO_RCVTIMEO (timeval timeout).1 (timeval timeout).2,
      .setsockopt fd .SO_SNDTIMEO (timeval timeout).1 (timeval timeout).2]) =
        some (timeval timeout) := by
  rw [in_force_append]
  cases opt <;> simp [tune]

theorem timely_closed (hadmitted : Ledger.Admitted Timed c.calls) (hfd : c.m_fd < 0) :
    Timely kept c :=
  ⟨hadmitted, fun _ hopen => absurd hopen (not_le.mpr hfd)⟩

theorem admitted_close (hadmitted : Ledger.Admitted Timed c.calls) :
    Ledger.Admitted Timed c.close.calls := by
  have htimely : Timely False c := ⟨hadmitted, False.elim⟩
  exact (htimely.quiet c.quiet_close).1

theorem admitted_set_socket_timeout (hadmitted : Ledger.Admitted Timed c.calls)
    (rcvtimeo sndtimeo : Int) :
    Ledger.Admitted Timed (c.set_socket_timeout rcvtimeo sndtimeo).1.calls := by
  unfold set_socket_timeout
  by_cases hrcv : rcvtimeo = 0
  · simp only [hrcv, ne_eq, not_true_eq_false, ite_false]
    exact admitted_append hadmitted (by simp)
  · simp only [ne_eq, hrcv, not_false_eq_true, ite_true]
    exact admitted_append hadmitted (by simp)

-- If both options are set, they are in force.
theorem set_socket_timeout_inForce {rcvtimeo sndtimeo : Int}
    (hok : (c.set_socket_timeout rcvtimeo sndtimeo).2 = true) (opt : SockOpt) :
    in_force c.m_fd opt (c.set_socket_timeout rcvtimeo sndtimeo).1.calls =
        some (timeval c.m_timeout) ∧
      (c.set_socket_timeout rcvtimeo sndtimeo).1.m_fd = c.m_fd ∧
      (c.set_socket_timeout rcvtimeo sndtimeo).1.m_timeout = c.m_timeout := by
  unfold set_socket_timeout at hok ⊢
  by_cases hrcv : rcvtimeo = 0
  · simp only [hrcv, ne_eq, not_true_eq_false, ite_false]
    exact ⟨in_force_both c.m_fd c.m_timeout opt c.calls, rfl, rfl⟩
  · simp [hrcv] at hok

-- A new descriptor gets its timeouts before it is connected, or is closed.
theorem timely_connect_opened (hadmitted : Ledger.Admitted Timed c.calls)
    (answers : ConnectAnswers) : Timely kept (c.connect_opened answers).1 := by
  have htimed := admitted_set_socket_timeout hadmitted answers.rcvtimeo answers.sndtimeo
  have hforce := @set_socket_timeout_inForce c answers.rcvtimeo answers.sndtimeo
  unfold connect_opened
  generalize c.set_socket_timeout answers.rcvtimeo answers.sndtimeo = timed at *
  obtain ⟨t, ok⟩ := timed
  cases ok with
  | false => exact timely_closed (admitted_close htimed) (close_m_fd_neg t)
  | true =>
      have hset : Timely kept t := by
        refine ⟨htimed, fun _ _ opt => ?_⟩
        obtain ⟨hvalue, hfd, htimeout⟩ := hforce rfl opt
        rw [hfd, htimeout]
        exact hvalue
      simp only [ite_true]
      cases inet_pton t.m_ip with
      | none => exact timely_closed (admitted_close htimed) (close_m_fd_neg t)
      | some addr =>
          let call : Syscall := .connect t.m_fd addr (BitVec.ofInt 16 t.m_port) answers.connect
          have hconnected : Timely kept (t.record [call]) := by
            constructor
            · refine Ledger.admitted_concat.mpr ⟨htimed, timeval c.m_timeout, fun opt => ?_⟩
              obtain ⟨hvalue, hfd, -⟩ := hforce rfl opt
              rw [hfd]
              exact hvalue
            · intro hkept hopen opt
              have hsame : in_force t.m_fd opt (t.calls ++ [call]) = in_force t.m_fd opt t.calls := by
                rw [in_force_append]
                rfl
              exact hsame.trans (hset.2 hkept hopen opt)
          by_cases hret : answers.connect = 0
          · simp only [hret, ite_true]
            rwa [show call = .connect t.m_fd addr (BitVec.ofInt 16 t.m_port) 0 by
              simp only [call, hret]] at hconnected
          · simp only [hret, ite_false]
            exact hconnected.quiet (quiet_close _)

theorem Timely.connect (h : Timely kept c) (answers : ConnectAnswers) :
    Timely kept (c.connect answers).1 := by
  unfold TcpClient.connect
  by_cases hopen : 0 ≤ c.m_fd
  · rw [if_pos hopen]
    exact h
  rw [if_neg hopen]
  by_cases htarget : c.m_ip = [] ∨ c.m_port < 0 ∨ 65535 < c.m_port
  · rw [if_pos htarget]
    exact h
  rw [if_neg htarget]
  cases answers.socket with
  | none =>
      have hadmitted : Ledger.Admitted Timed (c.record [.socket none]).calls :=
        admitted_append h.1 (by simp)
      exact timely_closed hadmitted (show (-1 : Int) < 0 by decide)
  | some fd =>
      have hadmitted : Ledger.Admitted Timed (c.record [.socket (some fd)]).calls :=
        admitted_append h.1 (by simp)
      exact timely_connect_opened (c := { c.record [.socket (some fd)] with m_fd := fd })
        hadmitted answers

theorem Timely.connect_first (h : Timely kept c) (results : List Resolved) :
    Timely kept (c.connect_first results).1 := by
  induction results generalizing c with
  | nil => exact h
  | cons rp rest ih =>
      cases hntop : rp.ntop with
      | false =>
          rw [connect_first_unprinted c hntop]
          exact h
      | true =>
          have haimed : Timely kept (c.aimed rp) := h
          have hconnected := haimed.connect rp.answers
          rw [connect_first_cons c hntop]
          split_ifs
          · exact hconnected
          · exact ih hconnected

theorem Timely.connect_host (h : Timely kept c) (results : Option (List Resolved)) :
    Timely kept (c.connect_host results).1 := by
  by_cases hrejected : Rejected c.m_str_host c.m_str_port
  · rw [connect_host_rejected hrejected]
    exact h
  by_cases hport : atoi c.m_str_port < 0 ∨ 65535 < atoi c.m_str_port
  · rw [connect_host_out_of_bound hrejected hport]
    exact h
  rw [connect_host_resolved hrejected hport]
  let ported : TcpClient := { c with m_port := atoi c.m_str_port }
  have hported : Timely kept ported := h
  have hresolving : Timely kept c.resolving := hported.quiet (ported.quiet_record trivial)
  cases results with
  | none => exact hresolving
  | some found => exact hresolving.connect_first found

theorem Timely.reconnect (h : Timely kept c) (peek : Answer Nat) (results : Option (List Resolved)) :
    Timely kept (c.reconnect peek results).1 := by
  have halive := h.quiet (c.quiet_is_real_alive peek)
  unfold TcpClient.reconnect
  generalize c.is_real_alive peek = seen at *
  obtain ⟨s, alive⟩ := seen
  cases alive with
  | true => exact halive
  | false => exact (halive.quiet s.quiet_close).connect_host results

-- Setting a timeout keeps the invariant if the kernel takes it, where that matters.
theorem Timely.set_timeout (h : Timely kept c) {t rcvtimeo sndtimeo : Int}
    (haccepts : kept → 0 ≤ c.m_fd → rcvtimeo = 0 ∧ sndtimeo = 0) :
    Timely kept (c.set_timeout t rcvtimeo sndtimeo).1 := by
  unfold TcpClient.set_timeout
  let timed : TcpClient := { c with m_timeout := toInt64 (t * 1000000) }
  by_cases hfd : 0 ≤ c.m_fd
  · simp only [hfd, ite_true]
    refine ⟨admitted_set_socket_timeout (c := timed) h.1 rcvtimeo sndtimeo, fun hkept _ opt => ?_⟩
    obtain ⟨rfl, rfl⟩ := haccepts hkept hfd
    obtain ⟨hvalue, hsame, htimeout⟩ := @set_socket_timeout_inForce timed 0 0 rfl opt
    rw [hsame, htimeout]
    exact hvalue
  · simp only [hfd, ite_false]
    exact timely_closed h.1 (not_le.mp hfd)

theorem Timely.step (h : Timely kept c) {op : Op} (haccepts : kept → c.Accepts op)
    (hstep : c.step op = some next) : Timely kept next := by
  cases op with
  | connect answers => exact Option.some.inj hstep ▸ h.connect answers
  | connect_to host port results =>
      let named : TcpClient := { c with m_str_host := host, m_str_port := port }
      have hnamed : Timely kept named := h
      exact Option.some.inj hstep ▸ hnamed.connect_host results
  | reconnect peek results => exact Option.some.inj hstep ▸ h.reconnect peek results
  | close => exact Option.some.inj hstep ▸ h.quiet c.quiet_close
  | send buf answers =>
      obtain ⟨⟨other, exit⟩, hcall, rfl⟩ := Option.map_eq_some_iff.mp hstep
      exact h.quiet (quiet_send hcall)
  | recv buf answers =>
      obtain ⟨⟨other, filled, exit⟩, hcall, rfl⟩ := Option.map_eq_some_iff.mp hstep
      exact h.quiet (quiet_recv hcall)
  | writev iov iovcnt ret errno =>
      exact Option.some.inj hstep ▸ h.quiet (c.quiet_writev iov iovcnt ret errno)
  | readv iov iovcnt ret => exact Option.some.inj hstep ▸ h.quiet (c.quiet_readv iov iovcnt ret)
  | set_timeout t rcvtimeo sndtimeo => exact Option.some.inj hstep ▸ h.set_timeout haccepts
  | is_real_alive peek => exact Option.some.inj hstep ▸ h.quiet (c.quiet_is_real_alive peek)

end

end IgLibs.TcpClient
