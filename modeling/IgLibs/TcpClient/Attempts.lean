import IgLibs.TcpClient.Changes

namespace IgLibs.TcpClient

open CString

-- The calls that look for a peer: getaddrinfo with its host, connect(2) with its address.
inductive Attempt
  | resolve (host : List UInt8)
  | connect (addr : InAddr) (port : BitVec 16)
deriving DecidableEq

def attempts (calls : List Syscall) : List Attempt :=
  calls.filterMap fun
    | .getaddrinfo host _ => some (.resolve host)
    | .connect _ addr port _ => some (.connect addr port)
    | _ => none

-- connect() gets as far as connect(2).
def ready (answers : ConnectAnswers) : Prop :=
  answers.socket ≠ none ∧ answers.rcvtimeo = 0 ∧ answers.sndtimeo = 0

instance : DecidablePred ready := fun answers =>
  inferInstanceAs (Decidable (answers.socket ≠ none ∧ answers.rcvtimeo = 0 ∧ answers.sndtimeo = 0))

-- The resolved addresses that the loop of connect_host tries: up to the first that accepts.
def tried : List Resolved → List InAddr
  | [] => []
  | rp :: rest =>
      if rp.ntop = false then []
      else if ready rp.answers then rp.addr :: if rp.answers.connect = 0 then [] else tried rest
      else tried rest

-- What passes the checks of connect_host before it asks for the addresses.
def Admitted (host port : List UInt8) : Prop :=
  ¬Rejected host port ∧ 0 ≤ atoi port ∧ atoi port ≤ 65535

instance (host port : List UInt8) : Decidable (Rejected host port) :=
  inferInstanceAs (Decidable (host = [] ∨ port = [] ∨ BossCommon.is_all_digit port = false))

instance (host port : List UInt8) : Decidable (Admitted host port) :=
  inferInstanceAs (Decidable (¬Rejected host port ∧ 0 ≤ atoi port ∧ atoi port ≤ 65535))

-- The client has gone on, with the given attempts in turn.
def Attempted (c next : TcpClient) (made : List Attempt) : Prop :=
  ∃ later, next.calls = c.calls ++ later ∧ attempts later = made

section

variable {c middle next : TcpClient} {made more : List Attempt} {addr : InAddr}

theorem attempts_append (first second : List Syscall) :
    attempts (first ++ second) = attempts first ++ attempts second :=
  List.filterMap_append

theorem Attempted.of_calls (h : next.calls = c.calls) : Attempted c next [] :=
  ⟨[], by simp [h], rfl⟩

theorem Attempted.trans (h : Attempted c middle made) (h' : Attempted middle next more) :
    Attempted c next (made ++ more) := by
  obtain ⟨later, hcalls, rfl⟩ := h
  obtain ⟨later', hcalls', rfl⟩ := h'
  exact ⟨later ++ later', by rw [hcalls', hcalls, List.append_assoc], attempts_append _ _⟩

theorem attempted_record (c : TcpClient) (calls : List Syscall) :
    Attempted c (c.record calls) (attempts calls) :=
  ⟨calls, rfl, rfl⟩

theorem attempted_close (c : TcpClient) : Attempted c c.close [] := by
  by_cases hfd : 0 ≤ c.m_fd
  · rw [close, if_pos hfd]
    exact ⟨_, rfl, rfl⟩
  · rw [close, if_neg hfd]
    exact .of_calls rfl

theorem attempted_set_socket_timeout (c : TcpClient) (rcvtimeo sndtimeo : Int) :
    Attempted c (c.set_socket_timeout rcvtimeo sndtimeo).1 [] ∧
      c.SameTarget (c.set_socket_timeout rcvtimeo sndtimeo).1 ∧
      (c.set_socket_timeout rcvtimeo sndtimeo).1.m_fd = c.m_fd ∧
      (c.set_socket_timeout rcvtimeo sndtimeo).2 = decide (rcvtimeo = 0 ∧ sndtimeo = 0) := by
  unfold set_socket_timeout
  by_cases hrcv : rcvtimeo = 0
  · simp only [hrcv, ne_eq, not_true_eq_false, ite_false, true_and]
    exact ⟨⟨_, rfl, rfl⟩, ⟨rfl, rfl, rfl, rfl⟩, rfl, trivial⟩
  · simp only [hrcv, ne_eq, not_false_eq_true, ite_true, false_and, decide_false, and_true]
    exact ⟨⟨_, rfl, rfl⟩, ⟨rfl, rfl, rfl, rfl⟩, rfl⟩

theorem close_m_port (c : TcpClient) : c.close.m_port = c.m_port := by
  unfold close
  split_ifs <;> rfl

-- A failed attempt leaves an unconnected client with the same port.
def Failed (c next : TcpClient) : Prop := next.m_fd < 0 ∧ next.m_port = c.m_port

theorem connect_opened_attempted (hfd : 0 ≤ c.m_fd) (haddr : inet_pton c.m_ip = some addr)
    (answers : ConnectAnswers) :
    Attempted c (c.connect_opened answers).1
        (if answers.rcvtimeo = 0 ∧ answers.sndtimeo = 0 then
          [.connect addr (BitVec.ofInt 16 c.m_port)] else []) ∧
      if (answers.rcvtimeo = 0 ∧ answers.sndtimeo = 0) ∧ answers.connect = 0 then
        (c.connect_opened answers).2 ≠ TC_ERROR
      else (c.connect_opened answers).2 = TC_ERROR ∧ Failed c (c.connect_opened answers).1 := by
  obtain ⟨htimed, htarget, hsame, hok⟩ :=
    c.attempted_set_socket_timeout answers.rcvtimeo answers.sndtimeo
  unfold connect_opened
  generalize c.set_socket_timeout answers.rcvtimeo answers.sndtimeo = timed at *
  obtain ⟨t, ok⟩ := timed
  dsimp only at htimed htarget hsame hok ⊢
  subst hok
  have hfailed : Failed c t.close := ⟨close_m_fd_neg t, (close_m_port t).trans htarget.m_port⟩
  by_cases hready : answers.rcvtimeo = 0 ∧ answers.sndtimeo = 0
  · rw [← htarget.m_ip] at haddr
    simp only [hready, and_self, decide_true, ite_true, true_and, haddr]
    have hcall (ret : Int) :
        Attempted c (t.record [.connect t.m_fd addr (BitVec.ofInt 16 t.m_port) ret])
          [.connect addr (BitVec.ofInt 16 c.m_port)] := by
      have hrecord := htimed.trans
        (t.attempted_record [.connect t.m_fd addr (BitVec.ofInt 16 t.m_port) ret])
      rw [← htarget.m_port]
      exact hrecord
    by_cases hret : answers.connect = 0
    · simp only [hret, ite_true]
      refine ⟨hcall 0, ?_⟩
      rw [TC_ERROR]
      change t.m_fd ≠ -1
      omega
    · simp only [hret, ite_false]
      refine ⟨?_, trivial, close_m_fd_neg _, (close_m_port _).trans htarget.m_port⟩
      simpa using (hcall answers.connect).trans (attempted_close _)
  · simp only [hready, decide_false, Bool.false_eq_true, ite_false, false_and]
    exact ⟨htimed.trans t.attempted_close, trivial, hfailed⟩

-- connect() on an unconnected client with a valid address calls connect(2) once, when it gets
-- that far.
theorem connect_attempted (hfd : c.m_fd < 0) (haddr : inet_pton c.m_ip = some addr)
    (hport : 0 ≤ c.m_port ∧ c.m_port ≤ 65535) (answers : ConnectAnswers) :
    Attempted c (c.connect answers).1
        (if ready answers then [.connect addr (BitVec.ofInt 16 c.m_port)] else []) ∧
      if ready answers ∧ answers.connect = 0 then (c.connect answers).2 ≠ TC_ERROR
      else (c.connect answers).2 = TC_ERROR ∧ Failed c (c.connect answers).1 := by
  have hvalid : ¬(c.m_ip = [] ∨ c.m_port < 0 ∨ 65535 < c.m_port) := by
    rintro (hnil | hout)
    · rw [hnil] at haddr
      cases haddr
    · omega
  rw [connect, if_neg (by omega), if_neg hvalid]
  cases hsocket : answers.socket with
  | none =>
      have hnot : ¬ready answers := fun h => h.1 hsocket
      simp only [hnot, false_and, ite_false]
      exact ⟨⟨_, rfl, rfl⟩, trivial, show (-1 : Int) < 0 by decide, rfl⟩
  | some fd =>
      have hready : ready answers ↔ answers.rcvtimeo = 0 ∧ answers.sndtimeo = 0 := by
        simp [ready, hsocket]
      let opened : TcpClient := { c.record [.socket (some fd)] with m_fd := fd }
      have hopened : Attempted c opened [] := ⟨_, rfl, rfl⟩
      obtain ⟨hcalls, hret⟩ :=
        @connect_opened_attempted opened addr (Int.natCast_nonneg fd) haddr answers
      simp only [hready]
      exact ⟨hopened.trans hcalls, hret⟩

theorem tried_cons {rp : Resolved} (hntop : rp.ntop = true) (rest : List Resolved) :
    tried (rp :: rest) =
      if ready rp.answers then rp.addr :: if rp.answers.connect = 0 then [] else tried rest
      else tried rest := by
  rw [tried, if_neg (by simp [hntop])]

-- The loop tries the addresses in turn, all at the same port.
theorem connect_first_attempted (hfd : c.m_fd < 0) (hport : 0 ≤ c.m_port ∧ c.m_port ≤ 65535)
    (results : List Resolved) :
    Attempted c (c.connect_first results).1
      ((tried results).map fun addr => .connect addr (BitVec.ofInt 16 c.m_port)) := by
  induction results generalizing c with
  | nil => exact .of_calls rfl
  | cons rp rest ih =>
      cases hntop : rp.ntop with
      | false =>
          rw [connect_first_unprinted c hntop, tried, if_pos hntop]
          exact .of_calls rfl
      | true =>
          have hread : inet_pton (c.aimed rp).m_ip = some rp.addr := inet_pton_inet_ntop rp.addr
          have haimed : Attempted c (c.aimed rp) [] := .of_calls rfl
          obtain ⟨hcalls, hret⟩ := @connect_attempted (c.aimed rp) _ hfd hread hport rp.answers
          rw [connect_first_cons c hntop, tried_cons hntop]
          by_cases hdone : ready rp.answers ∧ rp.answers.connect = 0
          · rw [if_pos hdone] at hret
            rw [if_pos hret, if_pos hdone.1, if_pos hdone.2]
            rw [if_pos hdone.1] at hcalls
            exact haimed.trans hcalls
          · rw [if_neg hdone] at hret
            obtain ⟨hret, hneg, hsame⟩ := hret
            have hsame' : ((c.aimed rp).connect rp.answers).1.m_port = c.m_port := hsame
            have hrest := ih hneg (by rw [hsame']; exact hport)
            rw [hsame'] at hrest
            rw [if_neg (not_not.mpr hret)]
            have hall := (haimed.trans hcalls).trans hrest
            by_cases hready : ready rp.answers
            · have hrefused : rp.answers.connect ≠ 0 := fun hzero => hdone ⟨hready, hzero⟩
              rw [if_pos hready] at hall ⊢
              rw [if_neg hrefused]
              exact hall
            · rw [if_neg hready] at hall ⊢
              exact hall

-- connect_host gets to the addresses with a port that it has checked.
theorem connect_host_attempted (hfd : c.m_fd < 0) (results : Option (List Resolved)) :
    Attempted c (c.connect_host results).1
      (if Admitted c.m_str_host c.m_str_port then
        .resolve (c_str c.m_str_host) ::
          (tried (results.getD [])).map fun addr => .connect addr (BitVec.ofInt 16 (atoi c.m_str_port))
      else []) := by
  by_cases hrejected : Rejected c.m_str_host c.m_str_port
  · rw [connect_host_rejected hrejected, if_neg fun h => h.1 hrejected]
    exact .of_calls rfl
  by_cases hport : atoi c.m_str_port < 0 ∨ 65535 < atoi c.m_str_port
  · rw [connect_host_out_of_bound hrejected hport, if_neg fun h => absurd h.2 (by omega)]
    exact .of_calls rfl
  have hvalid : 0 ≤ atoi c.m_str_port ∧ atoi c.m_str_port ≤ 65535 := by omega
  rw [connect_host_resolved hrejected hport, if_pos ⟨hrejected, hvalid⟩]
  have hresolving : Attempted c c.resolving [.resolve (c_str c.m_str_host)] := ⟨_, rfl, rfl⟩
  cases results with
  | none => exact hresolving
  | some found => exact hresolving.trans (@connect_first_attempted c.resolving hfd hvalid found)

end

-- An address where every system call succeeds.
def accepting : Resolved := ⟨⟨127, 0, 0, 1⟩, true, ⟨some 3, 0, 0, 0⟩⟩

theorem tried_accepting : tried [accepting] = [⟨127, 0, 0, 1⟩] := rfl

end IgLibs.TcpClient
