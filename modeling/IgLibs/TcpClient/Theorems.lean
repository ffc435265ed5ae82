import IgLibs.TcpClient
import IgLibs.Machine

namespace IgLibs.TcpClient

open Word CMemory CString

abbrev Peer := InAddr × BitVec 16

-- The kernel's side of the one descriptor that is open, with the peer it is connected to.
structure Link where
  fd : Int
  peer : Option Peer
deriving DecidableEq

-- What a system call does to it. Opening a second descriptor, or connecting or closing
-- another one, has no result.
def Link.step (link : Option Link) : Syscall → Option (Option Link)
  | .socket (some fd) => if link = none then some (some ⟨fd, none⟩) else none
  | .connect fd addr port ret =>
      match link with
      | some l =>
          if l.fd = fd then some (some ⟨fd, if ret = 0 then some (addr, port) else l.peer⟩) else none
      | none => none
  | .close fd =>
      match link with
      | some l => if l.fd = fd then some none else none
      | none => none
  | _ => some link

def Wired (c : TcpClient) (link : Option Link) : Prop :=
  Machine.exec Link.step none c.calls = some link

-- Between two public calls the client has either no descriptor or a connected one.
def Idle (c : TcpClient) : Prop := c.m_fd = -1 ∧ c.Wired none

def Linked (c : TcpClient) (peer : Peer) : Prop :=
  0 ≤ c.m_fd ∧ c.Wired (some ⟨c.m_fd, some peer⟩)

def Settled (c : TcpClient) : Prop := c.Idle ∨ ∃ peer, c.Linked peer

-- The target as stored in the object.
structure SameTarget (c next : TcpClient) : Prop where
  m_str_host : next.m_str_host = c.m_str_host
  m_ip : next.m_ip = c.m_ip
  m_str_port : next.m_str_port = c.m_str_port
  m_port : next.m_port = c.m_port

section

variable {c middle next : TcpClient} {link link' : Option Link} {peer : Peer}

theorem SameTarget.refl (c : TcpClient) : c.SameTarget c := ⟨rfl, rfl, rfl, rfl⟩

theorem SameTarget.trans (h : c.SameTarget middle) (h' : middle.SameTarget next) :
    c.SameTarget next :=
  ⟨h'.m_str_host.trans h.m_str_host, h'.m_ip.trans h.m_ip, h'.m_str_port.trans h.m_str_port,
    h'.m_port.trans h.m_port⟩

theorem Wired.record (h : c.Wired link) {calls : List Syscall}
    (hcalls : Machine.exec Link.step link calls = some link') : (c.record calls).Wired link' :=
  Machine.exec_append_eq_some.mpr ⟨link, h, hcalls⟩

-- Calls other than socket, connect and close leave the descriptor as it is.
theorem Wired.record_quiet (h : c.Wired link) {call : Syscall}
    (hcall : Link.step link call = some link) : (c.record [call]).Wired link :=
  h.record (Machine.exec_cons_eq_some.mpr ⟨link, hcall, rfl⟩)

theorem close_of_neg (h : c.m_fd = -1) : c.close = c := by
  unfold close
  rw [h]
  rfl

theorem close_m_fd_neg (c : TcpClient) : c.close.m_fd < 0 := by
  by_cases hfd : 0 ≤ c.m_fd
  · rw [close, if_pos hfd]
    exact show (-1 : Int) < 0 by decide
  · rw [close, if_neg hfd]
    omega

theorem Wired.close {p : Option Peer} (h : c.Wired (some ⟨c.m_fd, p⟩)) (hfd : 0 ≤ c.m_fd) :
    c.close.Idle ∧ c.SameTarget c.close := by
  unfold TcpClient.close
  simp only [hfd, ite_true]
  refine ⟨⟨rfl, ?_⟩, ⟨rfl, rfl, rfl, rfl⟩⟩
  have hclose : Machine.exec Link.step (some ⟨c.m_fd, p⟩) [.shutdown c.m_fd, .close c.m_fd] =
      some none := by
    simp [Link.step]
  exact h.record hclose

theorem Settled.close (h : c.Settled) : c.close.Idle ∧ c.SameTarget c.close := by
  rcases h with h | ⟨peer, hfd, hwired⟩
  · rw [close_of_neg h.1]
    exact ⟨h, SameTarget.refl c⟩
  · exact hwired.close hfd

theorem set_socket_timeout_spec (h : c.Wired link) (rcvtimeo sndtimeo : Int) :
    (c.set_socket_timeout rcvtimeo sndtimeo).1.Wired link ∧
      (c.set_socket_timeout rcvtimeo sndtimeo).1.m_fd = c.m_fd ∧
      c.SameTarget (c.set_socket_timeout rcvtimeo sndtimeo).1 := by
  unfold set_socket_timeout
  by_cases hrcv : rcvtimeo = 0
  · simp only [hrcv, ne_eq, not_true_eq_false, ite_false]
    exact ⟨h.record (by simp [Link.step]), rfl, ⟨rfl, rfl, rfl, rfl⟩⟩
  · simp only [ne_eq, hrcv, not_false_eq_true, ite_true]
    exact ⟨h.record (by simp [Link.step]), rfl, ⟨rfl, rfl, rfl, rfl⟩⟩

-- A fresh descriptor ends up linked to the stored target, or closed.
theorem connect_opened_spec (hfd : 0 ≤ c.m_fd) (h : c.Wired (some ⟨c.m_fd, none⟩))
    (answers : ConnectAnswers) :
    c.SameTarget (c.connect_opened answers).1 ∧
      ((c.connect_opened answers).2 = TC_ERROR ∧ (c.connect_opened answers).1.Idle ∨
        (c.connect_opened answers).2 = (c.connect_opened answers).1.m_fd ∧
          ∃ addr, inet_pton c.m_ip = some addr ∧
            (c.connect_opened answers).1.Linked (addr, BitVec.ofInt 16 c.m_port)) := by
  obtain ⟨hwired, hsame, htarget⟩ :=
    set_socket_timeout_spec h answers.rcvtimeo answers.sndtimeo
  unfold connect_opened
  generalize c.set_socket_timeout answers.rcvtimeo answers.sndtimeo = timed at *
  obtain ⟨t, ok⟩ := timed
  simp only at hwired hsame htarget ⊢
  rw [← hsame] at hwired hfd
  cases ok with
  | false =>
      obtain ⟨hidle, hclose⟩ := hwired.close hfd
      exact ⟨htarget.trans hclose, .inl ⟨rfl, hidle⟩⟩
  | true =>
      simp only [ite_true]
      rw [← htarget.m_ip, ← htarget.m_port]
      cases haddr : inet_pton t.m_ip with
      | none =>
          obtain ⟨hidle, hclose⟩ := hwired.close hfd
          exact ⟨htarget.trans hclose, .inl ⟨rfl, hidle⟩⟩
      | some addr =>
          let call : Syscall := .connect t.m_fd addr (BitVec.ofInt 16 t.m_port) answers.connect
          by_cases hret : answers.connect = 0
          · simp only [hret, ite_true]
            refine ⟨htarget.trans ⟨rfl, rfl, rfl, rfl⟩, .inr ⟨trivial, addr, rfl, hfd, ?_⟩⟩
            refine hwired.record ?_
            simp [Link.step, TcpClient.record]
          · simp only [hret, ite_false]
            have hfailed : (t.record [call]).Wired (some ⟨(t.record [call]).m_fd, none⟩) := by
              refine hwired.record ?_
              simp [call, Link.step, hret, TcpClient.record]
            obtain ⟨hidle, hclose⟩ := hfailed.close hfd
            have hrecord : t.SameTarget (t.record [call]) := ⟨rfl, rfl, rfl, rfl⟩
            exact ⟨(htarget.trans hrecord).trans hclose, .inl ⟨trivial, hidle⟩⟩

-- connect() on an unconnected client links it to the stored target, or leaves it unconnected.
theorem connect_spec (h : c.Idle) (answers : ConnectAnswers) :
    c.SameTarget (c.connect answers).1 ∧
      ((c.connect answers).2 = TC_ERROR ∧ (c.connect answers).1.Idle ∨
        (c.connect answers).2 = (c.connect answers).1.m_fd ∧ 0 ≤ c.m_port ∧ c.m_port ≤ 65535 ∧
          ∃ addr, inet_pton c.m_ip = some addr ∧
            (c.connect answers).1.Linked (addr, BitVec.ofInt 16 c.m_port)) := by
  obtain ⟨hfd, hwired⟩ := h
  have hneg : ¬0 ≤ c.m_fd := by omega
  by_cases htarget : c.m_ip = [] ∨ c.m_port < 0 ∨ 65535 < c.m_port
  · have hcall : c.connect answers = (c, TC_ERROR) := by
      simp only [connect, hneg, ite_false, htarget, ite_true]
    rw [hcall]
    exact ⟨SameTarget.refl c, .inl ⟨rfl, hfd, hwired⟩⟩
  · simp only [connect, hneg, ite_false, htarget]
    cases answers.socket with
    | none => exact ⟨⟨rfl, rfl, rfl, rfl⟩, .inl ⟨rfl, rfl, hwired.record_quiet rfl⟩⟩
    | some fd =>
        let opened : TcpClient := { c.record [.socket (some fd)] with m_fd := fd }
        have hopened : opened.Wired (some ⟨opened.m_fd, none⟩) :=
          hwired.record rfl
        obtain ⟨hsame, hcase⟩ := connect_opened_spec (Int.natCast_nonneg fd) hopened answers
        have htarget' : c.SameTarget opened := ⟨rfl, rfl, rfl, rfl⟩
        refine ⟨htarget'.trans hsame, ?_⟩
        rcases hcase with herror | ⟨hret, hlinked⟩
        · exact .inl herror
        · exact .inr ⟨hret, by omega, by omega, hlinked⟩

theorem connect_of_linked (h : 0 ≤ c.m_fd) (answers : ConnectAnswers) :
    c.connect answers = (c, c.m_fd) := by
  simp only [connect, h, ite_true]

theorem Linked.record_quiet (h : c.Linked peer) (call : Syscall)
    (hcall : Link.step (some ⟨c.m_fd, some peer⟩) call = some (some ⟨c.m_fd, some peer⟩)) :
    (c.record [call]).Linked peer :=
  ⟨h.1, h.2.record_quiet hcall⟩

theorem Linked.not_neg (h : c.Linked peer) : ¬c.m_fd < 0 := by
  have := h.1
  omega

-- How a data transfer may leave the client.
structure Outcome (c next : TcpClient) (peer : Peer) (exit : Exit) : Prop where
  target : c.SameTarget next
  error : exit = .error → next.Idle
  other : exit ≠ .error → next.m_fd = c.m_fd ∧ next.Linked peer

theorem Outcome.failed (h : c.Linked peer) : Outcome c c.close peer .error := by
  obtain ⟨hidle, htarget⟩ := h.2.close h.1
  exact ⟨htarget, fun _ => hidle, fun hne => absurd rfl hne⟩

theorem Outcome.unchanged (h : c.Linked peer) {exit : Exit} (hexit : exit ≠ .error) :
    Outcome c c peer exit :=
  ⟨SameTarget.refl c, fun he => absurd he hexit, fun _ => ⟨rfl, h⟩⟩

-- Recording a transfer before going on does not matter for the outcome.
theorem Outcome.of_record {calls : List Syscall} {exit : Exit}
    (h : Outcome (c.record calls) next peer exit) : Outcome c next peer exit :=
  ⟨⟨h.target.m_str_host, h.target.m_ip, h.target.m_str_port, h.target.m_port⟩, h.error, h.other⟩

-- The last answer of send(2) before a call of send returns.
def Ends : Exit → Answer Nat → Prop
  | .timeout, .error e => e = .EAGAIN ∨ e = .EWOULDBLOCK
  | .error, .error e => e ≠ .EINTR
  | .done _, .ok _ => True
  | _, _ => False

-- What an answer of send(2) does to the loop: the call times out, goes on, fails, or has sent r
-- more bytes and then ends or goes on.
theorem send_loop_cases {buf : Span} {sent_bytes : Nat} {answer : Answer Nat}
    {rest : List (Answer Nat)} {exit : Exit}
    (hcall : c.send_loop buf sent_bytes (answer :: rest) = some (next, exit)) :
    (sent_bytes = 0 ∧ next = c ∧ exit = .timeout ∧
        ∃ e, answer = .error e ∧ Ends .timeout (.error e)) ∨
      (c.send_loop buf sent_bytes rest = some (next, exit) ∧ answer = .error .EINTR) ∨
      (next = c.close ∧ exit = .error ∧ ∃ e, answer = .error e ∧ Ends .error (.error e)) ∨
      ∃ r c', r ≤ buf.len.toNat - sent_bytes ∧
        c' = c.record [.send c.m_fd ((buf.bytes.drop sent_bytes).take r)] ∧ answer = .ok r ∧
        ((buf.len.toNat ≤ sent_bytes + r ∧ next = c' ∧ exit = .done buf.len.toNat) ∨
          c'.send_loop buf (sent_bytes + r) rest = some (next, exit)) := by
  cases answer with
  | error e =>
      rw [send_loop] at hcall
      by_cases hagain : (e = .EAGAIN ∨ e = .EWOULDBLOCK) ∧ sent_bytes = 0
      · rw [if_pos hagain] at hcall
        cases hcall
        exact .inl ⟨hagain.2, rfl, rfl, e, rfl, hagain.1⟩
      rw [if_neg hagain] at hcall
      by_cases hintr : e = .EINTR
      · rw [if_pos hintr] at hcall
        exact .inr (.inl ⟨hcall, congrArg _ hintr⟩)
      · rw [if_neg hintr] at hcall
        cases hcall
        exact .inr (.inr (.inl ⟨rfl, rfl, e, rfl, hintr⟩))
  | ok r =>
      rw [send_loop] at hcall
      by_cases htoo : buf.len.toNat - sent_bytes < r
      · rw [if_pos htoo] at hcall
        cases hcall
      rw [if_neg htoo] at hcall
      refine .inr (.inr (.inr ⟨r, _, Nat.le_of_not_lt htoo, rfl, rfl, ?_⟩))
      by_cases hdone : buf.len.toNat ≤ sent_bytes + r
      · simp only [hdone, ite_true] at hcall
        cases hcall
        exact .inl ⟨hdone, rfl, rfl⟩
      · simp only [hdone, ite_false] at hcall
        exact .inr hcall

-- And one of recv(2), where no data at all is a failure, too.
theorem recv_loop_cases {len : ULong} {bytes filled : List UInt8} {recv_bytes : Nat}
    {answer : Answer (List UInt8)} {rest : List (Answer (List UInt8))} {exit : Exit}
    (hcall : c.recv_loop len bytes recv_bytes (answer :: rest) = some (next, filled, exit)) :
    (next = c ∧ exit = .timeout) ∨
      c.recv_loop len bytes recv_bytes rest = some (next, filled, exit) ∨
      (next = c.close ∧ exit = .error) ∨
      ∃ data c', c' = c.record [.recv c.m_fd data] ∧
        ((len.toNat ≤ recv_bytes + data.length ∧ next = c' ∧ exit = .done len.toNat) ∨
          c'.recv_loop len (Circular.splice bytes recv_bytes data) (recv_bytes + data.length) rest =
            some (next, filled, exit)) := by
  cases answer with
  | error e =>
      rw [recv_loop] at hcall
      by_cases hagain : e = .EAGAIN ∨ e = .EWOULDBLOCK
      · rw [if_pos hagain] at hcall
        cases hcall
        exact .inl ⟨rfl, rfl⟩
      rw [if_neg hagain] at hcall
      by_cases hintr : e = .EINTR
      · rw [if_pos hintr] at hcall
        exact .inr (.inl hcall)
      · rw [if_neg hintr] at hcall
        cases hcall
        exact .inr (.inr (.inl ⟨rfl, rfl⟩))
  | ok data =>
      rw [recv_loop] at hcall
      by_cases hend : data = []
      · rw [if_pos hend] at hcall
        cases hcall
        exact .inr (.inr (.inl ⟨rfl, rfl⟩))
      rw [if_neg hend] at hcall
      by_cases htoo : len.toNat - recv_bytes < data.length
      · rw [if_pos htoo] at hcall
        cases hcall
      rw [if_neg htoo] at hcall
      refine .inr (.inr (.inr ⟨data, _, rfl, ?_⟩))
      by_cases hdone : len.toNat ≤ recv_bytes + data.length
      · simp only [hdone, ite_true] at hcall
        cases hcall
        exact .inl ⟨hdone, rfl, rfl⟩
      · simp only [hdone, ite_false] at hcall
        exact .inr hcall

theorem send_loop_outcome {buf : Span} {sent_bytes : Nat} {answers : List (Answer Nat)} {exit : Exit}
    (h : c.Linked peer) (hcall : c.send_loop buf sent_bytes answers = some (next, exit)) :
    Outcome c next peer exit := by
  induction answers generalizing c sent_bytes with
  | nil => cases hcall
  | cons answer rest ih =>
      rcases send_loop_cases hcall with
        ⟨-, rfl, rfl, -⟩ | ⟨hrest, -⟩ | ⟨rfl, rfl, -⟩ | ⟨r, c', -, rfl, -, ⟨-, rfl, rfl⟩ | hrest⟩
      · exact Outcome.unchanged h (by decide)
      · exact ih h hrest
      · exact Outcome.failed h
      · have hlinked := h.record_quiet (.send c.m_fd ((buf.bytes.drop sent_bytes).take r)) rfl
        exact Outcome.of_record (Outcome.unchanged hlinked Exit.noConfusion)
      · have hlinked := h.record_quiet (.send c.m_fd ((buf.bytes.drop sent_bytes).take r)) rfl
        exact Outcome.of_record (ih hlinked hrest)

theorem recv_loop_outcome {len : ULong} {bytes filled : List UInt8} {recv_bytes : Nat}
    {answers : List (Answer (List UInt8))} {exit : Exit} (h : c.Linked peer)
    (hcall : c.recv_loop len bytes recv_bytes answers = some (next, filled, exit)) :
    Outcome c next peer exit := by
  induction answers generalizing c bytes recv_bytes with
  | nil => cases hcall
  | cons answer rest ih =>
      rcases recv_loop_cases hcall with
        ⟨rfl, rfl⟩ | hrest | ⟨rfl, rfl⟩ | ⟨data, c', rfl, ⟨-, rfl, rfl⟩ | hrest⟩
      · exact Outcome.unchanged h (by decide)
      · exact ih h hrest
      · exact Outcome.failed h
      · have hlinked := h.record_quiet (.recv c.m_fd data) rfl
        exact Outcome.of_record (Outcome.unchanged hlinked Exit.noConfusion)
      · have hlinked := h.record_quiet (.recv c.m_fd data) rfl
        exact Outcome.of_record (ih hlinked hrest)

theorem send_outcome {buf : Span} {answers : List (Answer Nat)} {exit : Exit} (h : c.Linked peer)
    (hlen : buf.len ≠ 0) (hcall : c.send (some buf) answers = some (next, exit)) :
    Outcome c next peer exit := by
  have hvalid : ¬(c.m_fd < 0 ∨ buf.len = 0) := not_or.mpr ⟨h.not_neg, hlen⟩
  simp only [send, hvalid, ite_false] at hcall
  exact send_loop_outcome h hcall

theorem recv_outcome {buf : Span} {answers : List (Answer (List UInt8))} {filled : List UInt8}
    {exit : Exit} (h : c.Linked peer) (hlen : buf.len ≠ 0)
    (hcall : c.recv (some buf) answers = some (next, filled, exit)) : Outcome c next peer exit := by
  have hvalid : ¬(c.m_fd < 0 ∨ buf.len = 0) := not_or.mpr ⟨h.not_neg, hlen⟩
  simp only [recv, hvalid, ite_false] at hcall
  exact recv_loop_outcome h hcall

theorem writev_outcome (h : c.Linked peer) {iov : Option (List (List UInt8))} {iovcnt : Int}
    (hiov : iov ≠ none) (hcnt : iovcnt ≠ 0) (ret : Answer Nat) (errno : Errno) :
    Outcome c (c.writev iov iovcnt ret errno).1 peer (c.writev iov iovcnt ret errno).2 := by
  have hvalid : ¬(c.m_fd < 0 ∨ iov = none ∨ iovcnt = 0) :=
    not_or.mpr ⟨h.not_neg, not_or.mpr ⟨hiov, hcnt⟩⟩
  have hlinked := h.record_quiet (.writev c.m_fd ret) rfl
  have hfail : ∀ e : Errno, Outcome c
      (if e = .EAGAIN ∨ e = .EWOULDBLOCK then (c.record [.writev c.m_fd ret], Exit.timeout)
        else ((c.record [.writev c.m_fd ret]).close, Exit.error)).1 peer
      (if e = .EAGAIN ∨ e = .EWOULDBLOCK then (c.record [.writev c.m_fd ret], Exit.timeout)
        else ((c.record [.writev c.m_fd ret]).close, Exit.error)).2 := by
    intro e
    by_cases hagain : e = .EAGAIN ∨ e = .EWOULDBLOCK
    · simp only [hagain, ite_true]
      exact Outcome.of_record (Outcome.unchanged hlinked (by decide))
    · simp only [hagain, ite_false]
      exact Outcome.of_record (Outcome.failed hlinked)
  simp only [writev, hvalid, ite_false]
  cases ret with
  | error e => exact hfail e
  | ok sent_bytes =>
      by_cases hzero : sent_bytes = 0
      · simp only [hzero, ite_true] at hfail ⊢
        exact hfail errno
      · simp only [hzero, ite_false]
        exact Outcome.of_record (Outcome.unchanged hlinked Exit.noConfusion)

theorem readv_outcome (h : c.Linked peer) {iov : Option (List (List UInt8))} {iovcnt : Int}
    (hiov : iov ≠ none) (hcnt : iovcnt ≠ 0) (ret : Answer (List UInt8)) :
    Outcome c (c.readv iov iovcnt ret).1 peer (c.readv iov iovcnt ret).2 := by
  have hvalid : ¬(c.m_fd < 0 ∨ iov = none ∨ iovcnt = 0) :=
    not_or.mpr ⟨h.not_neg, not_or.mpr ⟨hiov, hcnt⟩⟩
  have hlinked := h.record_quiet (.readv c.m_fd ret) rfl
  simp only [readv, hvalid, ite_false]
  cases ret with
  | error e =>
      by_cases hagain : e = .EAGAIN ∨ e = .EWOULDBLOCK
      · simp only [hagain, ite_true]
        exact Outcome.of_record (Outcome.unchanged hlinked (by decide))
      · simp only [hagain, ite_false]
        exact Outcome.of_record (Outcome.failed hlinked)
  | ok data =>
      by_cases hend : data = []
      · simp only [hend, ite_true] at hlinked ⊢
        exact Outcome.of_record (Outcome.failed hlinked)
      · simp only [hend, ite_false]
        exact Outcome.of_record (Outcome.unchanged hlinked Exit.noConfusion)

theorem set_timeout_spec (h : c.Wired link) (t rcvtimeo sndtimeo : Int) :
    (c.set_timeout t rcvtimeo sndtimeo).1.Wired link ∧
      (c.set_timeout t rcvtimeo sndtimeo).1.m_fd = c.m_fd ∧
      c.SameTarget (c.set_timeout t rcvtimeo sndtimeo).1 := by
  unfold set_timeout
  by_cases hfd : 0 ≤ c.m_fd
  · simp only [hfd, ite_true]
    let timed : TcpClient := { c with m_timeout := toInt64 (t * 1000000) }
    have htimed : timed.Wired link := h
    obtain ⟨hwired, hsame, htarget⟩ := set_socket_timeout_spec htimed rcvtimeo sndtimeo
    exact ⟨hwired, hsame, ⟨htarget.1, htarget.2, htarget.3, htarget.4⟩⟩
  · simp only [hfd, ite_false]
    exact ⟨h, trivial, ⟨rfl, rfl, rfl, rfl⟩⟩

theorem is_real_alive_spec (h : c.Wired link) (peek : Answer Nat) :
    (c.is_real_alive peek).1.Wired link ∧ (c.is_real_alive peek).1.m_fd = c.m_fd ∧
      c.SameTarget (c.is_real_alive peek).1 := by
  unfold is_real_alive
  by_cases hfd : c.m_fd < 0
  · simp only [hfd, ite_true]
    exact ⟨h, trivial, SameTarget.refl c⟩
  · simp only [hfd, ite_false]
    have hwired : (c.record [.peek c.m_fd]).Wired link := h.record_quiet rfl
    cases peek with
    | ok n => exact ⟨hwired, rfl, ⟨rfl, rfl, rfl, rfl⟩⟩
    | error e => exact ⟨hwired, rfl, ⟨rfl, rfl, rfl, rfl⟩⟩

-- The client keeps its descriptor and its target.
def Kept (c next : TcpClient) : Prop :=
  ∀ link, c.Wired link → next.Wired link ∧ next.m_fd = c.m_fd ∧ c.SameTarget next

theorem Kept.idle (hkept : c.Kept next) (h : c.Idle) : next.Idle := by
  obtain ⟨hwired, hfd, _⟩ := hkept none h.2
  exact ⟨hfd.trans h.1, hwired⟩

theorem Kept.linked (hkept : c.Kept next) (h : c.Linked peer) : next.Linked peer := by
  obtain ⟨hwired, hfd, _⟩ := hkept _ h.2
  unfold Linked
  rw [hfd]
  exact ⟨h.1, hwired⟩

theorem Kept.settled (hkept : c.Kept next) (h : c.Settled) : next.Settled := by
  rcases h with hidle | ⟨peer, hlinked⟩
  · exact .inl (hkept.idle hidle)
  · exact .inr ⟨peer, hkept.linked hlinked⟩

theorem set_timeout_kept (c : TcpClient) (t rcvtimeo sndtimeo : Int) :
    c.Kept (c.set_timeout t rcvtimeo sndtimeo).1 :=
  fun _ h => set_timeout_spec h t rcvtimeo sndtimeo

theorem is_real_alive_kept (c : TcpClient) (peek : Answer Nat) : c.Kept (c.is_real_alive peek).1 :=
  fun _ h => is_real_alive_spec h peek

-- The client when the loop tries an address.
def aimed (c : TcpClient) (rp : Resolved) : TcpClient := { c with m_ip := inet_ntop rp.addr }

theorem connect_first_cons (c : TcpClient) {rp : Resolved} (hntop : rp.ntop = true)
    (rest : List Resolved) :
    c.connect_first (rp :: rest) =
      if ((c.aimed rp).connect rp.answers).2 ≠ TC_ERROR then
        (((c.aimed rp).connect rp.answers).1, ((c.aimed rp).connect rp.answers).1.m_fd)
      else ((c.aimed rp).connect rp.answers).1.connect_first rest := by
  rw [connect_first, if_pos hntop]
  rfl

theorem connect_first_unprinted (c : TcpClient) {rp : Resolved} (hntop : rp.ntop = false)
    (rest : List Resolved) : c.connect_first (rp :: rest) = (c, TC_ERROR) := by
  simp only [connect_first, hntop, Bool.false_eq_true, ite_false]

-- The loop over the resolved addresses, on an unconnected client.
theorem connect_first_spec (h : c.Idle) (results : List Resolved) :
    (c.connect_first results).1.m_port = c.m_port ∧
      ((c.connect_first results).2 = TC_ERROR ∧ (c.connect_first results).1.Idle ∨
        (c.connect_first results).2 = (c.connect_first results).1.m_fd ∧
          0 ≤ c.m_port ∧ c.m_port ≤ 65535 ∧
          ∃ rp ∈ results, (c.connect_first results).1.m_ip = inet_ntop rp.addr ∧
            (c.connect_first results).1.Linked (rp.addr, BitVec.ofInt 16 c.m_port)) := by
  induction results generalizing c with
  | nil => exact ⟨rfl, .inl ⟨rfl, h⟩⟩
  | cons rp rest ih =>
      cases hntop : rp.ntop with
      | false =>
          rw [connect_first_unprinted c hntop]
          exact ⟨rfl, .inl ⟨rfl, h⟩⟩
      | true =>
          have haimed : (c.aimed rp).Idle := h
          obtain ⟨htarget, hcase⟩ := connect_spec haimed rp.answers
          have hport : ((c.aimed rp).connect rp.answers).1.m_port = c.m_port := htarget.m_port
          rw [connect_first_cons c hntop]
          rcases hcase with ⟨hret, hidle⟩ | ⟨hret, hlo, hhi, addr, haddr, hlinked⟩
          · rw [if_neg (not_not.mpr hret)]
            obtain ⟨hrest, hcase⟩ := ih hidle
            rw [hport] at hrest hcase
            refine ⟨hrest, ?_⟩
            rcases hcase with herror | ⟨hret, hlo, hhi, found, hmem, hlinked⟩
            · exact .inl herror
            · exact .inr ⟨hret, hlo, hhi, found, List.mem_cons_of_mem _ hmem, hlinked⟩
          · have hne : ((c.aimed rp).connect rp.answers).2 ≠ TC_ERROR := by
              have hpos := hlinked.1
              rw [hret, TC_ERROR]
              omega
            have hread : inet_pton (c.aimed rp).m_ip = some rp.addr := inet_pton_inet_ntop rp.addr
            obtain rfl := Option.some.inj (haddr.symm.trans hread)
            rw [if_pos hne]
            exact ⟨hport, .inr ⟨rfl, hlo, hhi, rp, by simp, htarget.m_ip, hlinked⟩⟩

-- On a connected client the loop stops at the first address, whatever it is.
theorem connect_first_of_linked (hfd : 0 ≤ c.m_fd) (results : List Resolved) :
    (c.connect_first results = (c, TC_ERROR) ∧
        ∀ rp rest, results = rp :: rest → rp.ntop = false) ∨
      ∃ rp rest, results = rp :: rest ∧ rp.ntop = true ∧
        c.connect_first results = ({ c with m_ip := inet_ntop rp.addr }, c.m_fd) := by
  cases results with
  | nil => exact .inl ⟨rfl, fun _ _ h => by cases h⟩
  | cons rp rest =>
      cases hntop : rp.ntop with
      | false =>
          refine .inl ⟨connect_first_unprinted c hntop rest, fun rp' rest' h => ?_⟩
          obtain ⟨rfl, _⟩ := List.cons.inj h
          exact hntop
      | true =>
          refine .inr ⟨rp, rest, rfl, hntop, ?_⟩
          have haimed : 0 ≤ (c.aimed rp).m_fd := hfd
          have hconnect : (c.aimed rp).connect rp.answers = (c.aimed rp, c.m_fd) :=
            connect_of_linked haimed rp.answers
          have hne : c.m_fd ≠ TC_ERROR := by
            rw [TC_ERROR]
            omega
          rw [connect_first_cons c hntop, hconnect]
          simp only [ne_eq, hne, not_false_eq_true, ite_true, aimed]

-- The checks of connect_host before it touches the object.
def Rejected (host port : List UInt8) : Prop :=
  host = [] ∨ port = [] ∨ BossCommon.is_all_digit port = false

theorem connect_host_rejected (h : Rejected c.m_str_host c.m_str_port)
    (results : Option (List Resolved)) : c.connect_host results = (c, TC_ERROR) :=
  if_pos h

theorem connect_host_out_of_bound (h : ¬Rejected c.m_str_host c.m_str_port)
    (hport : atoi c.m_str_port < 0 ∨ 65535 < atoi c.m_str_port) (results : Option (List Resolved)) :
    c.connect_host results = ({ c with m_port := atoi c.m_str_port }, TC_ERROR) :=
  (if_neg h).trans (if_pos hport)

-- The client as connect_host leaves it when it asks for the addresses.
def resolving (c : TcpClient) : TcpClient :=
  { c with m_port := atoi c.m_str_port }.record
    [.getaddrinfo (c_str c.m_str_host) (c_str c.m_str_port)]

theorem connect_host_resolved (h : ¬Rejected c.m_str_host c.m_str_port)
    (hport : ¬(atoi c.m_str_port < 0 ∨ 65535 < atoi c.m_str_port))
    (results : Option (List Resolved)) :
    c.connect_host results = match results with
      | none => (c.resolving, TC_ERROR)
      | some results => c.resolving.connect_first results :=
  (if_neg h).trans (if_neg hport)

theorem Wired.resolving (h : c.Wired link) : c.resolving.Wired link := h.record_quiet rfl

theorem connect_host_spec (h : c.Idle) (results : Option (List Resolved)) :
    (c.connect_host results).2 = TC_ERROR ∧ (c.connect_host results).1.Idle ∨
      (c.connect_host results).2 = (c.connect_host results).1.m_fd ∧
        (c.connect_host results).1.m_port = atoi c.m_str_port ∧
        0 ≤ atoi c.m_str_port ∧ atoi c.m_str_port ≤ 65535 ∧
        ∃ found rp, results = some found ∧ rp ∈ found ∧
          (c.connect_host results).1.m_ip = inet_ntop rp.addr ∧
          (c.connect_host results).1.Linked (rp.addr, BitVec.ofInt 16 (atoi c.m_str_port)) := by
  by_cases hrejected : Rejected c.m_str_host c.m_str_port
  · rw [connect_host_rejected hrejected]
    exact .inl ⟨rfl, h⟩
  by_cases hport : atoi c.m_str_port < 0 ∨ 65535 < atoi c.m_str_port
  · rw [connect_host_out_of_bound hrejected hport]
    exact .inl ⟨rfl, h⟩
  rw [connect_host_resolved hrejected hport]
  have hidle : c.resolving.Idle := ⟨h.1, h.2.resolving⟩
  cases results with
  | none => exact .inl ⟨rfl, hidle⟩
  | some found =>
      obtain ⟨hsame, herror | ⟨hret, hlo, hhi, rp, hmem, hip, hlinked⟩⟩ :=
        connect_first_spec hidle found
      · exact .inl herror
      · exact .inr ⟨hret, hsame, hlo, hhi, found, rp, rfl, hmem, hip, hlinked⟩

-- connect_host on a connected client rewrites the target and keeps the old connection.
theorem connect_host_of_linked (h : c.Linked peer) (results : Option (List Resolved)) :
    (c.connect_host results).1.Linked peer ∧
      (Rejected c.m_str_host c.m_str_port ∧ c.connect_host results = (c, TC_ERROR) ∨
        ¬Rejected c.m_str_host c.m_str_port ∧
          (c.connect_host results).1.m_port = atoi c.m_str_port ∧
          ((c.connect_host results).2 = TC_ERROR ∧ (c.connect_host results).1.m_ip = c.m_ip ∧
              (¬(0 ≤ atoi c.m_str_port ∧ atoi c.m_str_port ≤ 65535) ∨
                ∀ rp rest, results = some (rp :: rest) → rp.ntop = false) ∨
            (0 ≤ atoi c.m_str_port ∧ atoi c.m_str_port ≤ 65535) ∧
              ∃ rp rest, results = some (rp :: rest) ∧ rp.ntop = true ∧
                (c.connect_host results).1.m_ip = inet_ntop rp.addr)) := by
  by_cases hrejected : Rejected c.m_str_host c.m_str_port
  · rw [connect_host_rejected hrejected]
    exact ⟨h, .inl ⟨hrejected, rfl⟩⟩
  by_cases hport : atoi c.m_str_port < 0 ∨ 65535 < atoi c.m_str_port
  · rw [connect_host_out_of_bound hrejected hport]
    exact ⟨h, .inr ⟨hrejected, rfl, .inl ⟨rfl, rfl, .inl (by omega)⟩⟩⟩
  rw [connect_host_resolved hrejected hport]
  have hlinked : c.resolving.Linked peer := ⟨h.1, h.2.resolving⟩
  cases results with
  | none => exact ⟨hlinked, .inr ⟨hrejected, rfl, .inl ⟨rfl, rfl, .inr fun _ _ h => by cases h⟩⟩⟩
  | some found =>
      rcases connect_first_of_linked hlinked.1 found with
        ⟨hcall, hfail⟩ | ⟨rp, rest, rfl, hntop, hcall⟩
      · dsimp only
        rw [hcall]
        refine ⟨hlinked, .inr ⟨hrejected, rfl, .inl ⟨rfl, rfl, .inr fun rp rest hfound => ?_⟩⟩⟩
        exact hfail rp rest (Option.some.inj hfound)
      · dsimp only
        rw [hcall]
        refine ⟨hlinked, .inr ⟨hrejected, rfl, .inr ⟨?_, rp, rest, rfl, hntop, rfl⟩⟩⟩
        omega

end

end IgLibs.TcpClient
