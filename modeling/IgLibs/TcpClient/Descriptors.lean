import IgLibs.TcpClient.Theorems

namespace IgLibs.TcpClient

open Word CMemory CString

-- A client as either constructor makes it.
def Fresh (c : TcpClient) : Prop := c = new ∨ ∃ ip port timeout, c = of_ip ip port timeout

section

variable {c next final : TcpClient} {peer : Peer}

theorem Fresh.idle (h : c.Fresh) : c.Idle := by
  rcases h with rfl | ⟨ip, port, timeout, rfl⟩
  · exact ⟨rfl, rfl⟩
  · exact ⟨rfl, rfl⟩

theorem Idle.settled (h : c.Idle) : c.Settled := .inl h

theorem Linked.settled (h : c.Linked peer) : c.Settled := .inr ⟨peer, h⟩

theorem Outcome.settled {exit : Exit} (h : Outcome c next peer exit) : next.Settled := by
  by_cases hexit : exit = .error
  · exact (h.error hexit).settled
  · exact (h.other hexit).2.settled

theorem Settled.connect (h : c.Settled) (answers : ConnectAnswers) :
    (c.connect answers).1.Settled := by
  rcases h with hidle | ⟨peer, hlinked⟩
  · rcases (connect_spec hidle answers).2 with ⟨_, hnext⟩ | ⟨_, _, _, _, _, hnext⟩
    · exact hnext.settled
    · exact hnext.settled
  · rw [connect_of_linked hlinked.1]
    exact hlinked.settled

theorem Settled.connect_host (h : c.Settled) (results : Option (List Resolved)) :
    (c.connect_host results).1.Settled := by
  rcases h with hidle | ⟨peer, hlinked⟩
  · rcases connect_host_spec hidle results with ⟨_, hnext⟩ | ⟨_, _, _, _, _, _, _, _, _, hnext⟩
    · exact hnext.settled
    · exact hnext.settled
  · exact (connect_host_of_linked hlinked results).1.settled

theorem Settled.is_real_alive (h : c.Settled) (peek : Answer Nat) :
    (c.is_real_alive peek).1.Settled :=
  (is_real_alive_kept c peek).settled h

theorem Settled.reconnect (h : c.Settled) (peek : Answer Nat) (results : Option (List Resolved)) :
    (c.reconnect peek results).1.Settled := by
  have hchecked := h.is_real_alive peek
  unfold TcpClient.reconnect
  generalize c.is_real_alive peek = checked at *
  obtain ⟨tested, alive⟩ := checked
  cases alive with
  | false => exact hchecked.close.1.settled.connect_host results
  | true => exact hchecked

-- A data transfer is refused without effect, or runs on the open connection.
def Transferred (c next : TcpClient) : Prop :=
  next = c ∨ ∃ peer exit, c.Linked peer ∧ Outcome c next peer exit

theorem Transferred.settled (ht : c.Transferred next) (h : c.Settled) : next.Settled := by
  rcases ht with rfl | ⟨peer, exit, _, houtcome⟩
  · exact h
  · exact houtcome.settled

theorem Settled.linked_of_not_neg (h : c.Settled) (hfd : ¬c.m_fd < 0) : ∃ peer, c.Linked peer := by
  rcases h with hidle | hlinked
  · exact absurd (by rw [hidle.1]; decide) hfd
  · exact hlinked

theorem Settled.send (h : c.Settled) {buf : Option Span} {answers : List (Answer Nat)} {exit : Exit}
    (hcall : c.send buf answers = some (next, exit)) : c.Transferred next := by
  cases buf with
  | none =>
      cases hcall
      exact .inl rfl
  | some buf =>
      by_cases hinvalid : c.m_fd < 0 ∨ buf.len = 0
      · simp only [TcpClient.send, hinvalid, ite_true] at hcall
        cases hcall
        exact .inl rfl
      · obtain ⟨hfd, hlen⟩ := not_or.mp hinvalid
        obtain ⟨peer, hlinked⟩ := h.linked_of_not_neg hfd
        exact .inr ⟨peer, exit, hlinked, send_outcome hlinked hlen hcall⟩

theorem Settled.recv (h : c.Settled) {buf : Option Span} {answers : List (Answer (List UInt8))}
    {filled : List UInt8} {exit : Exit} (hcall : c.recv buf answers = some (next, filled, exit)) :
    c.Transferred next := by
  cases buf with
  | none =>
      cases hcall
      exact .inl rfl
  | some buf =>
      by_cases hinvalid : c.m_fd < 0 ∨ buf.len = 0
      · simp only [TcpClient.recv, hinvalid, ite_true] at hcall
        cases hcall
        exact .inl rfl
      · obtain ⟨hfd, hlen⟩ := not_or.mp hinvalid
        obtain ⟨peer, hlinked⟩ := h.linked_of_not_neg hfd
        exact .inr ⟨peer, exit, hlinked, recv_outcome hlinked hlen hcall⟩

theorem Settled.writev (h : c.Settled) (iov : Option (List (List UInt8))) (iovcnt : Int)
    (ret : Answer Nat) (errno : Errno) : c.Transferred (c.writev iov iovcnt ret errno).1 := by
  by_cases hinvalid : c.m_fd < 0 ∨ iov = none ∨ iovcnt = 0
  · simp only [TcpClient.writev, hinvalid, ite_true]
    exact .inl rfl
  · obtain ⟨hfd, hargs⟩ := not_or.mp hinvalid
    obtain ⟨hiov, hcnt⟩ := not_or.mp hargs
    obtain ⟨peer, hlinked⟩ := h.linked_of_not_neg hfd
    exact .inr ⟨peer, _, hlinked, writev_outcome hlinked hiov hcnt ret errno⟩

theorem Settled.readv (h : c.Settled) (iov : Option (List (List UInt8))) (iovcnt : Int)
    (ret : Answer (List UInt8)) : c.Transferred (c.readv iov iovcnt ret).1 := by
  by_cases hinvalid : c.m_fd < 0 ∨ iov = none ∨ iovcnt = 0
  · simp only [TcpClient.readv, hinvalid, ite_true]
    exact .inl rfl
  · obtain ⟨hfd, hargs⟩ := not_or.mp hinvalid
    obtain ⟨hiov, hcnt⟩ := not_or.mp hargs
    obtain ⟨peer, hlinked⟩ := h.linked_of_not_neg hfd
    exact .inr ⟨peer, _, hlinked, readv_outcome hlinked hiov hcnt ret⟩

-- Every public operation leaves the client with no descriptor or a connected one.
theorem Settled.step (h : c.Settled) {op : Op} (hstep : c.step op = some next) : next.Settled := by
  cases op with
  | connect answers => exact Option.some.inj hstep ▸ h.connect answers
  | connect_to host port results =>
      let named : TcpClient := { c with m_str_host := host, m_str_port := port }
      have hnamed : named.Settled := h
      exact Option.some.inj hstep ▸ hnamed.connect_host results
  | reconnect peek results => exact Option.some.inj hstep ▸ h.reconnect peek results
  | close => exact Option.some.inj hstep ▸ h.close.1.settled
  | send buf answers =>
      obtain ⟨⟨other, exit⟩, hcall, rfl⟩ := Option.map_eq_some_iff.mp hstep
      exact (h.send hcall).settled h
  | recv buf answers =>
      obtain ⟨⟨other, filled, exit⟩, hcall, rfl⟩ := Option.map_eq_some_iff.mp hstep
      exact (h.recv hcall).settled h
  | writev iov iovcnt ret errno => exact Option.some.inj hstep ▸ (h.writev iov iovcnt ret errno).settled h
  | readv iov iovcnt ret => exact Option.some.inj hstep ▸ (h.readv iov iovcnt ret).settled h
  | set_timeout t rcvtimeo sndtimeo =>
      exact Option.some.inj hstep ▸ (set_timeout_kept c t rcvtimeo sndtimeo).settled h
  | is_real_alive peek => exact Option.some.inj hstep ▸ h.is_real_alive peek

theorem Settled.exec (h : c.Settled) {ops : List Op}
    (hrun : Machine.exec TcpClient.step c ops = some final) : final.Settled :=
  Machine.exec_invariant Settled (fun _ _ _ h hstep => h.step hstep) h hrun

end

-- A socket(2) call that returned this descriptor.
def opens (fd : Int) : Syscall → Bool
  | .socket (some n) => (n : Int) = fd
  | _ => false

def closes (fd : Int) : Syscall → Bool
  | .close n => n = fd
  | _ => false

def opened (calls : List Syscall) (fd : Int) : Nat := calls.countP (opens fd)

def closed (calls : List Syscall) (fd : Int) : Nat := calls.countP (closes fd)

def Link.count (fd : Int) : Option Link → Nat
  | some link => if link.fd = fd then 1 else 0
  | none => 0

section

variable {link link' : Option Link} {calls : List Syscall} {c next final : TcpClient} {peer : Peer}

@[simp] theorem Link.count_none (fd : Int) : Link.count fd none = 0 := rfl

theorem Link.count_le_one (link : Option Link) (fd : Int) : Link.count fd link ≤ 1 := by
  cases link with
  | none => exact Nat.zero_le _
  | some l =>
      by_cases hfd : l.fd = fd
      · simp [Link.count, hfd]
      · simp [Link.count, hfd]

theorem Link.step_count {call : Syscall} (hstep : Link.step link call = some link') (fd : Int) :
    Link.count fd link + (opens fd call).toNat = (closes fd call).toNat + Link.count fd link' := by
  cases call with
  | socket ret =>
      cases ret with
      | none =>
          cases hstep
          simp [opens, closes]
      | some n =>
          simp only [Link.step, Option.ite_none_right_eq_some, Option.some.injEq] at hstep
          obtain ⟨rfl, rfl⟩ := hstep
          by_cases hfd : (n : Int) = fd
          · simp [Link.count, opens, closes, hfd]
          · simp [Link.count, opens, closes, hfd]
  | connect n addr port ret =>
      cases link with
      | none => cases hstep
      | some l =>
          simp only [Link.step, Option.ite_none_right_eq_some, Option.some.injEq] at hstep
          obtain ⟨rfl, rfl⟩ := hstep
          simp [Link.count, opens, closes]
  | close n =>
      cases link with
      | none => cases hstep
      | some l =>
          simp only [Link.step, Option.ite_none_right_eq_some, Option.some.injEq] at hstep
          obtain ⟨rfl, rfl⟩ := hstep
          by_cases hfd : l.fd = fd
          · simp [Link.count, opens, closes, hfd]
          · simp [Link.count, opens, closes, hfd]
  | _ =>
      cases hstep
      simp [opens, closes]

-- The descriptors opened are those closed and the one still open.
theorem Link.exec_count (hrun : Machine.exec Link.step link calls = some link') (fd : Int) :
    Link.count fd link + opened calls fd = closed calls fd + Link.count fd link' := by
  induction calls generalizing link with
  | nil =>
      obtain rfl := Option.some.inj hrun
      simp [opened, closed]
  | cons call rest ih =>
      obtain ⟨middle, hstep, hrest⟩ := Machine.exec_cons_eq_some.mp hrun
      have hhead := Link.step_count hstep fd
      have htail := ih hrest
      unfold opened closed at htail ⊢
      rw [List.countP_cons, List.countP_cons]
      cases hopen : opens fd call <;> cases hclose : closes fd call <;>
        simp only [hopen, hclose, Bool.toNat_true, Bool.toNat_false, Bool.false_eq_true, ite_true,
          ite_false] at hhead ⊢ <;> omega

theorem Settled.count (h : c.Settled) (fd : Int) :
    ∃ link, c.Wired link ∧ Link.count fd link = if c.m_fd = fd ∧ 0 ≤ fd then 1 else 0 := by
  rcases h with ⟨hfd, hwired⟩ | ⟨peer, hfd, hwired⟩
  · refine ⟨none, hwired, ?_⟩
    have hno : ¬(c.m_fd = fd ∧ 0 ≤ fd) := by omega
    rw [if_neg hno]
    rfl
  · refine ⟨_, hwired, ?_⟩
    by_cases he : c.m_fd = fd
    · subst he
      simp [Link.count, hfd]
    · simp [Link.count, he]

theorem Settled.balance (h : c.Settled) (fd : Int) :
    opened c.calls fd = closed c.calls fd + if c.m_fd = fd ∧ 0 ≤ fd then 1 else 0 := by
  obtain ⟨link, hwired, hlink⟩ := h.count fd
  have hcount := Link.exec_count hwired fd
  rw [Link.count_none, hlink] at hcount
  omega

theorem Settled.prefix_balance (h : c.Settled) (calls : List Syscall) (hcalls : calls <+: c.calls)
    (fd : Int) : closed calls fd ≤ opened calls fd ∧ opened calls fd ≤ closed calls fd + 1 := by
  obtain ⟨rest, hcalls⟩ := hcalls
  obtain ⟨link, hwired, _⟩ := h.count fd
  unfold Wired at hwired
  rw [← hcalls] at hwired
  obtain ⟨middle, hfirst, _⟩ := Machine.exec_append_eq_some.mp hwired
  have hcount := Link.exec_count hfirst fd
  have hle := Link.count_le_one middle fd
  rw [Link.count_none] at hcount
  omega

-- How a call with valid arguments leaves the descriptor.
def Left (c next : TcpClient) (exit : Exit) : Prop :=
  (exit = .error → next.m_fd = -1) ∧ (exit ≠ .error → next.m_fd = c.m_fd) ∧
    (next.is_alive = false ↔ exit = .error)

theorem Outcome.left {exit : Exit} (hfd : 0 ≤ c.m_fd) (h : Outcome c next peer exit) :
    Left c next exit := by
  refine ⟨fun hexit => (h.error hexit).1, fun hexit => (h.other hexit).1, ?_⟩
  by_cases hexit : exit = .error
  · simp [is_alive, (h.error hexit).1, hexit]
  · have hsame := (h.other hexit).1
    have hpos : ¬next.m_fd < 0 := by omega
    simp [is_alive, hpos, hexit]

end

-- Every descriptor is closed once and no other one is; at most the current one is open.
theorem descriptors_closed_once (start : TcpClient) (hstart : start.Fresh) (ops : List Op)
    (final : TcpClient) (hrun : Machine.exec step start ops = some final) :
    (∀ calls, calls <+: final.calls → ∀ fd,
        closed calls fd ≤ opened calls fd ∧ opened calls fd ≤ closed calls fd + 1) ∧
      (∀ fd, opened final.calls fd =
        closed final.calls fd + if final.m_fd = fd ∧ 0 ≤ fd then 1 else 0) ∧
      (∀ fd, opened final.destroy.calls fd = closed final.destroy.calls fd) ∧
      (0 ≤ final.m_fd →
        (∀ buf answers next exit, buf.len ≠ 0 → final.send (some buf) answers = some (next, exit) →
          Left final next exit) ∧
        (∀ buf answers next filled exit, buf.len ≠ 0 →
          final.recv (some buf) answers = some (next, filled, exit) → Left final next exit) ∧
        (∀ iov iovcnt ret errno, iov ≠ none → iovcnt ≠ 0 →
          Left final (final.writev iov iovcnt ret errno).1 (final.writev iov iovcnt ret errno).2) ∧
        ∀ iov iovcnt ret, iov ≠ none → iovcnt ≠ 0 →
          Left final (final.readv iov iovcnt ret).1 (final.readv iov iovcnt ret).2) := by
  have hsettled := hstart.idle.settled.exec hrun
  refine ⟨hsettled.prefix_balance, hsettled.balance, ?_, ?_⟩
  · intro fd
    have hcount := Link.exec_count hsettled.close.1.2 fd
    rw [Link.count_none] at hcount
    unfold destroy
    omega
  · intro hfd
    rcases hsettled with hidle | ⟨peer, hlinked⟩
    · exact absurd hfd (by rw [hidle.1]; decide)
    · refine ⟨?_, ?_, ?_, ?_⟩
      · intro buf answers next exit hlen hcall
        exact (send_outcome hlinked hlen hcall).left hfd
      · intro buf answers next filled exit hlen hcall
        exact (recv_outcome hlinked hlen hcall).left hfd
      · intro iov iovcnt ret errno hiov hcnt
        exact (writev_outcome hlinked hiov hcnt ret errno).left hfd
      · intro iov iovcnt ret hiov hcnt
        exact (readv_outcome hlinked hiov hcnt ret).left hfd

-- The first address refuses the connection, the second one takes it, and the peer resets it.
theorem descriptors_closed_once_reconnect :
    let ops : List Op :=
      [.connect_to [97] [56, 48] (some
          [⟨⟨10, 0, 0, 1⟩, true, ⟨some 3, 0, 0, -1⟩⟩, ⟨⟨10, 0, 0, 2⟩, true, ⟨some 3, 0, 0, 0⟩⟩]),
        .readv (some [[0]]) 1 (.error .other)]
    ∃ final, Machine.exec step new ops = some final ∧
      ∀ fd, opened final.destroy.calls fd = closed final.destroy.calls fd := by
  intro ops
  refine ⟨_, rfl, ?_⟩
  exact (descriptors_closed_once new (.inl rfl) ops _ rfl).2.2.1

end IgLibs.TcpClient
