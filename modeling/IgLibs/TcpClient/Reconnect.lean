import IgLibs.TcpClient.Attempts
import IgLibs.TcpClient.Descriptors

namespace IgLibs.TcpClient

open CString

-- What a connection was made to: an address, or whatever a host resolves to.
inductive Target
  | by_ip (addr : InAddr) (port : BitVec 16)
  | by_host (host : List UInt8) (port : BitVec 16)
deriving DecidableEq

def Target.port : Target → BitVec 16
  | .by_ip _ port => port
  | .by_host _ port => port

-- A client, with the target of its last successful connection.
structure History where
  client : TcpClient
  target : Option Target
deriving DecidableEq

-- The connect(2) calls that succeeded.
def succeeded (calls : List Syscall) : List Peer :=
  calls.filterMap fun
    | .connect _ addr port ret => if ret = 0 then some (addr, port) else none
    | _ => none

-- How the operation that made a connection names its target.
def named (c : TcpClient) (peer : Peer) : Op → Target
  | .connect_to host _ _ => .by_host (c_str host) peer.2
  | .reconnect _ _ => .by_host (c_str c.m_str_host) peer.2
  | _ => .by_ip peer.1 peer.2

def History.step (h : History) (op : Op) : Option History := do
  let next ← h.client.step op
  match (succeeded (next.calls.drop h.client.calls.length)).getLast? with
  | some peer => some ⟨next, some (named h.client peer op)⟩
  | none => some ⟨next, h.target⟩

-- The arguments of the last connect(host, port).
def store (stored : List UInt8 × List UInt8) : Op → List UInt8 × List UInt8
  | .connect_to host port _ => (host, port)
  | _ => stored

def last_stored (ops : List Op) : List UInt8 × List UInt8 := ops.foldl store ([], [])

-- Some of the calls try the target again.
def Retried (later : List Syscall) : Target → Prop
  | .by_ip addr port => .connect addr port ∈ attempts later
  | .by_host host port =>
      .resolve host ∈ attempts later ∧ ∃ addr, .connect addr port ∈ attempts later

-- A host and a port that connect_host takes for the target.
def Denotes (stored : List UInt8 × List UInt8) (t : Target) : Prop :=
  Admitted stored.1 stored.2 ∧ BitVec.ofInt 16 (atoi stored.2) = t.port ∧
    ∀ host port, t = .by_host host port → c_str stored.1 = host

-- The target is among the addresses that are tried.
def Among (addrs : List InAddr) : Target → Prop
  | .by_ip addr _ => addr ∈ addrs
  | .by_host _ _ => addrs ≠ []

section

variable {c next : TcpClient} {h final : History} {ops : List Op}

theorem History.step_client {op : Op} (hstep : h.step op = some final) :
    h.client.step op = some final.client := by
  obtain ⟨next, hnext, hrest⟩ := Option.bind_eq_some_iff.mp hstep
  split at hrest <;> cases hrest <;> exact hnext

theorem step_stored {op : Op} (hstep : c.step op = some next) :
    (next.m_str_host, next.m_str_port) = store (c.m_str_host, c.m_str_port) op := by
  rw [Changes.stored_eq (step_changes hstep)]
  cases op <;> rfl

theorem History.exec_stored (hrun : Machine.exec History.step h ops = some final) :
    (final.client.m_str_host, final.client.m_str_port) =
      ops.foldl store (h.client.m_str_host, h.client.m_str_port) := by
  induction ops generalizing h with
  | nil => rw [← Option.some.inj hrun]; rfl
  | cons op rest ih =>
      obtain ⟨middle, hmiddle, hrest⟩ := Machine.exec_cons_eq_some.mp hrun
      rw [ih hrest, step_stored (step_client hmiddle)]
      rfl

theorem Fresh.stored_eq (hstart : c.Fresh) : (c.m_str_host, c.m_str_port) = ([], []) := by
  rcases hstart with rfl | ⟨ip, port, timeout, rfl⟩ <;> rfl

-- On a dead socket reconnect closes the socket and runs connect_host.
theorem reconnect_attempted {peek : Answer Nat} (hdead : (c.is_real_alive peek).2 = false)
    (results : Option (List Resolved)) :
    Attempted c (c.reconnect peek results).1
      (if Admitted c.m_str_host c.m_str_port then
        .resolve (c_str c.m_str_host) ::
          (tried (results.getD [])).map fun addr => .connect addr (BitVec.ofInt 16 (atoi c.m_str_port))
      else []) := by
  have hcall : (c.reconnect peek results).1 =
      ((c.is_real_alive peek).1.close.connect_host results).1 := by
    unfold reconnect
    generalize c.is_real_alive peek = checked at *
    obtain ⟨tested, alive⟩ := checked
    obtain rfl : alive = false := hdead
    rfl
  have hpeek : Attempted c (c.is_real_alive peek).1 [] := by
    unfold is_real_alive
    by_cases hfd : c.m_fd < 0
    · simp only [hfd, ite_true]
      exact .of_calls rfl
    · simp only [hfd, ite_false]
      cases peek <;> exact ⟨_, rfl, rfl⟩
  have hhost := connect_host_attempted (close_m_fd_neg (c.is_real_alive peek).1) results
  have hstored := Changes.stored_eq ((c.changes_is_real_alive peek).trans (changes_close _))
  rw [(Prod.mk.inj hstored).1, (Prod.mk.inj hstored).2] at hhost
  rw [hcall]
  exact (hpeek.trans (attempted_close _)).trans hhost

theorem retried_iff {later : List Syscall} {stored : List UInt8 × List UInt8} {addrs : List InAddr}
    (hlater : attempts later = if Admitted stored.1 stored.2 then
        .resolve (c_str stored.1) :: addrs.map fun addr =>
          .connect addr (BitVec.ofInt 16 (atoi stored.2))
      else []) (t : Target) :
    Retried later t ↔ Denotes stored t ∧ Among addrs t := by
  by_cases hadmitted : Admitted stored.1 stored.2
  · rw [if_pos hadmitted] at hlater
    have hconnect (addr : InAddr) (port : BitVec 16) : .connect addr port ∈ attempts later ↔
        addr ∈ addrs ∧ BitVec.ofInt 16 (atoi stored.2) = port := by
      rw [hlater]
      simp
    cases t with
    | by_ip addr port =>
        rw [Retried, hconnect]
        constructor
        · exact fun ⟨hmem, hport⟩ => ⟨⟨hadmitted, hport, fun _ _ heq => by cases heq⟩, hmem⟩
        · exact fun ⟨hdenotes, hmem⟩ => ⟨hmem, hdenotes.2.1⟩
    | by_host host port =>
        have hresolve : .resolve host ∈ attempts later ↔ c_str stored.1 = host := by
          rw [hlater]
          simp [eq_comm]
        simp only [Retried, hresolve, hconnect]
        constructor
        · rintro ⟨hhost, addr, hmem, hport⟩
          refine ⟨⟨hadmitted, hport, fun _ _ heq => ?_⟩, List.ne_nil_of_mem hmem⟩
          cases heq
          exact hhost
        · rintro ⟨⟨-, hport, hhost⟩, hne⟩
          obtain ⟨addr, hmem⟩ := List.exists_mem_of_ne_nil _ hne
          exact ⟨hhost host port rfl, addr, hmem, hport⟩
  · rw [if_neg hadmitted] at hlater
    have hnot : ¬Denotes stored t := fun hd => hadmitted hd.1
    cases t with
    | by_ip addr port => simp [Retried, hlater, hnot]
    | by_host host port => simp [Retried, hlater, hnot]

end

-- A client that has been connected retries the lost target exactly when the last
-- connect(host, port) of its history stored it. Then some address must be tried, and for a
-- target given by its address that very one.
theorem reconnect_retries_iff {start : TcpClient} (hstart : start.Fresh) {ops : List Op}
    {h : History} (hrun : Machine.exec History.step ⟨start, none⟩ ops = some h)
    {peek : Answer Nat} (hdead : (h.client.is_real_alive peek).2 = false)
    (results : Option (List Resolved)) :
    ∀ t ∈ h.target,
      (∃ later, (h.client.reconnect peek results).1.calls = h.client.calls ++ later ∧
          Retried later t) ↔
        Denotes (last_stored ops) t ∧ Among (tried (results.getD [])) t := by
  intro t _
  have hstored : (h.client.m_str_host, h.client.m_str_port) = last_stored ops := by
    rw [History.exec_stored hrun, hstart.stored_eq]
    rfl
  obtain ⟨later, hcalls, hattempts⟩ := reconnect_attempted hdead results
  rw [← hstored, ← @retried_iff _ (_, _) _ hattempts t]
  constructor
  · rintro ⟨later', hcalls', hretried⟩
    rwa [List.append_cancel_left (hcalls.symm.trans hcalls')]
  · exact fun hretried => ⟨later, hcalls, hretried⟩

-- A client that was connected by host is connected again.
theorem reconnect_retries_iff_by_host :
    ∃ h t, Machine.exec History.step ⟨new, none⟩ [.connect_to [104] [56, 48] (some [accepting])] =
        some h ∧ t ∈ h.target ∧
      ∃ later, (h.client.reconnect (.ok 0) (some [accepting])).1.calls = h.client.calls ++ later ∧
        Retried later t := by
  have hend : (Machine.exec History.step ⟨new, none⟩
      [.connect_to [104] [56, 48] (some [accepting])]).map
        (fun h => (h.target, (h.client.is_real_alive (.ok 0)).2)) =
      some (some (.by_host [104] 80), false) := by decide
  obtain ⟨h, hrun, hseen⟩ := Option.map_eq_some_iff.mp hend
  obtain ⟨htarget, hdead⟩ := Prod.mk.inj hseen
  refine ⟨h, _, hrun, htarget, ?_⟩
  refine (reconnect_retries_iff (.inl rfl) hrun hdead (some [accepting]) _ htarget).mpr ?_
  refine ⟨⟨by decide, by decide, ?_⟩, List.cons_ne_nil _ _⟩
  intro host port heq
  cases heq
  rfl

-- A client made from an address is connected by connect(), and given up when the peer closes.
theorem reconnect_gives_up :
    ∃ h, Machine.exec History.step ⟨of_ip (inet_ntop ⟨127, 0, 0, 1⟩) 80 3000000, none⟩
        [.connect ⟨some 3, 0, 0, 0⟩] = some h ∧
      h.target = some (.by_ip ⟨127, 0, 0, 1⟩ 80) ∧ (h.client.is_real_alive (.ok 0)).2 = false ∧
      ∀ results, (h.client.reconnect (.ok 0) results).1.calls =
        h.client.calls ++ [.peek 3, .shutdown 3, .close 3] := by
  refine ⟨_, rfl, ?_, ?_, fun results => rfl⟩ <;> decide

end IgLibs.TcpClient
