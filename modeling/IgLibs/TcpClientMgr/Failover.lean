import IgLibs.TcpClientMgr.Connections

namespace IgLibs.TcpClientMgr

open Word

-- Arguments that no connection rejects by themselves.
def Transfer.Valid : Transfer → Prop
  | .send buf _ => ∃ span, buf = some span ∧ span.len ≠ 0
  | .recv buf _ => ∃ span, buf = some span ∧ span.len ≠ 0
  | .writev iov iovcnt _ _ => iov ≠ none ∧ iovcnt ≠ 0
  | .readv iov iovcnt _ => iov ≠ none ∧ iovcnt ≠ 0

-- One transfer after another, with what each of them returns.
def transfers (m : TcpClientMgr) : List Transfer → Option (TcpClientMgr × List Passed)
  | [] => some (m, [])
  | t :: rest => (m.transfer t).bind fun first =>
      (first.1.transfers rest).map fun later => (later.1, first.2.2 :: later.2)

def alive_count (m : TcpClientMgr) : Nat := m.m_connections.countP TcpClient.is_alive

-- The rotation does not wrap unevenly within so many selections, and the ids fit an int.
structure Rotates (m : TcpClientMgr) (calls : Nat) : Prop where
  fits : m.m_connections.length ≤ 2 ^ 31
  even : m.m_conn_index.toNat + calls * m.m_connections.length ≤ 2 ^ 32 ∨
    m.m_connections.length ∣ 2 ^ 32

section

variable {m next final : TcpClientMgr} {c c' : TcpClient} {t : Transfer} {filled : List UInt8}
  {exit : TcpClient.Exit} {passed : Passed} {calls : Nat}

theorem Transfer.run_left (hc : c.Settled) (hfd : c.is_alive = true) (ht : t.Valid)
    (hrun : t.run c = some (c', filled, exit)) : c'.is_alive = true ↔ exit ≠ .error := by
  have hopen : ¬c.m_fd < 0 := by
    intro hneg
    rw [TcpClient.is_alive, if_pos hneg] at hfd
    cases hfd
  obtain ⟨peer, hlinked⟩ := hc.linked_of_not_neg hopen
  have houtcome : TcpClient.Outcome c c' peer exit := by
    cases t with
    | send buf answers =>
        obtain ⟨span, rfl, hlen⟩ := ht
        obtain ⟨result, hcall, heq⟩ := Option.map_eq_some_iff.mp hrun
        cases heq
        exact TcpClient.send_outcome hlinked hlen hcall
    | recv buf answers =>
        obtain ⟨span, rfl, hlen⟩ := ht
        exact TcpClient.recv_outcome hlinked hlen hrun
    | writev iov iovcnt ret errno =>
        cases hrun
        exact TcpClient.writev_outcome hlinked ht.1 ht.2 ret errno
    | readv iov iovcnt ret =>
        cases hrun
        exact TcpClient.readv_outcome hlinked ht.1 ht.2 ret
  have hdead := (houtcome.left hlinked.1).2.2
  rw [ne_eq, ← hdead, Bool.not_eq_false]

theorem m_conn_count_eq_zero (hn : ¬0 < m.m_connections.length) : m.m_conn_count = 0 := by
  apply BitVec.eq_of_toNat_eq
  rw [m.counted]
  exact Nat.eq_zero_of_not_pos hn

theorem find_alive_index (m : TcpClientMgr) (rounds : Nat) :
    ∃ tested ≤ rounds, (m.find_alive rounds).1.m_conn_index =
      m.m_conn_index + BitVec.ofNat 32 tested := by
  induction rounds generalizing m with
  | zero => exact ⟨0, Nat.le_refl 0, (BitVec.add_zero _).symm⟩
  | succ rounds ih =>
      rw [find_alive]
      split_ifs
      · exact ⟨1, by omega, rfl⟩
      · obtain ⟨tested, hle, hindex⟩ :=
          @ih { m with m_conn_index := m.m_conn_index + 1 }
        refine ⟨tested + 1, by omega, ?_⟩
        rw [hindex, BitVec.add_assoc]
        congr 1
        rw [BitVec.ofNat_add, BitVec.add_comm]
        rfl

-- A selection moves the index on by as many connections as it has tested.
theorem select_connection_index (m : TcpClientMgr) :
    m.select_connection.1.m_conn_index.toNat ≤ m.m_conn_index.toNat + m.m_connections.length := by
  have hcounted := m.counted
  obtain ⟨tested, hle, hindex⟩ := m.find_alive_index m.m_conn_count.toNat
  have hmove : (m.find_alive m.m_conn_count.toNat).1.m_conn_index.toNat ≤
      m.m_conn_index.toNat + m.m_connections.length := by
    rw [hindex, BitVec.toNat_add, BitVec.toNat_ofNat]
    have hsum := Nat.mod_le (m.m_conn_index.toNat + tested % 2 ^ 32) (2 ^ 32)
    have htested := Nat.mod_le tested (2 ^ 32)
    omega
  by_cases hn : 0 < m.m_connections.length
  · rw [(select_connection_eq hn).1]
    exact hmove
  · rw [select_connection, if_pos (m_conn_count_eq_zero hn)]
    exact Nat.le_add_right _ _

theorem Rotates.later (h : m.Rotates (calls + 1))
    (hlen : next.m_connections.length = m.m_connections.length)
    (hindex : next.m_conn_index.toNat ≤ m.m_conn_index.toNat + m.m_connections.length) :
    next.Rotates calls := by
  refine ⟨hlen ▸ h.fits, ?_⟩
  rw [hlen]
  rcases h.even with hroom | hdvd
  · rw [Nat.succ_mul] at hroom
    exact .inl (by omega)
  · exact .inr hdvd

theorem Rotates.selects (h : m.Rotates (calls + 1)) (hn : 0 < m.m_connections.length) :
    m.Selects := by
  have hcounted := m.counted
  have heven : m.m_conn_index.toNat + m.m_conn_count.toNat ≤ 2 ^ 32 ∨
      m.m_conn_count.toNat ∣ 2 ^ 32 := by
    rw [hcounted]
    rcases h.even with hroom | hdvd
    · rw [Nat.succ_mul] at hroom
      exact .inl (by omega)
    · exact .inr hdvd
  apply (selects_iff_inReach hn).mpr
  apply inReach_of_covers h.fits
  exact fun k hk => RoundRobin.covers (by omega) heven hk

-- With nothing alive the transfer is lost; else it runs on an alive connection, which is closed
-- exactly if the transfer fails, and the other connections are left alone.
theorem transfer_cases (hm : ∀ c ∈ m.m_connections, c.Settled) (hrotates : m.Rotates (calls + 1))
    (ht : t.Valid) (hcall : m.transfer t = some (next, filled, passed)) :
    next.m_conn_index.toNat ≤ m.m_conn_index.toNat + m.m_connections.length ∧
      ((∀ k, ¬m.Alive k) ∧ passed = .lost ∧ next.m_connections = m.m_connections ∨
        ∃ k c c' exit, m.m_connections[k]? = some c ∧ c.is_alive = true ∧
          t.run c = some (c', filled, exit) ∧ passed = .returned exit ∧
          next.m_connections = m.m_connections.set k c' ∧ (c'.is_alive = true ↔ exit ≠ .error)) := by
  have hindex := m.select_connection_index
  have hsame := m.select_connection_connections
  unfold transfer at hcall
  by_cases hn : 0 < m.m_connections.length
  · have hselects := hrotates.selects hn
    by_cases hlost : m.select_connection.2 = -1
    · rw [hlost, if_pos (by decide)] at hcall
      cases hcall
      exact ⟨hindex, .inl ⟨hselects.lost.mp hlost, rfl, hsame⟩⟩
    · obtain ⟨k, hk, hlt, c, hc, halive⟩ := hselects.alive hlost
      have hfits := hrotates.fits
      have hid : (BitVec.ofInt 32 (k : Int)).toNat = k := by
        rw [BitVec.toNat_ofInt]
        omega
      rw [hk, if_neg (by omega), transfer_on, hid, hsame, hc] at hcall
      obtain ⟨⟨c', rest, exit⟩, hrun, heq⟩ := Option.map_eq_some_iff.mp hcall
      cases heq
      refine ⟨hindex, .inr ⟨k, c, c', exit, hc, halive, hrun, rfl, ?_, ?_⟩⟩
      · exact congrArg (fun l : List TcpClient => l.set k c') hsame
      · exact Transfer.run_left (hm c (List.mem_of_getElem? hc)) halive ht hrun
  · have hselect : m.select_connection = (m, -1) := by
      rw [select_connection, if_pos (m_conn_count_eq_zero hn)]
    rw [hselect, if_pos (show (-1 : Int) < 0 by decide)] at hcall
    cases hcall
    refine ⟨Nat.le_add_right _ _, .inl ⟨fun k hk => ?_, rfl, rfl⟩⟩
    have hlt := hk.lt
    omega

theorem alive_count_eq_zero : m.alive_count = 0 ↔ ∀ k, ¬m.Alive k := by
  rw [alive_count, List.countP_eq_zero]
  constructor
  · rintro hdead k ⟨c, hc, halive⟩
    exact hdead c (List.mem_of_getElem? hc) halive
  · intro hdead c hmem halive
    obtain ⟨k, hk⟩ := List.mem_iff_getElem?.mp hmem
    exact hdead k ⟨c, hk, halive⟩

-- The alive connections after one is replaced.
theorem alive_count_set {k : Nat} (hc : m.m_connections[k]? = some c) (halive : c.is_alive = true)
    (hnext : next.m_connections = m.m_connections.set k c') :
    m.alive_count = next.alive_count + if c'.is_alive = true then 0 else 1 := by
  obtain ⟨hk, hget⟩ := List.getElem?_eq_some_iff.mp hc
  have hpos : 0 < m.m_connections.countP TcpClient.is_alive :=
    List.countP_pos_iff.mpr ⟨c, List.mem_of_getElem? hc, halive⟩
  unfold alive_count
  rw [hnext, List.countP_set hk, hget, if_pos halive]
  split_ifs <;> omega

theorem transfer_settled (hm : ∀ c ∈ m.m_connections, c.Settled)
    (hcall : m.transfer t = some (next, filled, passed)) : ∀ c ∈ next.m_connections, c.Settled :=
  forall_of_forall₂ (transfer_used (fun _ _ => trivial) hcall)
    (fun _ _ hc (hused : Used (fun _ => True) _ _) => hused.settled hc) hm

-- Each transfer that fails costs one connection, and none is lost while one is alive.
theorem transfers_spec {ts : List Transfer} {results : List Passed}
    (hm : ∀ c ∈ m.m_connections, c.Settled) (hrotates : m.Rotates ts.length)
    (hvalid : ∀ t ∈ ts, t.Valid) (hrun : m.transfers ts = some (final, results)) :
    m.alive_count = final.alive_count + results.count (.returned .error) ∧
      ∃ served lost, results = served ++ List.replicate lost .lost ∧
        (∀ passed ∈ served, ∃ exit, passed = .returned exit) ∧
        (served = [] ∨ 0 < m.alive_count) ∧ (0 < lost → final.alive_count = 0) := by
  induction ts generalizing m results with
  | nil =>
      cases hrun
      exact ⟨rfl, [], 0, rfl, List.forall_mem_nil _, .inl rfl, fun h => absurd h (Nat.lt_irrefl 0)⟩
  | cons t rest ih =>
      rw [List.forall_mem_cons] at hvalid
      obtain ⟨⟨next, filled, passed⟩, hcall, hlater⟩ := Option.bind_eq_some_iff.mp hrun
      obtain ⟨⟨last, others⟩, hrest, heq⟩ := Option.map_eq_some_iff.mp hlater
      dsimp only at hrest heq
      obtain ⟨rfl, rfl⟩ := Prod.mk.inj heq
      obtain ⟨hindex, hcase⟩ := transfer_cases hm hrotates hvalid.1 hcall
      have hsettled := transfer_settled hm hcall
      rcases hcase with ⟨hdead, rfl, hsame⟩ | ⟨k, c, c', exit, hc, halive, -, rfl, hset, hleft⟩
      · have hcount : next.alive_count = 0 := by
          rw [alive_count, hsame]
          exact alive_count_eq_zero.mpr hdead
        obtain ⟨hsum, served, lost, rfl, -, hserved, -⟩ :=
          ih hsettled (hrotates.later (by rw [hsame]) hindex) hvalid.2 hrest
        obtain rfl : served = [] := hserved.resolve_right (by omega)
        have hzero := alive_count_eq_zero.mpr hdead
        refine ⟨?_, [], lost + 1, by rw [List.replicate_succ]; rfl, List.forall_mem_nil _, .inl rfl,
          fun _ => by omega⟩
        rw [List.count_cons_of_ne (by decide)]
        omega
      · have hlen : next.m_connections.length = m.m_connections.length := by
          rw [hset, List.length_set]
        obtain ⟨hsum, served, lost, rfl, hall, -, hlost⟩ :=
          ih hsettled (hrotates.later hlen hindex) hvalid.2 hrest
        have hcount := alive_count_set hc halive hset
        have hpos : 0 < m.alive_count :=
          List.countP_pos_iff.mpr ⟨c, List.mem_of_getElem? hc, halive⟩
        refine ⟨?_, .returned exit :: served, lost, rfl, ?_, .inr hpos, hlost⟩
        · rw [List.count_cons]
          by_cases hexit : exit = .error
          · subst hexit
            rw [if_neg (fun h => (hleft.mp h) rfl)] at hcount
            simp only [BEq.rfl, ite_true]
            omega
          · rw [if_pos (hleft.mpr hexit)] at hcount
            have hne : (Passed.returned exit == Passed.returned .error) = false := by
              simpa using hexit
            simp only [hne, Bool.false_eq_true, ite_false]
            omega
        · exact List.forall_mem_cons.mpr ⟨⟨exit, rfl⟩, hall⟩

end

-- From any state of a run, transfers without a conn_id reach a connection as long as one is
-- alive: a transfer that fails closes one connection and is the only thing that does, and only
-- with nothing alive are they lost.
theorem failover {ops : List Op} {o : Owner}
    (hreach : Machine.exec Owner.step ⟨new, []⟩ ops = some o) {ts : List Transfer}
    (hrotates : o.mgr.Rotates ts.length) (hvalid : ∀ t ∈ ts, t.Valid) {final : TcpClientMgr}
    {results : List Passed} (hrun : o.mgr.transfers ts = some (final, results)) :
    o.mgr.alive_count = final.alive_count + results.count (.returned .error) ∧
      ∃ served lost, results = served ++ List.replicate lost .lost ∧
        (∀ passed ∈ served, ∃ exit, passed = .returned exit) ∧
        (0 < lost → final.alive_count = 0) := by
  have hstart : Owner.Sound ⟨new, []⟩ := ⟨List.forall_mem_nil _, List.forall_mem_nil _⟩
  obtain ⟨hsum, served, lost, hresults, hall, -, hlost⟩ :=
    transfers_spec (hstart.exec hreach).live hrotates hvalid hrun
  exact ⟨hsum, served, lost, hresults, hall, hlost⟩

-- Two hosts; the first message fails on one of them, and the next one goes to the other.
theorem failover_of_two_hosts :
    let ops : List Op := [.init 3 [97, 58, 49, 59, 98, 58, 50] 0 2
      fun _ => ⟨true, some [⟨⟨10, 0, 0, 1⟩, true, ⟨some 3, 0, 0, 0⟩⟩]⟩]
    let ts : List Transfer :=
      [.writev (some [[7]]) 1 (.error .other) .other, .writev (some [[7]]) 1 (.ok 1) .other]
    ∃ o final results, Machine.exec Owner.step ⟨new, []⟩ ops = some o ∧
      o.mgr.transfers ts = some (final, results) ∧
      o.mgr.alive_count = final.alive_count + results.count (.returned .error) := by
  intro ops ts
  have hreturns : ((Machine.exec Owner.step ⟨new, []⟩ ops).bind fun o =>
      o.mgr.transfers ts).isSome = true := by decide +kernel
  obtain ⟨⟨final, results⟩, hboth⟩ := Option.isSome_iff_exists.mp hreturns
  obtain ⟨o, hreach, hrun⟩ := Option.bind_eq_some_iff.mp hboth
  refine ⟨o, final, results, hreach, hrun, (failover hreach ?_ ?_ hrun).1⟩
  · have hsmall : (Machine.exec Owner.step ⟨new, []⟩ ops).all fun o =>
        o.mgr.m_connections.length ≤ 2 ∧ o.mgr.m_conn_index = 0 := by decide +kernel
    rw [hreach] at hsmall
    obtain ⟨hlen, hindex⟩ := of_decide_eq_true hsmall
    refine ⟨by omega, .inl ?_⟩
    have hzero : o.mgr.m_conn_index.toNat = 0 := congrArg BitVec.toNat hindex
    rw [show ts.length = 2 from rfl]
    omega
  · simp [ts, Transfer.Valid]

end IgLibs.TcpClientMgr
