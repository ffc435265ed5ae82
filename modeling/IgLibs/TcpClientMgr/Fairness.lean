import IgLibs.TcpClientMgr.Failover

namespace IgLibs.TcpClientMgr

open Word

-- One selection after another, with the ids that they return.
def selections (m : TcpClientMgr) : Nat → TcpClientMgr × List Int
  | 0 => (m, [])
  | calls + 1 => ((m.select_connection.1.selections calls).1,
      m.select_connection.2 :: (m.select_connection.1.selections calls).2)

def alive_at (m : TcpClientMgr) (place : Nat) : Bool :=
  m.m_connections[place]?.any TcpClient.is_alive

-- The alive ones among the places that so many tests come to.
def met (m : TcpClientMgr) (tests : Nat) : List Nat :=
  ((List.range tests).map m.place).filter m.alive_at

section

variable {m : TcpClientMgr} {calls : Nat}

theorem alive_at_iff {place : Nat} : m.alive_at place = true ↔ m.Alive place := by
  unfold alive_at Alive
  cases m.m_connections[place]? with
  | none => simp
  | some c => simp

-- The index moved on by some tests.
def moved (m : TcpClientMgr) (tests : Nat) : TcpClientMgr :=
  { m with m_conn_index := m.m_conn_index + BitVec.ofNat 32 tests }

theorem place_moved (tests i : Nat) : (m.moved tests).place i = m.place (tests + i) := by
  unfold place RoundRobin.visit moved
  dsimp only
  rw [BitVec.toNat_add, BitVec.toNat_ofNat, Nat.add_mod_mod, Nat.mod_add_mod, Nat.add_assoc]

theorem met_add (tests more : Nat) :
    m.met (tests + more) = m.met tests ++ (m.moved tests).met more := by
  unfold met
  rw [List.range_add, List.map_append, List.filter_append, List.map_map]
  congr 2
  apply List.map_congr_left
  intro i _
  exact (place_moved tests i).symm

-- The loop meets the connection that it finds and no other one.
theorem find_alive_met (m : TcpClientMgr) (rounds : Nat) :
    ∃ tests ≤ rounds, (m.find_alive rounds).1 = m.moved tests ∧
      m.met tests = ((m.find_alive rounds).2.map BitVec.toNat).toList := by
  induction rounds generalizing m with
  | zero => exact ⟨0, Nat.le_refl 0, by rw [moved, BitVec.add_zero]; rfl, rfl⟩
  | succ rounds ih =>
      have hcall : m.find_alive (rounds + 1) =
          if m.is_alive (m.m_conn_index % m.m_conn_count) then
            (m.advance, some (m.m_conn_index % m.m_conn_count))
          else m.advance.find_alive rounds := rfl
      have hone : m.met 1 =
          if m.is_alive (m.m_conn_index % m.m_conn_count) then
            [(m.m_conn_index % m.m_conn_count).toNat] else [] := by
        rw [← place_zero]
        have hsame : m.is_alive (m.m_conn_index % m.m_conn_count) = m.alive_at (m.place 0) := by
          rw [place_zero]
          rfl
        rw [hsame, met, List.range_one, List.map_singleton,
          List.filter_singleton, Bool.cond_eq_ite]
      rw [hcall]
      by_cases hfirst : m.is_alive (m.m_conn_index % m.m_conn_count) = true
      · rw [if_pos hfirst] at hone ⊢
        exact ⟨1, by omega, rfl, hone⟩
      · rw [if_neg hfirst] at hone ⊢
        obtain ⟨tests, hle, hmoved, hmet⟩ := ih m.advance
        refine ⟨1 + tests, by omega, ?_, ?_⟩
        · rw [hmoved]
          unfold moved advance
          rw [BitVec.ofNat_add, BitVec.add_assoc]
          rfl
        · rw [met_add, hone, List.nil_append]
          exact hmet

theorem select_connection_met (hrotates : m.Rotates (calls + 1)) (hsome : ∃ k, m.Alive k) :
    ∃ tests ≤ m.m_connections.length, m.select_connection.1 = m.moved tests ∧
      m.met tests = [m.select_connection.2.toNat] ∧ 0 ≤ m.select_connection.2 := by
  obtain ⟨k, halive⟩ := hsome
  have hn : 0 < m.m_connections.length := Nat.zero_lt_of_lt halive.lt
  have hselects := hrotates.selects hn
  have hlost : m.select_connection.2 ≠ -1 := fun hlost => hselects.lost.mp hlost k halive
  obtain ⟨id, hid, -⟩ := hselects.alive hlost
  obtain ⟨tests, hle, hmoved, hmet⟩ := m.find_alive_met m.m_conn_count.toNat
  obtain ⟨hselect, hget⟩ := select_connection_eq hn
  rw [m.counted] at hle
  refine ⟨tests, hle, ?_, ?_, by omega⟩
  · rw [hselect]
    exact hmoved
  · rw [hmet]
    cases hfound : (m.find_alive m.m_conn_count.toNat).2 with
    | none =>
        rw [hselect, hfound] at hlost
        exact absurd rfl hlost
    | some found =>
        rw [hfound] at hget
        have hsame := hselects.same found.toNat (by rw [hget]; rfl)
        rw [hsame]
        rfl

-- The ids of consecutive selections are the alive places that their tests come to.
theorem selections_met (hrotates : m.Rotates calls) (hsome : ∃ k, m.Alive k) :
    ∃ tests ≤ calls * m.m_connections.length,
      (m.selections calls).2 = (m.met tests).map Int.ofNat ∧ (m.selections calls).1 = m.moved tests := by
  induction calls generalizing m with
  | zero => exact ⟨0, Nat.zero_le _, rfl, by rw [moved, BitVec.add_zero]; rfl⟩
  | succ calls ih =>
      obtain ⟨tests, hle, hmoved, hmet, hpos⟩ := select_connection_met hrotates hsome
      have hindex := m.select_connection_index
      rw [hmoved] at hindex
      have hlater : (m.moved tests).Rotates calls := hrotates.later rfl hindex
      obtain ⟨more, hmore, hids, hfinal⟩ := ih hlater hsome
      refine ⟨tests + more, ?_, ?_, ?_⟩
      · have hmore : more ≤ calls * m.m_connections.length := hmore
        rw [Nat.succ_mul]
        omega
      · rw [selections, hmoved, hids, met_add, hmet, List.map_append]
        simp only [List.map_cons, List.map_nil, Int.ofNat_eq_natCast, Int.toNat_of_nonneg hpos]
        rfl
      · rw [selections, hmoved, hfinal]
        unfold moved
        rw [BitVec.ofNat_add, BitVec.add_assoc]

theorem count_met {tests place : Nat} (halive : m.Alive place) :
    (m.met tests).count place = ((List.range tests).map m.place).count place :=
  List.count_filter (alive_at_iff.mpr halive)

end

-- Between the connections that are alive, consecutive selections are shared out evenly: none
-- is chosen more than once more than another one, and one that is not alive is never chosen.
theorem selections_even {m : TcpClientMgr} {calls : Nat} (hrotates : m.Rotates calls)
    {place other : Nat} (halive : m.Alive place) (hother : m.Alive other) :
    (m.selections calls).2.count (place : Int) ≤
        (m.selections calls).2.count (other : Int) + 1 ∧
      ∀ id ∈ (m.selections calls).2, ∃ k : Nat, id = k ∧ m.Alive k := by
  obtain ⟨tests, hle, hids, -⟩ := selections_met hrotates ⟨place, halive⟩
  have hn : 0 < m.m_conn_count.toNat := by
    rw [m.counted]
    exact Nat.zero_lt_of_lt halive.lt
  have heven : m.m_conn_index.toNat + tests ≤ 2 ^ 32 ∨ m.m_conn_count.toNat ∣ 2 ^ 32 := by
    rw [m.counted]
    exact hrotates.even.imp (fun hroom => by omega) id
  have hcount {k : Nat} (hk : m.Alive k) : (m.selections calls).2.count (k : Int) =
      ((List.range tests).map m.place).count k := by
    rw [hids, ← count_met hk]
    exact List.count_map_of_injective _ _ Int.ofNat_injective k
  rw [hcount halive, hcount hother]
  constructor
  · have hplace := RoundRobin.count_visits hn heven (m.counted ▸ halive.lt)
    have hplace' := RoundRobin.count_visits hn heven (m.counted ▸ hother.lt)
    exact le_trans hplace.2 (Nat.add_le_add_right hplace'.1 1)
  · intro id hmem
    rw [hids] at hmem
    obtain ⟨k, hk, rfl⟩ := List.mem_map.mp hmem
    exact ⟨k, rfl, alive_at_iff.mp (List.mem_filter.mp hk).2⟩

-- Three connections, the middle one lost, and five selections.
theorem selections_even_of_three :
    let alive : TcpClient := ⟨0, [], [], [], 0, 0, []⟩
    let m : TcpClientMgr := ⟨[alive, TcpClient.new, alive], 3, 7, 0, rfl⟩
    (m.selections 5).2 = [2, 0, 2, 0, 2] ∧
      (m.selections 5).2.count 2 ≤ (m.selections 5).2.count 0 + 1 := by
  intro alive m
  have hrotates : m.Rotates 5 := ⟨by decide, .inl (by decide)⟩
  have hlast : m.Alive 2 := ⟨alive, rfl, rfl⟩
  have hfirst : m.Alive 0 := ⟨alive, rfl, rfl⟩
  exact ⟨by decide +kernel, (selections_even hrotates hlast hfirst).1⟩

end IgLibs.TcpClientMgr
