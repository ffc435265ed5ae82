import IgLibs.TcpClientMgr
import IgLibs.RoundRobin

namespace IgLibs.TcpClientMgr

open Word

-- The connection at an index is alive.
def Alive (m : TcpClientMgr) (place : Nat) : Prop :=
  ∃ c, m.m_connections[place]? = some c ∧ c.is_alive = true

-- The index that the loop tests in its i-th round.
def place (m : TcpClientMgr) (i : Nat) : Nat :=
  RoundRobin.visit (2 ^ 32) m.m_conn_count.toNat m.m_conn_index.toNat i

-- What the callers of the two functions rely on.
structure Selects (m : TcpClientMgr) : Prop where
  lost : m.select_connection.2 = -1 ↔ ∀ k, ¬m.Alive k
  alive : m.select_connection.2 ≠ -1 →
    ∃ k : Nat, m.select_connection.2 = k ∧ k < m.m_connections.length ∧ m.Alive k
  null : m.get_available_connection.2 = none ↔ m.select_connection.2 = -1
  same : ∀ k, m.get_available_connection.2 = some k → m.select_connection.2 = k
  index : m.get_available_connection.1.m_conn_index = m.select_connection.1.m_conn_index

-- Nothing is alive, or the first alive connection in the n rounds has an id that fits an int.
def InReach (m : TcpClientMgr) : Prop :=
  (∀ k, ¬m.Alive k) ∨
    ∃ i < m.m_connections.length, m.Alive (m.place i) ∧ m.place i < 2 ^ 31 ∧
      ∀ j < i, ¬m.Alive (m.place j)

section

variable {m : TcpClientMgr}

theorem is_alive_iff (id : BitVec 32) : m.is_alive id = true ↔ m.Alive id.toNat := by
  unfold is_alive Alive
  cases m.m_connections[id.toNat]? with
  | none => simp
  | some c => simp

def advance (m : TcpClientMgr) : TcpClientMgr := { m with m_conn_index := m.m_conn_index + 1 }

theorem place_advance (i : Nat) : m.advance.place i = m.place (i + 1) := by
  have hindex : m.advance.m_conn_index.toNat = (m.m_conn_index.toNat + 1) % 2 ^ 32 :=
    BitVec.toNat_add _ _
  unfold place
  rw [hindex]
  apply RoundRobin.visit_succ

theorem place_zero : m.place 0 = (m.m_conn_index % m.m_conn_count).toNat := by
  have hlt := m.m_conn_index.isLt
  unfold place RoundRobin.visit
  rw [Nat.add_zero, Nat.mod_eq_of_lt hlt, BitVec.toNat_umod]

-- The loop tests the places in turn and stops at the first one that is alive.
theorem find_alive_cases (m : TcpClientMgr) (rounds : Nat) :
    (m.find_alive rounds).2 = none ∧ (∀ i < rounds, ¬m.Alive (m.place i)) ∨
      ∃ id i, (m.find_alive rounds).2 = some id ∧ i < rounds ∧ id.toNat = m.place i ∧
        m.Alive (m.place i) ∧ ∀ j < i, ¬m.Alive (m.place j) := by
  induction rounds generalizing m with
  | zero => exact .inl ⟨rfl, fun i hi => absurd hi (Nat.not_lt_zero i)⟩
  | succ rounds ih =>
      have hcall : m.find_alive (rounds + 1) =
          if m.is_alive (m.m_conn_index % m.m_conn_count) then
            (m.advance, some (m.m_conn_index % m.m_conn_count))
          else m.advance.find_alive rounds := rfl
      by_cases hfirst : m.is_alive (m.m_conn_index % m.m_conn_count) = true
      · rw [hcall, if_pos hfirst]
        refine .inr ⟨_, 0, rfl, by omega, place_zero.symm, ?_, fun j hj => ?_⟩
        · rw [place_zero]
          exact (is_alive_iff _).mp hfirst
        · exact absurd hj (Nat.not_lt_zero j)
      · have hdead : ¬m.Alive (m.place 0) := by
          rw [place_zero]
          exact fun h => hfirst ((is_alive_iff _).mpr h)
        rw [hcall, if_neg hfirst]
        rcases ih m.advance with ⟨hnone, hall⟩ | ⟨id, i, hsome, hi, hid, halive, hbefore⟩
        · refine .inl ⟨hnone, fun i hi => ?_⟩
          cases i with
          | zero => exact hdead
          | succ i =>
              rw [← place_advance]
              exact hall i (by omega)
        · rw [place_advance] at hid halive
          refine .inr ⟨id, i + 1, hsome, by omega, hid, halive, fun j hj => ?_⟩
          cases j with
          | zero => exact hdead
          | succ j =>
              rw [← place_advance]
              exact hbefore j (by omega)

theorem Alive.lt {k : Nat} (h : m.Alive k) : k < m.m_connections.length := by
  obtain ⟨c, hc, _⟩ := h
  exact (List.getElem?_eq_some_iff.mp hc).1

-- The two functions run the same loop and differ in what they make of its result.
theorem select_connection_eq (hn : 0 < m.m_connections.length) :
    m.select_connection = ((m.find_alive m.m_conn_count.toNat).1,
        match (m.find_alive m.m_conn_count.toNat).2 with
        | some id => toInt32 id.toNat
        | none => -1) ∧
      m.get_available_connection = ((m.find_alive m.m_conn_count.toNat).1,
        (m.find_alive m.m_conn_count.toNat).2.map BitVec.toNat) := by
  have hcount : m.m_conn_count ≠ 0 := by
    intro hzero
    have hcounted := m.counted
    rw [hzero] at hcounted
    have hlen : m.m_connections.length = 0 := hcounted.symm
    omega
  unfold select_connection get_available_connection
  rw [if_neg hcount, if_neg hcount]
  rcases m.find_alive m.m_conn_count.toNat with ⟨next, found⟩
  cases found with
  | none => exact ⟨rfl, rfl⟩
  | some id => exact ⟨rfl, rfl⟩

private theorem selects_of_none (hn : 0 < m.m_connections.length)
    (hnone : (m.find_alive m.m_conn_count.toNat).2 = none) : m.Selects ↔ ∀ k, ¬m.Alive k := by
  obtain ⟨hselect, hget⟩ := select_connection_eq hn
  rw [hnone] at hselect hget
  constructor
  · intro h
    exact h.lost.mp (by rw [hselect])
  · intro hdead
    refine ⟨?_, ?_, ?_, ?_, ?_⟩
    · rw [hselect]
      exact iff_of_true rfl hdead
    · rw [hselect]
      intro h
      exact absurd rfl h
    · rw [hselect, hget]
      exact iff_of_true rfl rfl
    · rw [hget]
      intro k hk
      cases hk
    · rw [hselect, hget]

-- The id of an alive connection serves the callers when it is not negative as an int.
private theorem selects_iff_fits (hn : 0 < m.m_connections.length) {id : BitVec 32}
    (hsome : (m.find_alive m.m_conn_count.toNat).2 = some id) (halive : m.Alive id.toNat) :
    m.Selects ↔ id.toNat < 2 ^ 31 := by
  obtain ⟨hselect, hget⟩ := select_connection_eq hn
  have hid := id.isLt
  rw [hsome] at hselect hget
  simp only [Option.map_some] at hselect hget
  constructor
  · intro h
    by_contra hbig
    have hvalue : toInt32 id.toNat = id.toNat - 2 ^ 32 := toInt32_of_ge (by omega) (by omega)
    rw [hvalue] at hselect
    have hfound : m.select_connection.2 ≠ -1 := fun hlost => (h.lost.mp hlost) _ halive
    obtain ⟨k, hk, _⟩ := h.alive hfound
    rw [hselect] at hk
    dsimp only at hk
    omega
  · intro hfits
    have hvalue : toInt32 id.toNat = id.toNat := toInt32_of_lt (by omega) (by omega)
    rw [hvalue] at hselect
    refine ⟨?_, ?_, ?_, ?_, ?_⟩
    · rw [hselect]
      exact iff_of_false (by dsimp only; omega) fun h => h _ halive
    · rw [hselect]
      exact fun _ => ⟨id.toNat, rfl, halive.lt, halive⟩
    · rw [hselect, hget]
      exact iff_of_false (by simp) (by dsimp only; omega)
    · rw [hselect, hget]
      intro k hk
      rw [Option.some.inj hk]
    · rw [hselect, hget]

theorem selects_iff_inReach (hn : 0 < m.m_connections.length) : m.Selects ↔ m.InReach := by
  have hcounted := m.counted
  rcases find_alive_cases m m.m_conn_count.toNat with
    ⟨hnone, hall⟩ | ⟨id, i, hsome, hi, hid, halive, hbefore⟩
  · rw [selects_of_none hn hnone]
    constructor
    · exact .inl
    · rintro (hdead | ⟨i, hi, halive, _⟩)
      · exact hdead
      · exact absurd halive (hall i (by omega))
  · rw [selects_iff_fits hn hsome (hid ▸ halive), hid]
    constructor
    · intro hfits
      exact .inr ⟨i, by omega, halive, hfits, hbefore⟩
    · rintro (hdead | ⟨i', _, halive', hfits', hbefore'⟩)
      · exact absurd halive (hdead _)
      · rcases Nat.lt_trichotomy i i' with hlt | rfl | hlt
        · exact absurd halive (hbefore' i hlt)
        · exact hfits'
        · exact absurd halive' (hbefore i' hlt)

-- The same counters with one alive connection.
def only (m : TcpClientMgr) (k : Nat) : TcpClientMgr :=
  { m with
    m_connections := (List.replicate m.m_conn_count.toNat TcpClient.new).set k ⟨0, [], [], [], 0, 0, []⟩
    counted := by simp }

theorem only_alive {k j : Nat} (h : (m.only k).Alive j) : j = k := by
  obtain ⟨c, hc, halive⟩ := h
  by_contra hne
  simp only [only, List.getElem?_set_ne (Ne.symm hne)] at hc
  obtain rfl := List.eq_of_mem_replicate (List.mem_of_getElem? hc)
  cases halive

theorem alive_only {k : Nat} (hk : k < m.m_conn_count.toNat) : (m.only k).Alive k := by
  refine ⟨⟨0, [], [], [], 0, 0, []⟩, ?_, rfl⟩
  simp [only, hk]

theorem inReach_only {k : Nat} (hk : k < m.m_conn_count.toNat) (h : (m.only k).InReach) :
    k < 2 ^ 31 ∧ ∃ i < m.m_conn_count.toNat, m.place i = k := by
  rcases h with hdead | ⟨i, hi, halive, hfits, _⟩
  · exact absurd (alive_only hk) (hdead k)
  · have hplace : m.place i = k := only_alive halive
    have hlen : (m.only k).m_connections.length = m.m_conn_count.toNat := (m.only k).counted.symm
    have hfits' : m.place i < 2 ^ 31 := hfits
    exact ⟨by omega, i, by omega, hplace⟩

theorem inReach_of_covers (hfits : m.m_connections.length ≤ 2 ^ 31)
    (hcovers : ∀ k < m.m_conn_count.toNat, ∃ i < m.m_conn_count.toNat, m.place i = k) :
    m.InReach := by
  have hcounted := m.counted
  rcases find_alive_cases m m.m_conn_count.toNat with
    ⟨_, hall⟩ | ⟨_, i, _, hi, _, halive, hbefore⟩
  · refine .inl fun k hk => ?_
    have hlt := hk.lt
    obtain ⟨i, hi, hplace⟩ := hcovers k (by omega)
    rw [← hplace] at hk
    exact hall i hi hk
  · have hlt := halive.lt
    exact .inr ⟨i, by omega, halive, by omega, hbefore⟩

end

-- For one set of alive connections, and for all of them with the same counters: the numbers of
-- connections and the states of the index for which the rotation never fails.
theorem selects_iff (m : TcpClientMgr) (hn : 0 < m.m_connections.length) :
    (m.Selects ↔ m.InReach) ∧
      ((∀ other : TcpClientMgr, other.m_conn_count = m.m_conn_count →
          other.m_conn_index = m.m_conn_index → other.Selects) ↔
        m.m_connections.length ≤ 2 ^ 31 ∧
          (m.m_conn_index.toNat + m.m_connections.length ≤ 2 ^ 32 ∨
            m.m_connections.length ∣ 2 ^ 32)) := by
  have hcounted := m.counted
  have hcount : m.m_conn_count.toNat < 2 ^ 32 := m.m_conn_count.isLt
  have hindex : m.m_conn_index.toNat < 2 ^ 32 := m.m_conn_index.isLt
  have hcovers := RoundRobin.covers_iff (n := m.m_conn_count.toNat) (by omega) (by omega) hindex
  refine ⟨selects_iff_inReach hn, ?_⟩
  rw [← hcounted, ← hcovers]
  constructor
  · intro hall
    have hreach : ∀ k < m.m_conn_count.toNat,
        k < 2 ^ 31 ∧ ∃ i < m.m_conn_count.toNat, m.place i = k := by
      intro k hk
      have hlen : 0 < (m.only k).m_connections.length := by
        rw [← (m.only k).counted]
        exact Nat.lt_of_le_of_lt (Nat.zero_le k) hk
      exact inReach_only hk ((selects_iff_inReach hlen).mp (hall (m.only k) rfl rfl))
    refine ⟨?_, fun k hk => (hreach k hk).2⟩
    by_contra hbig
    have hedge := (hreach (2 ^ 31) (by omega)).1
    omega
  · rintro ⟨hfits, hall⟩ other hsame hstart
    have hlen := other.counted
    rw [hsame] at hlen
    apply (selects_iff_inReach (by omega)).mpr
    apply inReach_of_covers (by omega)
    unfold place
    rw [hsame, hstart]
    exact hall

-- Two connections, and an index that wraps in the first round.
theorem selects_iff_two :
    (⟨[TcpClient.new, ⟨0, [], [], [], 0, 0, []⟩], 2, 4294967295, 0, rfl⟩ : TcpClientMgr).Selects := by
  apply ((selects_iff ⟨[TcpClient.new, ⟨0, [], [], [], 0, 0, []⟩], 2, 4294967295, 0, rfl⟩
    (by decide)).2.mpr ⟨by decide, .inr (by decide)⟩)
  · rfl
  · rfl

-- With three connections the wrap skips the only one that is alive.
theorem alive_connection_skipped :
    ∃ m : TcpClientMgr, m.m_conn_index = 4294967295 ∧ m.m_connections.length = 3 ∧ m.Alive 2 ∧
      m.select_connection.2 = -1 ∧ m.get_available_connection.2 = none ∧ ¬m.Selects := by
  refine ⟨⟨[TcpClient.new, TcpClient.new, ⟨0, [], [], [], 0, 0, []⟩], 3, 4294967295, 0, rfl⟩, rfl, rfl,
    ⟨_, rfl, rfl⟩, rfl, rfl, fun h => ?_⟩
  exact h.lost.mp rfl 2 ⟨_, rfl, rfl⟩

end IgLibs.TcpClientMgr
