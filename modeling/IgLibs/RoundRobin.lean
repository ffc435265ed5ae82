import Mathlib.Data.Int.CardIntervalMod
import Mathlib.Data.Nat.ModEq

namespace IgLibs.RoundRobin

-- The place that a counter modulo `size` picks out of `n` in the i-th round after `start`.
def visit (size n start i : Nat) : Nat := (start + i) % size % n

section

variable {size n start : Nat}

theorem visit_succ (i : Nat) : visit size n ((start + 1) % size) i = visit size n start (i + 1) := by
  unfold visit
  rw [Nat.mod_add_mod]
  congr 2
  omega

-- Without a wrap, n rounds visit n consecutive numbers.
theorem covers_of_mod_add (start : Nat) (hn : 0 < n) {place : Nat} (hplace : place < n) :
    ∃ i < n, (start + i) % n = place := by
  have hlt := Nat.mod_lt start hn
  have hdiv := Nat.div_add_mod start n
  by_cases hle : start % n ≤ place
  · refine ⟨place - start % n, by omega, ?_⟩
    have hsum : start + (place - start % n) = place + n * (start / n) := by omega
    rw [hsum, Nat.add_mul_mod_self_left, Nat.mod_eq_of_lt hplace]
  · refine ⟨place + n - start % n, by omega, ?_⟩
    have hsum : start + (place + n - start % n) = place + n + n * (start / n) := by omega
    rw [hsum, Nat.add_mul_mod_self_left, Nat.add_mod_right, Nat.mod_eq_of_lt hplace]

theorem covers (hn : 0 < n) (h : start + n ≤ size ∨ n ∣ size) {place : Nat} (hplace : place < n) :
    ∃ i < n, visit size n start i = place := by
  obtain ⟨i, hi, hvisit⟩ := covers_of_mod_add start hn hplace
  refine ⟨i, hi, ?_⟩
  unfold visit
  rcases h with hroom | hdvd
  · have hlt : start + i < size := by omega
    rw [Nat.mod_eq_of_lt hlt]
    exact hvisit
  · rw [Nat.mod_mod_of_dvd _ hdvd]
    exact hvisit

-- The residue of a number that lies a little before the wrap.
theorem sub_mod_of_le {d : Nat} (hd : 0 < d) (hdn : d < n) (hsize : n ≤ size) :
    (size - d) % n = if d ≤ size % n then size % n - d else n + size % n - d := by
  have hn : 0 < n := by omega
  have hlt := Nat.mod_lt size hn
  have hdiv := Nat.div_add_mod size n
  by_cases hle : d ≤ size % n
  · rw [if_pos hle]
    have hsum : size - d = size % n - d + n * (size / n) := by omega
    rw [hsum, Nat.add_mul_mod_self_left, Nat.mod_eq_of_lt (by omega)]
  · rw [if_neg hle]
    have hq : 0 < size / n := Nat.div_pos hsize hn
    have hmul : n * (size / n) = n * (size / n - 1) + n := by
      rw [← Nat.mul_succ]
      congr 1
      omega
    have hsum : size - d = n + size % n - d + n * (size / n - 1) := by omega
    rw [hsum, Nat.add_mul_mod_self_left, Nat.mod_eq_of_lt (by omega)]

-- A counter that wraps within the rounds misses a place unless n divides its modulus.
theorem misses (hsize : n ≤ size) (hstart : start < size) (hwrap : size < start + n)
    (hdvd : ¬n ∣ size) : ∃ place < n, ∀ i < n, visit size n start i ≠ place := by
  have hn : 0 < n := by omega
  have hpos : 0 < size % n := Nat.pos_of_ne_zero fun hzero => hdvd (Nat.dvd_of_mod_eq_zero hzero)
  have hlt := Nat.mod_lt size hn
  -- rounds before the wrap end just below the residue of size, later ones start from zero
  have hbefore : ∀ i, start + i < size → visit size n start i =
      if size - start - i ≤ size % n then size % n - (size - start - i)
      else n + size % n - (size - start - i) := by
    intro i hi
    unfold visit
    have hd : size - (size - start - i) = start + i := by omega
    rw [Nat.mod_eq_of_lt hi, ← sub_mod_of_le (by omega) (by omega) hsize, hd]
  have hafter : ∀ i, size ≤ start + i → i < n → visit size n start i = start + i - size := by
    intro i hi hin
    unfold visit
    rw [Nat.mod_eq_sub_mod hi, Nat.mod_eq_of_lt (a := start + i - size) (by omega),
      Nat.mod_eq_of_lt (by omega)]
  by_cases hw : size % n < size - start
  · refine ⟨max (size % n) (n - (size - start)), by omega, fun i hi => ?_⟩
    by_cases hi' : start + i < size
    · rw [hbefore i hi']
      by_cases hle : size - start - i ≤ size % n
      · rw [if_pos hle]
        omega
      · rw [if_neg hle]
        omega
    · rw [hafter i (by omega) hi]
      omega
  · refine ⟨n - 1, by omega, fun i hi => ?_⟩
    by_cases hi' : start + i < size
    · rw [hbefore i hi', if_pos (by omega)]
      omega
    · rw [hafter i (by omega) hi]
      omega

-- n rounds visit every place exactly when the counter does not wrap, or wraps unnoticed.
theorem covers_iff (hn : 0 < n) (hsize : n ≤ size) (hstart : start < size) :
    (∀ place < n, ∃ i < n, visit size n start i = place) ↔ start + n ≤ size ∨ n ∣ size := by
  constructor
  · intro hall
    by_contra hno
    obtain ⟨hwrap, hdvd⟩ := not_or.mp hno
    obtain ⟨place, hplace, hmiss⟩ := misses hsize hstart (by omega) hdvd
    obtain ⟨i, hi, hvisit⟩ := hall place hplace
    exact hmiss i hi hvisit
  · intro h place hplace
    exact covers hn h hplace

theorem visit_eq {i : Nat} (h : start + i < size ∨ n ∣ size) :
    visit size n start i = (start + i) % n := by
  unfold visit
  rcases h with hroom | hdvd
  · rw [Nat.mod_eq_of_lt hroom]
  · rw [Nat.mod_mod_of_dvd _ hdvd]

-- While the counter does not wrap unevenly, no place is visited more than once more than
-- another one.
theorem count_visits (hn : 0 < n) {rounds : Nat} (h : start + rounds ≤ size ∨ n ∣ size)
    {place : Nat} (hplace : place < n) :
    rounds / n ≤ ((List.range rounds).map (visit size n start)).count place ∧
      ((List.range rounds).map (visit size n start)).count place ≤ rounds / n + 1 := by
  obtain ⟨first, -, hfirst⟩ := covers_of_mod_add start hn hplace
  have hcount : ((List.range rounds).map (visit size n start)).count place =
      rounds.count (· ≡ first [MOD n]) := by
    rw [List.count, List.countP_map, Nat.count]
    apply List.countP_congr
    intro i hi
    have hlt := List.mem_range.mp hi
    have hroom : start + i < size ∨ n ∣ size := h.imp (fun hle => by omega) id
    simp only [Function.comp_apply, beq_iff_eq, decide_eq_true_eq]
    rw [visit_eq hroom, ← hfirst]
    exact ⟨Nat.ModEq.add_left_cancel' start, Nat.ModEq.add_left start⟩
  rw [hcount, Nat.count_modEq_card rounds hn]
  split_ifs <;> omega

end

end IgLibs.RoundRobin
