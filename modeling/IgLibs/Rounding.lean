import Mathlib.Data.Nat.Log
import Mathlib.Tactic.Ring

namespace IgLibs.Rounding

-- n / d to the nearest whole number, a tie to the even one.
def nearest (n d : Nat) : Nat :=
  if 2 * (n % d) < d ∨ 2 * (n % d) = d ∧ n / d % 2 = 0 then n / d else n / d + 1

-- A number in so many binary digits, with zeros behind them.
def keep (bits n : Nat) : Nat :=
  nearest n (2 ^ (Nat.log2 n + 1 - bits)) * 2 ^ (Nat.log2 n + 1 - bits)

def Near (slack a b : Nat) : Prop := a ≤ b + slack ∧ b ≤ a + slack

section

variable {m n d k bits : Nat}

theorem nearest_cases (n d : Nat) :
    (nearest n d = n / d ∧ 2 * (n % d) ≤ d) ∨ nearest n d = n / d + 1 ∧ d ≤ 2 * (n % d) := by
  unfold nearest
  split_ifs with h
  · exact .inl ⟨rfl, by omega⟩
  · exact .inr ⟨rfl, by omega⟩

-- The error is at most half a unit.
theorem nearest_error (hd : 0 < d) (n : Nat) : Near d (2 * n) (2 * (nearest n d * d)) := by
  unfold Near
  have hsplit := Nat.div_add_mod' n d
  have hlt := Nat.mod_lt n hd
  rcases nearest_cases n d with ⟨heq, hle⟩ | ⟨heq, hle⟩
  · rw [heq]
    omega
  · rw [heq, Nat.add_mul, Nat.one_mul]
    omega

theorem nearest_mono (h : m ≤ n) : nearest m d ≤ nearest n d := by
  have hdiv := Nat.div_le_div_right h (c := d)
  rcases Nat.lt_or_eq_of_le hdiv with hlt | heq
  · rcases nearest_cases m d with ⟨hm, -⟩ | ⟨hm, -⟩ <;>
      rcases nearest_cases n d with ⟨hn, -⟩ | ⟨hn, -⟩ <;> omega
  · have hm := Nat.div_add_mod' m d
    have hn := Nat.div_add_mod' n d
    rw [heq] at hm
    unfold nearest
    rw [heq]
    split_ifs <;> omega

theorem nearest_mul (hd : 0 < d) (k : Nat) : nearest (k * d) d = k := by
  have hzero : 2 * (k * d % d) < d := by
    rw [Nat.mul_mod_left]
    exact hd
  rw [nearest, if_pos (.inl hzero), Nat.mul_div_cancel k hd]

theorem nearest_le (hd : 0 < d) (h : n ≤ k * d) : nearest n d ≤ k := by
  have hmono := nearest_mono h (d := d)
  rwa [nearest_mul hd] at hmono

theorem le_nearest (hd : 0 < d) (h : k * d ≤ n) : k ≤ nearest n d := by
  have hmono := nearest_mono h (d := d)
  rwa [nearest_mul hd] at hmono

@[simp] theorem keep_zero (bits : Nat) : keep bits 0 = 0 := by
  have hzero := nearest_mul (Nat.two_pow_pos (Nat.log2 0 + 1 - bits)) 0
  rw [Nat.zero_mul] at hzero
  rw [keep, hzero, Nat.zero_mul]

theorem log2_bounds (hn : n ≠ 0) : 2 ^ Nat.log2 n ≤ n ∧ n < 2 ^ (Nat.log2 n + 1) :=
  ⟨Nat.log2_self_le hn, Nat.lt_log2_self⟩

-- Rounding stays between the powers of two on both sides.
theorem pow_log2_le_keep (hbits : 0 < bits) (hn : n ≠ 0) : 2 ^ Nat.log2 n ≤ keep bits n := by
  have hsplit : 2 ^ Nat.log2 n =
      2 ^ (Nat.log2 n - (Nat.log2 n + 1 - bits)) * 2 ^ (Nat.log2 n + 1 - bits) := by
    rw [← Nat.pow_add]
    congr 1
    omega
  have hle := (log2_bounds hn).1
  unfold keep
  rw [hsplit] at hle
  exact hsplit.le.trans (Nat.mul_le_mul_right _ (le_nearest (Nat.two_pow_pos _) hle))

theorem keep_le_pow_log2 (hn : n ≠ 0) : keep bits n ≤ 2 ^ (Nat.log2 n + 1) := by
  have hsplit : 2 ^ (Nat.log2 n + 1) =
      2 ^ (Nat.log2 n + 1 - (Nat.log2 n + 1 - bits)) * 2 ^ (Nat.log2 n + 1 - bits) := by
    rw [← Nat.pow_add]
    congr 1
    omega
  have hle := (log2_bounds hn).2.le
  unfold keep
  rw [hsplit] at hle
  exact (Nat.mul_le_mul_right _ (nearest_le (Nat.two_pow_pos _) hle)).trans hsplit.ge

theorem keep_mono (hbits : 0 < bits) (h : m ≤ n) : keep bits m ≤ keep bits n := by
  rcases Nat.eq_zero_or_pos m with rfl | hm
  · simp
  have hn : n ≠ 0 := by omega
  have hlog : Nat.log2 m ≤ Nat.log2 n := by
    rw [Nat.le_log2 hn]
    exact (log2_bounds hm.ne').1.trans h
  rcases Nat.lt_or_eq_of_le hlog with hlt | heq
  · calc keep bits m ≤ 2 ^ (Nat.log2 m + 1) := keep_le_pow_log2 hm.ne'
      _ ≤ 2 ^ Nat.log2 n := Nat.pow_le_pow_right Nat.two_pos hlt
      _ ≤ keep bits n := pow_log2_le_keep hbits hn
  · unfold keep
    rw [heq]
    exact Nat.mul_le_mul_right _ (nearest_mono h)

-- A power of two is kept as it is.
theorem keep_two_pow (hbits : 0 < bits) (k : Nat) : keep bits (2 ^ k) = 2 ^ k := by
  have hlog : Nat.log2 (2 ^ k) = k := Nat.log2_two_pow
  have hsplit : 2 ^ k = 2 ^ (k - (k + 1 - bits)) * 2 ^ (k + 1 - bits) := by
    rw [← Nat.pow_add]
    congr 1
    omega
  unfold keep
  rw [hlog]
  conv_lhs => rw [hsplit, nearest_mul (Nat.two_pow_pos _)]
  exact hsplit.symm

theorem keep_le_two_pow (hbits : 0 < bits) (h : n ≤ 2 ^ k) : keep bits n ≤ 2 ^ k := by
  have hmono := keep_mono hbits h
  rwa [keep_two_pow hbits] at hmono

theorem two_pow_le_keep (hbits : 0 < bits) (h : 2 ^ k ≤ n) : 2 ^ k ≤ keep bits n := by
  have hmono := keep_mono hbits h
  rwa [keep_two_pow hbits] at hmono

theorem keep_error (bits n : Nat) :
    Near (2 ^ (Nat.log2 n + 1 - bits)) (2 * n) (2 * keep bits n) :=
  nearest_error (Nat.two_pow_pos _) n

-- A number of no more digits is kept as it is.
theorem keep_of_lt (h : n < 2 ^ bits) : keep bits n = n := by
  rcases Nat.eq_zero_or_pos n with rfl | hn
  · simp
  have hlog : Nat.log2 n < bits := (Nat.log2_lt hn.ne').mpr h
  have hunit : Nat.log2 n + 1 - bits = 0 := by omega
  have hone := nearest_mul Nat.one_pos n
  rw [Nat.mul_one] at hone
  rw [keep, hunit, Nat.pow_zero, hone, Nat.mul_one]

end

end IgLibs.Rounding
