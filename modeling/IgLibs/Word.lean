import Mathlib.Data.Nat.Bitwise

namespace IgLibs.Word

-- unsigned long and size_t
abbrev ULong := BitVec 64

-- std::min returns its first argument unless the second one is smaller.
def std_min {w : Nat} (a b : BitVec w) : BitVec w :=
  if b < a then b else a

@[simp] theorem toNat_std_min {w : Nat} (a b : BitVec w) :
    (std_min a b).toNat = min a.toNat b.toNat := by
  unfold std_min
  split <;> rename_i h <;> rw [BitVec.lt_def] at h <;> omega

@[simp] theorem std_min_zero {w : Nat} (b : BitVec w) : std_min 0 b = 0 := by
  apply BitVec.eq_of_toNat_eq
  rw [toNat_std_min, BitVec.ofNat_eq_ofNat, BitVec.toNat_zero, Nat.zero_min]

-- The conversion of an integer to a 32-bit int.
def toInt32 (value : Int) : Int :=
  value.bmod (2 ^ 32)

theorem toInt32_of_lt {value : Int} (hlo : -2 ^ 31 ≤ value) (hhi : value < 2 ^ 31) :
    toInt32 value = value := by
  unfold toInt32
  apply Int.bmod_eq_of_le <;> omega

theorem toInt32_of_ge {value : Int} (hlo : 2 ^ 31 ≤ value) (hhi : value < 2 ^ 32) :
    toInt32 value = value - 2 ^ 32 := by
  unfold toInt32
  rw [Int.bmod_def, Int.emod_eq_of_lt (by omega) (by omega), if_neg (by omega)]
  rfl

-- The conversion to 64 bits, as time_t has.
def toInt64 (value : Int) : Int :=
  value.bmod (2 ^ 64)

-- Masking with a power of two less one is reduction modulo that power.
theorem toNat_and_mask {w k : Nat} (x size : BitVec w) (hsize : size.toNat = 2 ^ k) :
    (x &&& (size - 1)).toNat = x.toNat % size.toNat := by
  have hpos := Nat.two_pow_pos k
  have hlt := size.isLt
  have hmask : (size - 1).toNat = 2 ^ k - 1 := by
    cases w with
    | zero => simp at hlt; omega
    | succ w =>
        have h1 : (1 : BitVec (w + 1)).toNat = 1 := by simp
        rw [BitVec.toNat_sub_of_le (by rw [BitVec.le_def, h1]; omega), h1, hsize]
  rw [BitVec.toNat_and, hmask, hsize, Nat.and_two_pow_sub_one_eq_mod]

-- A power of two that fits the word divides its modulus.
theorem pow_dvd_of_toNat {w k : Nat} {size : BitVec w} (hsize : size.toNat = 2 ^ k) :
    size.toNat ∣ 2 ^ w := by
  have hlt := size.isLt
  rw [hsize] at hlt ⊢
  exact Nat.pow_dvd_pow 2 (Nat.le_of_lt ((Nat.pow_lt_pow_iff_right (by omega)).mp hlt))

end IgLibs.Word
