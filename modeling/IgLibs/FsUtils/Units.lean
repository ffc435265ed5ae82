import IgLibs.Printf
import IgLibs.Rounding
import IgLibs.Word
import Mathlib.Tactic.NormNum
import Mathlib.Tactic.Ring

namespace IgLibs

open Word Rounding

-- A double that is not negative: `num` of at most 53 binary digits, over a power of two. Dividing
-- it by another power of two is exact while the exponent has room.
structure Double where
  num : Nat
  scale : Nat

namespace Double

-- The conversion of a uint64_t, which rounds to nearest.
def of_uint64 (n : ULong) : Double := ⟨keep 53 n.toNat, 0⟩

def div_1024 (x : Double) : Double := { x with scale := x.scale + 10 }

-- What std::fixed writes with a precision of two, which is the exact value rounded to nearest.
def hundredths (x : Double) : Nat := nearest (100 * x.num) (2 ^ x.scale)

def fixed (x : Double) : List UInt8 :=
  Printf.digits (x.hundredths / 100) ++ 46 :: Printf.zero_padded 2 (x.hundredths % 100 : Nat)

end Double

namespace BossCommon

-- " Bytes", " KB", " MB", " GB", " TB", " PB", " EB", " ZB", " YB"
def unit : List (List UInt8) :=
  [[32, 66, 121, 116, 101, 115], [32, 75, 66], [32, 77, 66], [32, 71, 66], [32, 84, 66],
    [32, 80, 66], [32, 69, 66], [32, 90, 66], [32, 89, 66]]

-- The loop divides the whole number along with the double, and goes by the whole number.
def unit_loop (bytes : Nat) (result : Double) (count : Nat) : Double × Nat :=
  if 1024 ≤ bytes then
    if unit.length - 1 < count then (result, count)
    else unit_loop (bytes / 1024) result.div_1024 (count + 1)
  else (result, count)
termination_by bytes
decreasing_by omega

-- It has no result if it reads behind the units.
def convert_disk_size_unit (bytes : ULong) : Option (List UInt8) :=
  let (result, count) := unit_loop bytes.toNat (Double.of_uint64 bytes) 0
  (unit[count]?).map fun name => result.fixed ++ name

-- The unit that a number of bytes comes out in, and how many hundredths of it.
def unit_of (bytes : ULong) : Nat := Nat.log 1024 bytes.toNat

def hundredths_of (bytes : ULong) : Nat := nearest (100 * keep 53 bytes.toNat) (1024 ^ unit_of bytes)

section

variable {bytes other : ULong}

theorem unit_of_le (bytes : ULong) : unit_of bytes ≤ 6 := by
  have hlt : bytes.toNat < 1024 ^ 7 := lt_trans bytes.isLt (by norm_num)
  exact Nat.lt_succ_iff.mp (Nat.log_lt_of_lt_pow' (by norm_num) hlt)

-- The loop stops at the unit that the whole number calls for, and never behind the last one.
theorem unit_loop_eq (n : Nat) (result : Double) (count : Nat) (hfit : count + Nat.log 1024 n ≤ 8) :
    unit_loop n result count =
      (⟨result.num, result.scale + 10 * Nat.log 1024 n⟩, count + Nat.log 1024 n) := by
  induction n using Nat.strong_induction_on generalizing result count with
  | _ n ih =>
      rw [unit_loop]
      by_cases hbig : 1024 ≤ n
      · have hlog : Nat.log 1024 n = Nat.log 1024 (n / 1024) + 1 :=
          Nat.log_of_one_lt_of_le (by norm_num) hbig
        have hlast : ¬unit.length - 1 < count := by
          change ¬8 < count
          omega
        rw [if_pos hbig, if_neg hlast, ih (n / 1024) (by omega) _ _ (by omega), hlog]
        have hscale : result.scale + 10 + 10 * Nat.log 1024 (n / 1024) =
            result.scale + 10 * (Nat.log 1024 (n / 1024) + 1) := by omega
        have hcount : count + 1 + Nat.log 1024 (n / 1024) =
            count + (Nat.log 1024 (n / 1024) + 1) := by omega
        exact Prod.ext (congrArg (Double.mk result.num) hscale) hcount
      · rw [if_neg hbig, Nat.log_of_lt (by omega)]
        rfl

theorem convert_disk_size_unit_eq (bytes : ULong) :
    ∃ name, unit[unit_of bytes]? = some name ∧
      convert_disk_size_unit bytes = some (Printf.digits (hundredths_of bytes / 100) ++
        46 :: Printf.zero_padded 2 (hundredths_of bytes % 100 : Nat) ++ name) := by
  have hle := unit_of_le bytes
  have hlt : unit_of bytes < unit.length := by
    change unit_of bytes < 9
    omega
  have hloop := unit_loop_eq bytes.toNat (Double.of_uint64 bytes) 0 (by unfold unit_of at hle; omega)
  have hpow : 2 ^ (0 + 10 * Nat.log 1024 bytes.toNat) = 1024 ^ unit_of bytes := by
    rw [Nat.zero_add, Nat.pow_mul]
    rfl
  refine ⟨unit[unit_of bytes], List.getElem?_eq_getElem hlt, ?_⟩
  unfold convert_disk_size_unit
  rw [hloop]
  simp only [Nat.zero_add, Double.of_uint64]
  rw [show unit[Nat.log 1024 bytes.toNat]? = some unit[unit_of bytes] from
    List.getElem?_eq_getElem hlt, Option.map_some]
  simp only [Double.fixed, Double.hundredths, Nat.zero_add] at hpow ⊢
  rw [hpow]
  rfl

theorem pow_unit_of_le (hpos : bytes ≠ 0) : 1024 ^ unit_of bytes ≤ bytes.toNat := by
  apply Nat.pow_log_le_self
  intro hzero
  exact hpos (BitVec.eq_of_toNat_eq hzero)

theorem lt_pow_unit_of (bytes : ULong) : bytes.toNat < 1024 ^ (unit_of bytes + 1) :=
  Nat.lt_pow_succ_log_self (by norm_num) _

theorem unit_of_mono (h : other.toNat ≤ bytes.toNat) : unit_of other ≤ unit_of bytes :=
  Nat.log_mono_right h

theorem pow_1024 (k : Nat) : (1024 : Nat) ^ k = 2 ^ (10 * k) := by
  rw [Nat.pow_mul]

theorem hundredths_of_le (bytes : ULong) : hundredths_of bytes ≤ 100 * 1024 := by
  apply nearest_le (Nat.pow_pos (by norm_num))
  have hlt := (lt_pow_unit_of bytes).le
  rw [pow_1024] at hlt
  have hkeep := keep_le_two_pow (by norm_num : 0 < 53) hlt
  rw [← pow_1024, Nat.pow_succ] at hkeep
  calc 100 * keep 53 bytes.toNat ≤ 100 * (1024 ^ unit_of bytes * 1024) := Nat.mul_le_mul_left _ hkeep
    _ = 100 * 1024 * 1024 ^ unit_of bytes := by ring

theorem le_hundredths_of (hpos : bytes ≠ 0) : 100 ≤ hundredths_of bytes := by
  apply le_nearest (Nat.pow_pos (by norm_num))
  have hle := pow_unit_of_le hpos
  rw [pow_1024] at hle
  have hkeep := two_pow_le_keep (by norm_num : 0 < 53) hle
  rw [← pow_1024] at hkeep
  exact Nat.mul_le_mul_left 100 hkeep

-- More bytes never look like less, within a unit or across units.
theorem shown_mono (h : other.toNat ≤ bytes.toNat) :
    hundredths_of other * 1024 ^ unit_of other ≤ hundredths_of bytes * 1024 ^ unit_of bytes := by
  rcases Nat.lt_or_eq_of_le (unit_of_mono h) with hlt | heq
  · have hpos : bytes ≠ 0 := by
      rintro rfl
      have hzero : unit_of (0 : ULong) = 0 := by simp [unit_of]
      omega
    calc hundredths_of other * 1024 ^ unit_of other
        ≤ 100 * 1024 * 1024 ^ unit_of other := Nat.mul_le_mul_right _ (hundredths_of_le other)
      _ = 100 * 1024 ^ (unit_of other + 1) := by ring
      _ ≤ 100 * 1024 ^ unit_of bytes :=
          Nat.mul_le_mul_left _ (Nat.pow_le_pow_right (by norm_num) hlt)
      _ ≤ hundredths_of bytes * 1024 ^ unit_of bytes :=
          Nat.mul_le_mul_right _ (le_hundredths_of hpos)
  · rw [heq]
    apply Nat.mul_le_mul_right
    unfold hundredths_of
    rw [heq]
    exact nearest_mono (Nat.mul_le_mul_left _ (keep_mono (by norm_num) h))

-- Half a hundredth of the unit, and what the double leaves out.
theorem shown_error (bytes : ULong) :
    Near (1024 ^ unit_of bytes + 100 * 2 ^ (Nat.log2 bytes.toNat + 1 - 53)) (200 * bytes.toNat)
      (2 * (hundredths_of bytes * 1024 ^ unit_of bytes)) := by
  obtain ⟨hlo, hhi⟩ := keep_error 53 bytes.toNat
  obtain ⟨hlo', hhi'⟩ := nearest_error (d := 1024 ^ unit_of bytes) (Nat.pow_pos (by norm_num))
    (100 * keep 53 bytes.toNat)
  unfold hundredths_of Near
  omega

-- A double holds up to 53 digits in full.
theorem shown_error_of_lt (h : bytes.toNat < 2 ^ 53) :
    Near (1024 ^ unit_of bytes) (200 * bytes.toNat)
      (2 * (hundredths_of bytes * 1024 ^ unit_of bytes)) := by
  obtain ⟨hlo, hhi⟩ := nearest_error (d := 1024 ^ unit_of bytes) (Nat.pow_pos (by norm_num))
    (100 * keep 53 bytes.toNat)
  rw [keep_of_lt h] at hlo hhi
  unfold hundredths_of Near
  rw [keep_of_lt h]
  omega

end

-- Every size comes out in the greatest unit that it fills, with two decimals. The figure is off
-- by at most half of the last decimal, and from 2^53 on by what the double leaves out. It stays
-- between 1.00 and 1024.00, and more bytes never come out as less.
theorem disk_size_text :
    ∃ hundredths : ULong → Nat, ∀ bytes : ULong,
      (∃ name, unit[unit_of bytes]? = some name ∧
        convert_disk_size_unit bytes = some (Printf.digits (hundredths bytes / 100) ++
          46 :: Printf.zero_padded 2 (hundredths bytes % 100 : Nat) ++ name)) ∧
      Near (1024 ^ unit_of bytes + 100 * 2 ^ (Nat.log2 bytes.toNat + 1 - 53)) (200 * bytes.toNat)
        (2 * (hundredths bytes * 1024 ^ unit_of bytes)) ∧
      (bytes.toNat < 2 ^ 53 → Near (1024 ^ unit_of bytes) (200 * bytes.toNat)
        (2 * (hundredths bytes * 1024 ^ unit_of bytes))) ∧
      (bytes ≠ 0 → 100 ≤ hundredths bytes) ∧ hundredths bytes ≤ 102400 ∧
      ∀ other : ULong, other.toNat ≤ bytes.toNat →
        hundredths other * 1024 ^ unit_of other ≤ hundredths bytes * 1024 ^ unit_of bytes :=
  ⟨hundredths_of, fun bytes => ⟨convert_disk_size_unit_eq bytes, shown_error bytes,
    shown_error_of_lt, le_hundredths_of, hundredths_of_le bytes, fun _ => shown_mono⟩⟩

end BossCommon

end IgLibs
