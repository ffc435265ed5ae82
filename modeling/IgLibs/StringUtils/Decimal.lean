import IgLibs.StringUtils

namespace IgLibs.BossCommon

open CString

-- The decimal numbers that a uint32_t can hold, with any number of leading zeros.
structure IsUInt32 (text : List UInt8) : Prop where
  nonempty : text ≠ []
  digits : ∀ b ∈ text, isdigit b = true
  bound : decimal text < 2 ^ 32

section

variable {text : List UInt8}

-- A text of digits is read whole, from its first character on.
theorem extract_of_digits (hne : text ≠ []) (hdigits : ∀ b ∈ text, isdigit b = true)
    (out : BitVec 32) : extract text out = uint32_of_digits false text := by
  cases text with
  | nil => exact absurd rfl hne
  | cons b rest =>
      obtain ⟨hspace, hminus, hplus⟩ := isdigit_spec (hdigits b (by simp))
      rw [extract, List.dropWhile_cons_of_neg (by simp [hspace])]
      split
      · rename_i heq
        cases heq
      · rename_i heq
        exact absurd (List.cons.inj heq).1 hminus
      · rename_i heq
        exact absurd (List.cons.inj heq).1 hplus
      · rw [List.takeWhile_eq_self_iff.mpr hdigits]

-- A number that does not fit stops at the largest one that does.
theorem toNat_strtodigit (hne : text ≠ []) (hdigits : ∀ b ∈ text, isdigit b = true)
    (out : BitVec 32) : (strtodigit text out).toNat = min (decimal text) (2 ^ 32 - 1) := by
  rw [strtodigit, extract_of_digits hne hdigits, uint32_of_digits, if_neg hne]
  split
  · rw [BitVec.toNat_allOnes]
    omega
  · change (BitVec.ofNat 32 (decimal text)).toNat = _
    rw [BitVec.toNat_ofNat]
    omega

-- The string that p_str points to ends at its NUL, so is_all_digit looks at all of it.
theorem is_all_digit_c_str_iff (s : List UInt8) :
    is_all_digit (c_str s) = true ↔ c_str s ≠ [] ∧ ∀ b ∈ c_str s, isdigit b = true := by
  have hzero : 0 ∉ c_str s := by
    intro hmem
    exact absurd (List.mem_takeWhile_imp hmem) (by decide)
  rw [is_all_digit, c_str_of_notMem hzero]
  by_cases hnil : c_str s = []
  · simp [hnil]
  · simp [hnil]

theorem str2int_returns_zero_iff (p_str : List UInt8) (out : BitVec 32) :
    (str2int (some p_str) out).1 = 0 ↔
      c_str p_str ≠ [] ∧ ∀ b ∈ c_str p_str, isdigit b = true := by
  rw [← is_all_digit_c_str_iff, str2int]
  split
  · rename_i hdigit
    exact iff_of_true rfl hdigit
  · rename_i hdigit
    exact iff_of_false (show (-1 : Int) ≠ 0 by decide) hdigit

theorem str2int_out {p_str : List UInt8} (out : BitVec 32) (hne : c_str p_str ≠ [])
    (hdigits : ∀ b ∈ c_str p_str, isdigit b = true) :
    (str2int (some p_str) out).2.toNat = min (decimal (c_str p_str)) (2 ^ 32 - 1) := by
  rw [str2int]
  rw [if_pos ((is_all_digit_c_str_iff p_str).mpr ⟨hne, hdigits⟩)]
  exact toNat_strtodigit hne hdigits out

end

-- str2int takes exactly the numbers of 32 bits, and with their value, unless the string spells
-- a number that is too large: that one it takes as well.
theorem str2int_exact_iff (p_str : List UInt8) (out : BitVec 32) :
    (((str2int (some p_str) out).1 = 0 ↔ IsUInt32 (c_str p_str)) ∧
      ((str2int (some p_str) out).1 = 0 →
        (str2int (some p_str) out).2.toNat = decimal (c_str p_str))) ↔
    ¬(c_str p_str ≠ [] ∧ (∀ b ∈ c_str p_str, isdigit b = true) ∧
      2 ^ 32 ≤ decimal (c_str p_str)) := by
  rw [str2int_returns_zero_iff]
  constructor
  · rintro ⟨haccepts, -⟩ ⟨hne, hdigits, hlarge⟩
    have hbound := (haccepts.mp ⟨hne, hdigits⟩).bound
    omega
  · intro hno
    have hsmall : c_str p_str ≠ [] → (∀ b ∈ c_str p_str, isdigit b = true) →
        decimal (c_str p_str) < 2 ^ 32 := by
      intro hne hdigits
      by_contra hlarge
      exact hno ⟨hne, hdigits, by omega⟩
    constructor
    · constructor
      · exact fun h => ⟨h.1, h.2, hsmall h.1 h.2⟩
      · exact fun h => ⟨h.nonempty, h.digits⟩
    · rintro ⟨hne, hdigits⟩
      have hlt := hsmall hne hdigits
      rw [str2int_out out hne hdigits]
      omega

-- 4294967296 = 2^32 is taken for 4294967295.
theorem str2int_takes_too_large :
    let p_str : List UInt8 := [52, 50, 57, 52, 57, 54, 55, 50, 57, 54]
    decimal (c_str p_str) = 2 ^ 32 ∧ str2int (some p_str) 0 = (0, 4294967295) ∧
      ¬IsUInt32 (c_str p_str) :=
  ⟨by decide, by decide, fun h => absurd h.bound (by decide)⟩

end IgLibs.BossCommon
