import IgLibs.RingBuffer.Theorems

namespace IgLibs

open Word CMemory

theorem is_power_of_2_iff (n : ULong) : is_power_of_2 n = true ↔ ∃ k, n.toNat = 2 ^ k := by
  have hzero : n = 0 ↔ n.toNat = 0 := by
    rw [← BitVec.toNat_inj]
    rfl
  have hand : n &&& (n - 1) = 0 ↔ n.toNat &&& (n - 1).toNat = 0 := by
    rw [← BitVec.toNat_inj, BitVec.toNat_and]
    rfl
  rw [is_power_of_2, Bool.and_eq_true, bne_iff_ne, beq_iff_eq, ne_eq, hand, hzero]
  have hpow := Nat.ne_zero_and_sub_one_eq_zero_iff_isPowerOfTwo (n := n.toNat)
  rw [Nat.isPowerOfTwo] at hpow
  rw [← hpow]
  refine and_congr_right fun hn => ?_
  have hsub : (n - 1).toNat = n.toNat - 1 := by bv_omega
  rw [hsub]

-- The shift is by the position of the highest bit, so it never leaves the word.
theorem toNat_roundup_pow_of_two {n : ULong} (hn : n ≠ 0) :
    (roundup_pow_of_two n).toNat = 2 ^ (63 - n.clz.toNat) := by
  have hclz : n.clz.toNat < 64 := BitVec.lt_def.mp (BitVec.clz_lt_iff_ne_zero.mpr hn)
  have hshift : (8 * 8#64 - n.clz - 1).toNat = 63 - n.clz.toNat := by bv_omega
  have hlt : 2 ^ (63 - n.clz.toNat) < 2 ^ 64 := Nat.pow_lt_pow_right (by omega) (by omega)
  unfold roundup_pow_of_two
  rw [if_neg hn, BitVec.shiftLeft_eq', hshift, BitVec.toNat_shiftLeft, Nat.shiftLeft_eq]
  simpa using Nat.mod_eq_of_lt hlt

theorem roundup_pow_of_two_eq_zero_or (n : ULong) :
    roundup_pow_of_two n = 0 ∨ ∃ k, (roundup_pow_of_two n).toNat = 2 ^ k := by
  by_cases hn : n = 0
  · exact .inl (by rw [roundup_pow_of_two, if_pos hn])
  · exact .inr ⟨_, toNat_roundup_pow_of_two hn⟩

-- It rounds down, to the highest bit of its argument.
theorem roundup_pow_of_two_bounds {n : ULong} (hn : n ≠ 0) :
    (roundup_pow_of_two n).toNat ≤ n.toNat ∧ n.toNat < 2 * (roundup_pow_of_two n).toNat := by
  have hclz : n.clz.toNat < 64 := BitVec.lt_def.mp (BitVec.clz_lt_iff_ne_zero.mpr hn)
  have hlow := BitVec.two_pow_sub_clz_le_toNat_of_ne_zero (by omega) hn
  have hhigh := BitVec.toNat_lt_two_pow_sub_clz (x := n)
  rw [toNat_roundup_pow_of_two hn, ← Nat.pow_succ']
  constructor
  · rwa [show 63 - n.clz.toNat = 64 - 1 - n.clz.toNat by omega]
  · rwa [show (63 - n.clz.toNat).succ = 64 - n.clz.toNat by omega]

namespace RingBuffer

-- A successful allocation is an empty ring whose size is a power of two.
theorem ring_buffer_alloc_represents (rb : RingBuffer) (size : ULong)
    (memory : Option (Nat → UInt8)) (hok : (rb.ring_buffer_alloc size memory).2 ≠ 0) :
    ∃ mem, Represents (rb.ring_buffer_alloc size memory).1 mem [] ∧
      (rb.ring_buffer_alloc size memory).1.m_size = (rb.ring_buffer_alloc size memory).2 := by
  obtain ⟨actual, ha⟩ : ∃ actual, (if is_power_of_2 size then size else roundup_pow_of_two size) =
    actual := ⟨_, rfl⟩
  have hpow : actual = 0 ∨ ∃ k, actual.toNat = 2 ^ k := by
    rw [← ha]
    split
    · rename_i h
      exact .inr ((is_power_of_2_iff size).mp h)
    · exact roundup_pow_of_two_eq_zero_or size
  simp only [ring_buffer_alloc, ha] at hok ⊢
  by_cases hzero : actual = 0
  · simp [hzero] at hok
  rw [if_neg hzero] at hok ⊢
  cases memory with
  | none => exact absurd rfl hok
  | some contents =>
      exact ⟨(List.range actual.toNat).map contents,
        represents_empty _ _ rfl (by simp [ring_buffer_reset]) (hpow.resolve_left hzero) rfl, rfl⟩

-- A failed allocation touches no number of the ring.
theorem ring_buffer_alloc_fails (rb : RingBuffer) (size : ULong)
    (memory : Option (Nat → UInt8)) (hfail : (rb.ring_buffer_alloc size memory).2 = 0) :
    (rb.ring_buffer_alloc size memory).1 = rb ∨
      (rb.ring_buffer_alloc size memory).1 = { rb with m_buffer := none } := by
  obtain ⟨actual, ha⟩ : ∃ actual, (if is_power_of_2 size then size else roundup_pow_of_two size) =
    actual := ⟨_, rfl⟩
  simp only [ring_buffer_alloc, ha] at hfail ⊢
  by_cases hzero : actual = 0
  · exact .inl (by rw [if_pos hzero])
  · rw [if_neg hzero] at hfail ⊢
    cases memory with
    | none => exact .inr rfl
    | some contents => exact absurd hfail hzero

end RingBuffer

end IgLibs
