import IgLibs.RingBuffer.Alloc
import Mathlib.Order.Bounds.Basic

namespace IgLibs.RingBuffer

open Word CMemory

def PowersOfTwo : Set Nat := {p | ∃ k, p = 2 ^ k}

-- The smallest power of two that `size` bytes fit in.
def LeastPower (size p : Nat) : Prop := IsLeast {p | p ∈ PowersOfTwo ∧ size ≤ p} p

theorem leastPower_self {size : Nat} (hsize : size ∈ PowersOfTwo) : LeastPower size size :=
  ⟨⟨hsize, Nat.le_refl _⟩, fun _ hp => hp.2⟩

-- What ring_buffer_alloc does with a size: it takes the largest power of two inside it.
theorem ring_buffer_alloc_isGreatest (rb : RingBuffer) (size : ULong) (contents : Nat → UInt8)
    (hsize : size ≠ 0) :
    (rb.ring_buffer_alloc size (some contents)).1.m_size =
        (rb.ring_buffer_alloc size (some contents)).2 ∧
      IsGreatest {p | p ∈ PowersOfTwo ∧ p ≤ size.toNat}
        (rb.ring_buffer_alloc size (some contents)).2.toNat := by
  obtain ⟨actual, ha⟩ : ∃ actual, (if is_power_of_2 size then size else roundup_pow_of_two size) =
    actual := ⟨_, rfl⟩
  have hactual : IsGreatest {p | p ∈ PowersOfTwo ∧ p ≤ size.toNat} actual.toNat := by
    by_cases hpow : is_power_of_2 size = true
    · rw [if_pos hpow] at ha
      subst ha
      exact ⟨⟨(is_power_of_2_iff size).mp hpow, Nat.le_refl _⟩, fun _ hp => hp.2⟩
    · rw [if_neg hpow] at ha
      subst ha
      obtain ⟨hle, hlt⟩ := roundup_pow_of_two_bounds hsize
      have hround := toNat_roundup_pow_of_two hsize
      refine ⟨⟨⟨_, hround⟩, hle⟩, ?_⟩
      rintro p ⟨⟨j, rfl⟩, hp⟩
      -- the next power of two is already above the size
      rw [hround, ← Nat.pow_succ'] at hlt
      rw [hround]
      have hj := (Nat.pow_lt_pow_iff_right (by omega)).mp (Nat.lt_of_le_of_lt hp hlt)
      exact Nat.pow_le_pow_right (by omega) (Nat.le_of_lt_succ hj)
  have hne : actual ≠ 0 := by
    rintro rfl
    obtain ⟨k, hk⟩ := hactual.1.1
    exact absurd hk (Nat.two_pow_pos k).ne
  simp only [ring_buffer_alloc, ha, if_neg hne, ring_buffer_reset]
  exact ⟨trivial, hactual⟩

-- A ring allocated for `size` bytes can hold that many.
structure Sufficient (rb : RingBuffer) (size : ULong) (contents : Nat → UInt8) : Prop where
  roundup : LeastPower size.toNat (roundup_pow_of_two size).toNat
  returned : LeastPower size.toNat (rb.ring_buffer_alloc size (some contents)).2.toNat
  m_size : LeastPower size.toNat (rb.ring_buffer_alloc size (some contents)).1.m_size.toNat
  whole : ∀ src : Span, src.len = size → ∃ next,
    (rb.ring_buffer_alloc size (some contents)).1.ring_buffer_write src.bytes src.len =
      some (next, size)

theorem roundup_leastPower_iff {size : ULong} (hsize : size ≠ 0) :
    LeastPower size.toNat (roundup_pow_of_two size).toNat ↔ size.toNat ∈ PowersOfTwo := by
  obtain ⟨hle, hlt⟩ := roundup_pow_of_two_bounds hsize
  have hround := toNat_roundup_pow_of_two hsize
  constructor
  · intro hleast
    have he : size.toNat = (roundup_pow_of_two size).toNat := Nat.le_antisymm hleast.1.2 hle
    exact ⟨_, he.trans hround⟩
  · rintro ⟨k, hk⟩
    have he : (roundup_pow_of_two size).toNat = size.toNat := by
      rw [hround, ← Nat.pow_succ', hk] at hlt
      rw [hround, hk] at hle ⊢
      have hlow := (Nat.pow_le_pow_iff_right (by omega)).mp hle
      have hhigh := (Nat.pow_lt_pow_iff_right (by omega)).mp hlt
      congr 1
      omega
    rw [he]
    exact leastPower_self ⟨k, hk⟩

section

variable (rb : RingBuffer) {size : ULong} (contents : Nat → UInt8)

-- Rounding down, an allocation is as large as it was asked to be only for a power of two.
theorem alloc_eq_iff (hsize : size ≠ 0) :
    (rb.ring_buffer_alloc size (some contents)).2 = size ↔ size.toNat ∈ PowersOfTwo := by
  obtain ⟨-, ⟨hpow, hle⟩, hgreatest⟩ := rb.ring_buffer_alloc_isGreatest size contents hsize
  constructor
  · intro he
    rwa [he] at hpow
  · intro hmem
    exact BitVec.eq_of_toNat_eq (Nat.le_antisymm hle (hgreatest ⟨hmem, Nat.le_refl _⟩))

theorem alloc_leastPower_iff (hsize : size ≠ 0) :
    LeastPower size.toNat (rb.ring_buffer_alloc size (some contents)).2.toNat ↔
      size.toNat ∈ PowersOfTwo := by
  obtain ⟨-, ⟨-, hle⟩, -⟩ := rb.ring_buffer_alloc_isGreatest size contents hsize
  constructor
  · intro hleast
    apply (rb.alloc_eq_iff contents hsize).mp
    exact BitVec.eq_of_toNat_eq (Nat.le_antisymm hle hleast.1.2)
  · intro hmem
    rw [(rb.alloc_eq_iff contents hsize).mpr hmem]
    exact leastPower_self hmem

theorem alloc_write_eq (hsize : size ≠ 0) (src : Span) (hsrc : src.len = size) :
    ∃ next n, (rb.ring_buffer_alloc size (some contents)).1.ring_buffer_write src.bytes src.len =
        some (next, n) ∧ n = (rb.ring_buffer_alloc size (some contents)).2 := by
  obtain ⟨hfield, ⟨⟨k, hk⟩, hle⟩, -⟩ := rb.ring_buffer_alloc_isGreatest size contents hsize
  have hok : (rb.ring_buffer_alloc size (some contents)).2 ≠ 0 := by
    intro he
    rw [he] at hk
    exact absurd hk (Nat.two_pow_pos k).ne
  obtain ⟨mem, hrep, -⟩ := ring_buffer_alloc_represents rb size (some contents) hok
  obtain ⟨next, _, n, hcall, hn, -, -⟩ := hrep.write src
  refine ⟨next, n, hcall, BitVec.eq_of_toNat_eq ?_⟩
  rw [hn, hsrc, hfield, List.length_nil]
  omega

theorem alloc_write_whole_iff (hsize : size ≠ 0) :
    (∀ src : Span, src.len = size → ∃ next,
      (rb.ring_buffer_alloc size (some contents)).1.ring_buffer_write src.bytes src.len =
        some (next, size)) ↔ size.toNat ∈ PowersOfTwo := by
  rw [← rb.alloc_eq_iff contents hsize]
  constructor
  · intro hall
    let src : Span := ⟨List.replicate size.toNat 0, size, by rw [List.length_replicate]⟩
    obtain ⟨next, hwhole⟩ := hall src rfl
    obtain ⟨_, n, hcall, hn⟩ := rb.alloc_write_eq contents hsize src rfl
    have he : (next, size) = (_, n) := Option.some.inj (hwhole.symm.trans hcall)
    exact hn.symm.trans (congrArg Prod.snd he).symm
  · intro he src hsrc
    obtain ⟨next, n, hcall, hn⟩ := rb.alloc_write_eq contents hsize src hsrc
    exact ⟨next, by rw [hcall, hn, he]⟩

-- ring_buffer_alloc gives what it was asked for exactly for the powers of two; for any other
-- size the rounding goes the wrong way.
theorem sufficient_iff (hlo : 1 ≤ size.toNat) :
    Sufficient rb size contents ↔ ∃ k, size.toNat = 2 ^ k := by
  have hsize : size ≠ 0 := by
    rintro rfl
    exact absurd hlo (by decide)
  have hfield := (rb.ring_buffer_alloc_isGreatest size contents hsize).1
  have hreturned := rb.alloc_leastPower_iff contents hsize
  constructor
  · intro h
    exact (roundup_leastPower_iff hsize).mp h.roundup
  · intro hpow
    exact ⟨(roundup_leastPower_iff hsize).mpr hpow, hreturned.mpr hpow,
      hfield ▸ hreturned.mpr hpow, (rb.alloc_write_whole_iff contents hsize).mpr hpow⟩

end

theorem sufficient_iff_eight : Sufficient new 8 (fun _ => 0) ↔ ∃ k, (8 : ULong).toNat = 2 ^ k :=
  sufficient_iff new (fun _ => 0) (by decide)

-- Three bytes are asked for and a ring of two is handed out.
theorem alloc_three_not_sufficient : ¬Sufficient new 3 (fun _ => 0) := by
  intro h
  have hle : (3 : ULong).toNat ≤ (roundup_pow_of_two 3).toNat := h.roundup.1.2
  exact absurd hle (by decide)

end IgLibs.RingBuffer
