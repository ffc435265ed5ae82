import IgLibs.StringUtils
import IgLibs.Utf8

namespace IgLibs.BossCommon

open Utf8

-- The masks test the high bits.
private theorem masks_of_nat : ∀ n : Fin 256,
    (UInt8.ofFin n &&& 0x80 = 0 ↔ n.val / 2 ^ 7 = 0b0) ∧
    (UInt8.ofFin n &&& 0xC0 = 0x80 ↔ n.val / 2 ^ 6 = 0b10) ∧
    (UInt8.ofFin n &&& 0xE0 = 0xC0 ↔ n.val / 2 ^ 5 = 0b110) ∧
    (UInt8.ofFin n &&& 0xF0 = 0xE0 ↔ n.val / 2 ^ 4 = 0b1110) ∧
    (UInt8.ofFin n &&& 0xF8 = 0xF0 ↔ n.val / 2 ^ 3 = 0b11110) := by
  decide +kernel

theorem continuation_iff (byte : UInt8) : byte &&& 0xC0 = 0x80 ↔ Continuation byte :=
  (masks_of_nat byte.toFin).2.1

-- The branches of the loop together are the width of a lead byte.
theorem width_eq (byte : UInt8) :
    width byte = if byte &&& 0x80 = 0 then some 1 else utf8_jump byte := by
  obtain ⟨h1, -, h2, h3, h4⟩ := masks_of_nat byte.toFin
  unfold width utf8_jump
  simp only [show UInt8.ofFin byte.toFin = byte from rfl] at h1 h2 h3 h4
  simp only [h1, h2, h3, h4]
  rfl

-- The inner loop checks the bytes between pos and i.
theorem is_utf8_tail_eq (s : List UInt8) (count : Nat) : ∀ fuel pos, count < fuel →
    pos + count ≤ s.length → is_utf8_tail s (pos + count) fuel pos =
      some (((s.drop pos).take count).all fun b => decide (Continuation b)) := by
  induction count with
  | zero =>
      intro fuel pos hfuel _
      obtain ⟨fuel, rfl⟩ := Nat.exists_eq_add_of_lt hfuel
      simp [is_utf8_tail]
  | succ count ih =>
      intro fuel pos hfuel hle
      cases fuel with
      | zero => omega
      | succ fuel =>
          have hpos : pos < s.length := by omega
          rw [is_utf8_tail, if_neg (by omega), List.getElem?_eq_getElem hpos,
            List.drop_eq_getElem_cons hpos]
          simp only [Option.bind_eq_bind, Option.bind_some, continuation_iff,
            List.take_succ_cons, List.all_cons]
          by_cases hcont : Continuation s[pos]
          · have hrest := ih fuel (pos + 1) (by omega) (by omega)
            rw [show pos + 1 + count = pos + (count + 1) by omega] at hrest
            rw [if_pos hcont, hrest, decide_eq_true hcont, Bool.true_and]
          · rw [if_neg hcont, decide_eq_false hcont, Bool.false_and]

theorem not_wellFormed_drop {s : List UInt8} {i : Nat} (hi : i < s.length)
    (hwidth : width s[i] = none) : ¬WellFormed (s.drop i) := by
  rw [List.drop_eq_getElem_cons hi, wellFormed_cons_iff, hwidth]
  simp

theorem wellFormed_drop_iff {s : List UInt8} {i count : Nat} (hi : i < s.length)
    (hwidth : width s[i] = some (count + 1)) :
    WellFormed (s.drop i) ↔ i + 1 + count ≤ s.length ∧
      (∀ b ∈ (s.drop (i + 1)).take count, Continuation b) ∧ WellFormed (s.drop (i + 1 + count)) := by
  have hlen : count ≤ s.length - (i + 1) ↔ i + 1 + count ≤ s.length := by omega
  rw [List.drop_eq_getElem_cons hi, wellFormed_cons_iff, hwidth]
  simp only [Option.some.injEq, Nat.add_right_cancel_iff, exists_eq_left', List.length_drop,
    List.drop_drop, hlen]

theorem one_le_utf8_jump {byte : UInt8} {jump : Nat} (h : utf8_jump byte = some jump) :
    1 ≤ jump := by
  unfold utf8_jump at h
  split_ifs at h <;> simp at h <;> omega

-- From the start of a block on, the loop tells whether the rest of the string is well formed.
theorem is_utf8_loop_eq (s : List UInt8) : ∀ fuel i, i ≤ s.length → s.length - i < fuel →
    is_utf8_loop s fuel i = some (decide (WellFormed (s.drop i))) := by
  intro fuel
  induction fuel with
  | zero => intro i _ hfuel; omega
  | succ fuel ih =>
      intro i hi hfuel
      by_cases hend : i = s.length
      · have hnil : WellFormed (s.drop i) := by
          rw [hend, List.drop_length]
          exact ⟨[], .nil⟩
        rw [is_utf8_loop, if_pos hend, decide_eq_true hnil]
      have hlt : i < s.length := by omega
      rw [is_utf8_loop, if_neg hend, List.getElem?_eq_getElem hlt]
      have hwidth := width_eq s[i]
      simp only [Option.bind_eq_bind, Option.bind_some]
      by_cases hone : s[i] &&& 0x80 = 0
      · rw [if_pos hone] at hwidth ⊢
        rw [ih (i + 1) (by omega) (by omega)]
        congr 2
        rw [eq_iff_iff, @wellFormed_drop_iff s i 0 hlt hwidth]
        exact ⟨fun h => ⟨by omega, by simp, h⟩, fun h => h.2.2⟩
      rw [if_neg hone] at hwidth ⊢
      cases hjump : utf8_jump s[i] with
      | none => rw [decide_eq_false (not_wellFormed_drop hlt (hwidth.trans hjump))]
      | some jump =>
          obtain ⟨count, rfl⟩ : ∃ count, jump = count + 1 :=
            ⟨jump - 1, by have := one_le_utf8_jump hjump; omega⟩
          have hcut := wellFormed_drop_iff hlt (hwidth.trans hjump)
          simp only [show i + (count + 1) = i + 1 + count by omega]
          by_cases hpast : i + 1 + count > s.length
          · rw [if_pos hpast, decide_eq_false fun h => absurd (hcut.mp h).1 (by omega)]
          rw [if_neg hpast, is_utf8_tail_eq s count fuel (i + 1) (by omega) (by omega),
            Option.bind_some]
          by_cases htail : ∀ b ∈ (s.drop (i + 1)).take count, Continuation b
          · rw [if_pos (by simpa using htail), ih _ (by omega) (by omega)]
            congr 2
            rw [eq_iff_iff, hcut]
            exact ⟨fun h => ⟨by omega, htail, h⟩, fun h => h.2.2⟩
          · rw [if_neg (by simpa using htail), decide_eq_false fun h => htail (hcut.mp h).2.1]

theorem is_utf8_eq {fuel : Nat} {s : List UInt8} (hfuel : s.length < fuel) :
    is_utf8 fuel s = some (decide (WellFormed s)) :=
  is_utf8_loop_eq s fuel 0 (by omega) (by omega)

-- The function returns on every string, without a read past its end, and accepts the
-- concatenations of blocks.
theorem is_utf8_iff_concatenation (s : List UInt8) :
    ∃ result, (∀ fuel > s.length, is_utf8 fuel s = some result) ∧
      (result = true ↔ ∃ bs : List (List UInt8), bs.flatten = s ∧ ∀ block ∈ bs, Block block) := by
  refine ⟨decide (WellFormed s), fun fuel hfuel => is_utf8_eq hfuel, ?_⟩
  rw [decide_eq_true_iff]
  rfl

def Accepted (s : List UInt8) : Prop := is_utf8 (s.length + 1) s = some true

instance : DecidablePred Accepted := fun s =>
  inferInstanceAs (Decidable (is_utf8 (s.length + 1) s = some true))

theorem accepted_iff {s : List UInt8} : Accepted s ↔ WellFormed s := by
  rw [Accepted, is_utf8_eq (Nat.lt_succ_self _), Option.some.injEq, decide_eq_true_iff]

-- Two accepted strings decode within the ranges, survive decoding and encoding, and are told
-- apart by their code points exactly when neither of them has an overlong block.
theorem utf8_round_trip_iff {s t : List UInt8} (hs : Accepted s) (ht : Accepted t) :
    ((∀ block ∈ blocks s ++ blocks t, InRange block) ∧ encode (decode s) = s ∧
        encode (decode t) = t ∧ (decode s = decode t → s = t)) ↔
      ∀ block ∈ blocks s ++ blocks t, ¬Overlong block := by
  rw [accepted_iff] at hs ht
  have hblocks : ∀ block ∈ blocks s ++ blocks t, Block block := by
    intro block hmem
    cases List.mem_append.mp hmem with
    | inl hmem => exact hs.cut.2 block hmem
    | inr hmem => exact ht.cut.2 block hmem
  constructor
  · rintro ⟨hrange, -⟩ block hmem
    exact (inRange_iff (hblocks block hmem)).mp (hrange block hmem)
  · intro hno
    have hrange : ∀ block ∈ blocks s ++ blocks t, InRange block :=
      fun block hmem => (inRange_iff (hblocks block hmem)).mpr (hno block hmem)
    have hs' := encode_decode hs fun block hmem => hrange block (List.mem_append_left _ hmem)
    have ht' := encode_decode ht fun block hmem => hrange block (List.mem_append_right _ hmem)
    refine ⟨hrange, hs', ht', fun heq => ?_⟩
    rw [← hs', heq, ht']

-- An e with an acute accent behind an A, and a euro sign.
theorem utf8_round_trip_iff_multibyte :
    encode (decode [0x41, 0xC3, 0xA9]) = [0x41, 0xC3, 0xA9] ∧
      encode (decode [0xE2, 0x82, 0xAC]) = [0xE2, 0x82, 0xAC] ∧
      decode [0x41, 0xC3, 0xA9] ≠ decode [0xE2, 0x82, 0xAC] := by
  have hs : Accepted [0x41, 0xC3, 0xA9] := by decide
  have ht : Accepted [0xE2, 0x82, 0xAC] := by decide
  obtain ⟨-, hencoded, hencoded', hapart⟩ := (utf8_round_trip_iff hs ht).mpr (by decide)
  exact ⟨hencoded, hencoded', fun heq => absurd (hapart heq) (by decide)⟩

-- C0 80 spells code point 0 in two bytes, and is accepted.
theorem overlong_zero_accepted :
    Accepted [0xC0, 0x80] ∧ Accepted [0x00] ∧ ¬(∀ block ∈ blocks [0xC0, 0x80], InRange block) ∧
      encode (decode [0xC0, 0x80]) ≠ [0xC0, 0x80] ∧
      decode [0xC0, 0x80] = decode [0x00] ∧ [0xC0, 0x80] ≠ ([0x00] : List UInt8) := by
  decide

end IgLibs.BossCommon
