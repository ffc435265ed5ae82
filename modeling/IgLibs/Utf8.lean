import Mathlib.Algebra.Ring.Nat
import Mathlib.Data.List.SplitBy

namespace IgLibs.Utf8

-- 10xxxxxx
abbrev Continuation (b : UInt8) : Prop := b.toNat / 2 ^ 6 = 0b10

-- One row of the table each: the high bits of the lead byte, then the continuation bytes.
inductive Block : List UInt8 → Prop
  | one {a : UInt8} (ha : a.toNat / 2 ^ 7 = 0b0) : Block [a]
  | two {a b : UInt8} (ha : a.toNat / 2 ^ 5 = 0b110) (hb : Continuation b) : Block [a, b]
  | three {a b c : UInt8} (ha : a.toNat / 2 ^ 4 = 0b1110) (hb : Continuation b)
      (hc : Continuation c) : Block [a, b, c]
  | four {a b c d : UInt8} (ha : a.toNat / 2 ^ 3 = 0b11110) (hb : Continuation b)
      (hc : Continuation c) (hd : Continuation d) : Block [a, b, c, d]

-- A string cut into blocks.
def Cut (s : List UInt8) (bs : List (List UInt8)) : Prop :=
  bs.flatten = s ∧ ∀ block ∈ bs, Block block

def WellFormed (s : List UInt8) : Prop := ∃ bs, Cut s bs

-- How many bytes a lead byte announces, itself included.
def width (a : UInt8) : Option Nat :=
  if a.toNat / 2 ^ 7 = 0b0 then some 1
  else if a.toNat / 2 ^ 5 = 0b110 then some 2
  else if a.toNat / 2 ^ 4 = 0b1110 then some 3
  else if a.toNat / 2 ^ 3 = 0b11110 then some 4
  else none

-- Every byte that does not continue the block before it opens the next one.
def blocks (s : List UInt8) : List (List UInt8) :=
  s.splitBy fun _ b => decide (Continuation b)

-- The x bits of a block.
def code_point : List UInt8 → Nat
  | [a] => a.toNat % 2 ^ 7
  | [a, b] => a.toNat % 2 ^ 5 * 2 ^ 6 + b.toNat % 2 ^ 6
  | [a, b, c] => a.toNat % 2 ^ 4 * 2 ^ 12 + b.toNat % 2 ^ 6 * 2 ^ 6 + c.toNat % 2 ^ 6
  | [a, b, c, d] => a.toNat % 2 ^ 3 * 2 ^ 18 + b.toNat % 2 ^ 6 * 2 ^ 12 +
      c.toNat % 2 ^ 6 * 2 ^ 6 + d.toNat % 2 ^ 6
  | _ => 0

-- The first and the last code point of the row with a given number of bytes.
def range : Nat → Nat × Nat
  | 1 => (0x0, 0x7F)
  | 2 => (0x80, 0x7FF)
  | 3 => (0x800, 0xFFFF)
  | _ => (0x10000, 0x1FFFFF)

def encode_point (n : Nat) : List UInt8 :=
  let continuation := fun shift => UInt8.ofNat (0x80 + n / 2 ^ shift % 2 ^ 6)
  if n ≤ 0x7F then [UInt8.ofNat n]
  else if n ≤ 0x7FF then [UInt8.ofNat (0xC0 + n / 2 ^ 6), continuation 0]
  else if n ≤ 0xFFFF then [UInt8.ofNat (0xE0 + n / 2 ^ 12), continuation 6, continuation 0]
  else [UInt8.ofNat (0xF0 + n / 2 ^ 18), continuation 12, continuation 6, continuation 0]

def decode (s : List UInt8) : List Nat := (blocks s).map code_point

def encode (points : List Nat) : List UInt8 := points.flatMap encode_point

abbrev InRange (block : List UInt8) : Prop :=
  (range block.length).1 ≤ code_point block ∧ code_point block ≤ (range block.length).2

-- The lead bytes, and the second bytes after a lead byte without x bits set, that spell a
-- code point of a shorter row.
def Overlong : List UInt8 → Prop
  | [a, _] => a = 0xC0 ∨ a = 0xC1
  | [a, b, _] => a = 0xE0 ∧ b < 0xA0
  | [a, b, _, _] => a = 0xF0 ∧ b < 0x90
  | _ => False

instance : DecidablePred Overlong
  | [] | [_] | _ :: _ :: _ :: _ :: _ :: _ => .isFalse id
  | [a, _] => inferInstanceAs (Decidable (a = 0xC0 ∨ a = 0xC1))
  | [a, b, _] => inferInstanceAs (Decidable (a = 0xE0 ∧ b < 0xA0))
  | [a, b, _, _] => inferInstanceAs (Decidable (a = 0xF0 ∧ b < 0x90))

theorem Block.ne_nil {block : List UInt8} (h : Block block) : block ≠ [] := by
  cases h <;> simp

theorem block_cons_iff {a : UInt8} {tail : List UInt8} :
    Block (a :: tail) ↔ width a = some (tail.length + 1) ∧ ∀ b ∈ tail, Continuation b := by
  constructor
  · intro h
    cases h with
    | one ha =>
        refine ⟨?_, by simp⟩
        rw [width, if_pos ha]
        rfl
    | two ha hb =>
        refine ⟨?_, by simpa using hb⟩
        rw [width, if_neg (by omega), if_pos ha]
        rfl
    | three ha hb hc =>
        refine ⟨?_, by simpa using ⟨hb, hc⟩⟩
        rw [width, if_neg (by omega), if_neg (by omega), if_pos ha]
        rfl
    | four ha hb hc hd =>
        refine ⟨?_, by simpa using ⟨hb, hc, hd⟩⟩
        rw [width, if_neg (by omega), if_neg (by omega), if_neg (by omega), if_pos ha]
        rfl
  · rintro ⟨hwidth, htail⟩
    unfold width at hwidth
    split_ifs at hwidth with h1 h2 h3 h4
    · obtain rfl : tail = [] := List.eq_nil_of_length_eq_zero (by simpa using hwidth)
      exact .one h1
    · obtain ⟨b, rfl⟩ := List.length_eq_one_iff.mp (by simpa using hwidth.symm)
      exact .two h2 (htail b (by simp))
    · obtain ⟨b, c, rfl⟩ := List.length_eq_two.mp (by simpa using hwidth.symm)
      exact .three h3 (htail b (by simp)) (htail c (by simp))
    · obtain ⟨b, c, d, rfl⟩ := List.length_eq_three.mp (by simpa using hwidth.symm)
      exact .four h4 (htail b (by simp)) (htail c (by simp)) (htail d (by simp))

-- A continuation byte leads no block.
theorem width_of_continuation {b : UInt8} (h : Continuation b) : width b = none := by
  rw [width, if_neg (by omega), if_neg (by omega), if_neg (by omega), if_neg (by omega)]

theorem Cut.cons {s block : List UInt8} {bs : List (List UInt8)} (hblock : Block block)
    (h : Cut s bs) : Cut (block ++ s) (block :: bs) := by
  refine ⟨by rw [List.flatten_cons, h.1], ?_⟩
  intro other hmem
  cases List.mem_cons.mp hmem with
  | inl heq => exact heq ▸ hblock
  | inr hmem => exact h.2 other hmem

theorem Cut.nil : Cut [] [] := ⟨rfl, by simp⟩

-- A nonempty string is cut at the width of its lead byte.
theorem wellFormed_cons_iff {a : UInt8} {rest : List UInt8} :
    WellFormed (a :: rest) ↔ ∃ n, width a = some (n + 1) ∧ n ≤ rest.length ∧
      (∀ b ∈ rest.take n, Continuation b) ∧ WellFormed (rest.drop n) := by
  constructor
  · rintro ⟨bs, hflat, hbs⟩
    cases bs with
    | nil => simp at hflat
    | cons block bs =>
        cases block with
        | nil => exact absurd rfl (hbs [] (by simp)).ne_nil
        | cons b tail =>
            obtain ⟨rfl, rfl⟩ : b = a ∧ tail ++ bs.flatten = rest := by simpa using hflat
            obtain ⟨hwidth, htail⟩ := block_cons_iff.mp (hbs (b :: tail) (by simp))
            refine ⟨tail.length, hwidth, by simp, by simpa using htail, bs, by simp, ?_⟩
            exact fun block hmem => hbs block (by simp [hmem])
  · rintro ⟨n, hwidth, hle, htail, bs, hcut⟩
    have hblock : Block (a :: rest.take n) := by
      refine block_cons_iff.mpr ⟨?_, htail⟩
      rw [hwidth, List.length_take, Nat.min_eq_left hle]
    have hall := hcut.cons hblock
    rw [List.cons_append, List.take_append_drop] at hall
    exact ⟨_, hall⟩

-- There is one way only to cut a string into blocks.
theorem blocks_of_cut {s : List UInt8} {bs : List (List UInt8)} (h : Cut s bs) :
    blocks s = bs := by
  obtain ⟨rfl, hbs⟩ := h
  apply List.splitBy_flatten
  · exact fun hmem => (hbs [] hmem).ne_nil rfl
  · intro block hmem
    cases block with
    | nil => exact .nil
    | cons a tail =>
        have htail := (block_cons_iff.mp (hbs _ hmem)).2
        clear hmem hbs
        induction tail generalizing a with
        | nil => exact .singleton a
        | cons b tail ih =>
            refine .cons_cons (by simpa using htail b (by simp)) (ih b ?_)
            exact fun c hc => htail c (by simp [hc])
  · rw [List.isChain_iff_getElem]
    intro i hi
    have hfirst := hbs _ (List.getElem_mem (Nat.lt_of_succ_lt hi))
    have hsecond := hbs _ (List.getElem_mem hi)
    refine ⟨hfirst.ne_nil, hsecond.ne_nil, ?_⟩
    generalize bs[i + 1] = block at hsecond
    cases block with
    | nil => exact absurd rfl hsecond.ne_nil
    | cons a tail =>
        have hwidth := (block_cons_iff.mp hsecond).1
        refine decide_eq_false fun hcont => ?_
        rw [List.head_cons] at hcont
        rw [width_of_continuation hcont] at hwidth
        cases hwidth

theorem WellFormed.cut {s : List UInt8} (h : WellFormed s) : Cut s (blocks s) := by
  obtain ⟨bs, hcut⟩ := h
  rwa [blocks_of_cut hcut]

instance : DecidablePred Block
  | [] => .isFalse fun h => h.ne_nil rfl
  | _ :: tail =>
      haveI : Decidable (∀ b ∈ tail, Continuation b) := List.decidableBAll _ tail
      decidable_of_iff' _ block_cons_iff

theorem wellFormed_iff {s : List UInt8} : WellFormed s ↔ ∀ block ∈ blocks s, Block block :=
  ⟨fun h => h.cut.2, fun h => ⟨blocks s, List.flatten_splitBy _ s, h⟩⟩

instance : DecidablePred WellFormed := fun _ => decidable_of_iff' _ wellFormed_iff

-- The pattern leaves a code point below the end of its row, and only the overlong forms
-- leave it below the start.
theorem inRange_iff {block : List UInt8} (h : Block block) : InRange block ↔ ¬Overlong block := by
  cases h with
  | @one a ha =>
      refine iff_of_true ?_ id
      simp only [InRange, code_point, range, List.length_cons, List.length_nil]
      omega
  | @two a b ha hb =>
      simp only [InRange, code_point, range, Overlong, List.length_cons, List.length_nil,
        ← UInt8.toNat_inj, UInt8.reduceToNat]
      omega
  | @three a b c ha hb hc =>
      simp only [InRange, code_point, range, Overlong, List.length_cons, List.length_nil,
        ← UInt8.toNat_inj, UInt8.lt_iff_toNat_lt, UInt8.reduceToNat]
      omega
  | @four a b c d ha hb hc hd =>
      simp only [InRange, code_point, range, Overlong, List.length_cons, List.length_nil,
        ← UInt8.toNat_inj, UInt8.lt_iff_toNat_lt, UInt8.reduceToNat]
      omega

theorem ofNat_eq_of_toNat {n : Nat} {b : UInt8} (h : n = b.toNat) : UInt8.ofNat n = b := by
  rw [h, UInt8.ofNat_toNat]

theorem encode_point_code_point {block : List UInt8} (h : Block block) (hrange : InRange block) :
    encode_point (code_point block) = block := by
  unfold InRange at hrange
  generalize hn : code_point block = n at hrange ⊢
  cases h with
  | @one a ha =>
      simp only [code_point, range, List.length_cons, List.length_nil] at hn hrange
      simp only [encode_point]
      rw [if_pos (by omega), @ofNat_eq_of_toNat _ a (by omega)]
  | @two a b ha hb =>
      simp only [code_point, range, List.length_cons, List.length_nil] at hn hrange
      simp only [encode_point]
      rw [if_neg (by omega), if_pos (by omega)]
      rw [@ofNat_eq_of_toNat _ a (by omega), @ofNat_eq_of_toNat _ b (by omega)]
  | @three a b c ha hb hc =>
      simp only [code_point, range, List.length_cons, List.length_nil] at hn hrange
      simp only [encode_point]
      rw [if_neg (by omega), if_neg (by omega), if_pos (by omega)]
      rw [@ofNat_eq_of_toNat _ a (by omega), @ofNat_eq_of_toNat _ b (by omega),
        @ofNat_eq_of_toNat _ c (by omega)]
  | @four a b c d ha hb hc hd =>
      simp only [code_point, range, List.length_cons, List.length_nil] at hn hrange
      simp only [encode_point]
      rw [if_neg (by omega), if_neg (by omega), if_neg (by omega)]
      rw [@ofNat_eq_of_toNat _ a (by omega), @ofNat_eq_of_toNat _ b (by omega),
        @ofNat_eq_of_toNat _ c (by omega), @ofNat_eq_of_toNat _ d (by omega)]

-- Without overlong forms, encoding undoes decoding.
theorem encode_decode {s : List UInt8} (h : WellFormed s)
    (hrange : ∀ block ∈ blocks s, InRange block) : encode (decode s) = s := by
  obtain ⟨hflat, hblocks⟩ := h.cut
  have hmap : (blocks s).map (fun block => encode_point (code_point block)) = blocks s := by
    refine (List.map_congr_left fun block hmem => ?_).trans (List.map_id' _)
    exact encode_point_code_point (hblocks block hmem) (hrange block hmem)
  calc encode (decode s)
      = ((blocks s).map fun block => encode_point (code_point block)).flatten := by
        rw [encode, decode, List.flatMap_map, List.flatMap_def]
    _ = s := by rw [hmap, hflat]

end IgLibs.Utf8
