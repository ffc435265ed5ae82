import IgLibs.StringUtils

namespace IgLibs.BossCommon

variable {delim : UInt8}

-- A text without the delimiter, or its first item and what comes behind the delimiter.
theorem notMem_or_exists_item (delim : UInt8) (s : List UInt8) :
    delim ∉ s ∨ ∃ item rest, delim ∉ item ∧ s = item ++ delim :: rest := by
  by_cases hmem : delim ∈ s
  · obtain ⟨item, rest, rfl, hitem⟩ := List.eq_append_cons_of_mem hmem
    exact .inr ⟨item, rest, hitem, rfl⟩
  · exact .inl hmem

theorem takeWhile_item {item : List UInt8} (hitem : delim ∉ item) (rest : List UInt8) :
    (item ++ rest).takeWhile (· ≠ delim) = item ++ rest.takeWhile (· ≠ delim) ∧
      (item ++ rest).dropWhile (· ≠ delim) = rest.dropWhile (· ≠ delim) := by
  have hall : ∀ b ∈ item, decide (b ≠ delim) = true := by
    intro b hb
    exact decide_eq_true fun heq => hitem (heq ▸ hb)
  exact ⟨List.takeWhile_append_of_pos hall, List.dropWhile_append_of_pos hall⟩

theorem getline_item {item : List UInt8} (hitem : delim ∉ item) (rest : List UInt8) :
    getline (item ++ delim :: rest) delim = some (item, rest) := by
  obtain ⟨htake, hdrop⟩ := takeWhile_item hitem (delim :: rest)
  rw [getline, if_neg (by simp), htake, hdrop]
  simp

theorem getline_last {item : List UInt8} (hitem : delim ∉ item) (hne : item ≠ []) :
    getline item delim = some (item, []) := by
  obtain ⟨htake, hdrop⟩ := takeWhile_item hitem []
  rw [List.append_nil] at htake hdrop
  rw [getline, if_neg hne, htake, hdrop]
  simp

-- More rounds than there are characters do not matter.
theorem split_loop_of_le {fuel : Nat} : ∀ {s : List UInt8} {fuel' : Nat}, s.length ≤ fuel →
    s.length ≤ fuel' → split_loop delim fuel s = split_loop delim fuel' s := by
  induction fuel with
  | zero =>
      intro s fuel' hfuel _
      obtain rfl := List.eq_nil_of_length_eq_zero (Nat.le_zero.mp hfuel)
      cases fuel' <;> rfl
  | succ fuel ih =>
      intro s fuel' hfuel hfuel'
      cases fuel' with
      | zero =>
          obtain rfl := List.eq_nil_of_length_eq_zero (Nat.le_zero.mp hfuel')
          rfl
      | succ fuel' =>
          rcases notMem_or_exists_item delim s with hnot | ⟨item, rest, hitem, rfl⟩
          · cases s with
            | nil => rfl
            | cons b s =>
                rw [split_loop, split_loop, getline_last hnot (by simp)]
                exact congrArg _ (ih (by simp) (by simp))
          · rw [List.length_append, List.length_cons] at hfuel hfuel'
            rw [split_loop, split_loop, getline_item hitem]
            exact congrArg _ (ih (by omega) (by omega))

@[simp] theorem split_nil : split [] delim = [] := rfl

theorem split_last {item : List UInt8} (hitem : delim ∉ item) (hne : item ≠ []) :
    split item delim = [item] := by
  cases item with
  | nil => exact absurd rfl hne
  | cons b rest =>
      rw [split, List.length_cons, split_loop, getline_last hitem hne]
      exact congrArg _ (@split_loop_of_le delim rest.length [] 0 (by simp) (by simp))

theorem split_item {item : List UInt8} (hitem : delim ∉ item) (rest : List UInt8) :
    split (item ++ delim :: rest) delim = item :: split rest delim := by
  obtain ⟨fuel, hfuel⟩ : ∃ fuel, (item ++ delim :: rest).length = fuel + 1 :=
    ⟨item.length + rest.length, by simp [Nat.add_assoc]⟩
  rw [split, hfuel, split_loop, getline_item hitem]
  rw [List.length_append, List.length_cons] at hfuel
  exact congrArg _ (split_loop_of_le (by omega) (by omega))

theorem all_getLast?_item (item rest : List UInt8) :
    (item ++ delim :: rest).getLast?.all (· = delim) = rest.getLast?.all (· = delim) := by
  cases rest with
  | nil => simp
  | cons b rest => simp [List.getLast?_cons]

-- split leaves out the empty piece behind a delimiter at the very end.
theorem splitOn_eq_split (delim : UInt8) (s : List UInt8) :
    s.splitOn delim = split s delim ++ if s.getLast?.all (· = delim) then [[]] else [] := by
  induction hlen : s.length using Nat.strong_induction_on generalizing s with
  | _ n ih =>
      rcases notMem_or_exists_item delim s with hnot | ⟨item, rest, hitem, rfl⟩
      · cases s with
        | nil => rfl
        | cons b s =>
            have hlast : (b :: s).getLast? = some ((b :: s).getLast (by simp)) :=
              List.getLast?_eq_some_getLast _
            have hne : (b :: s).getLast (by simp) ≠ delim :=
              fun heq => hnot (heq ▸ List.getLast_mem _)
            rw [List.splitOn_eq_singleton hnot, split_last hnot (by simp), hlast]
            simp [hne]
      · have hrest := ih rest.length (by simp at hlen; omega) rest rfl
        rw [List.splitOn_append_cons_self_of_not_mem hitem, split_item hitem, hrest]
        rw [all_getLast?_item, List.cons_append]

-- The pieces have no delimiter in them.
theorem notMem_of_mem_splitOn {s piece : List UInt8} (hmem : piece ∈ s.splitOn delim) :
    delim ∉ piece := by
  induction hlen : s.length using Nat.strong_induction_on generalizing s with
  | _ n ih =>
      rcases notMem_or_exists_item delim s with hnot | ⟨item, rest, hitem, rfl⟩
      · rw [List.splitOn_eq_singleton hnot, List.mem_singleton] at hmem
        rwa [hmem]
      · rw [List.splitOn_append_cons_self_of_not_mem hitem] at hmem
        rcases List.mem_cons.mp hmem with rfl | hrest
        · exact hitem
        · exact ih rest.length (by simp at hlen; omega) hrest rfl

theorem splitOn_eq_iff {s : List UInt8} {pieces : List (List UInt8)} :
    s.splitOn delim = pieces ↔
      pieces ≠ [] ∧ (∀ piece ∈ pieces, delim ∉ piece) ∧ s = [delim].intercalate pieces := by
  constructor
  · rintro rfl
    exact ⟨List.splitOn_ne_nil _ _, fun _ => notMem_of_mem_splitOn,
      (List.intercalate_splitOn delim).symm⟩
  · rintro ⟨hne, hpieces, rfl⟩
    exact List.splitOn_intercalate delim hpieces hne

-- The items go behind what the vector holds.
theorem push_items_eq (delim : UInt8) (fuel : Nat) (iss : List UInt8)
    (elems : List (List UInt8)) :
    push_items delim fuel iss elems = elems ++ split_loop delim fuel iss := by
  induction fuel generalizing iss elems with
  | zero => exact (List.append_nil elems).symm
  | succ fuel ih =>
      rw [push_items, split_loop]
      cases getline iss delim with
      | none => exact (List.append_nil elems).symm
      | some result =>
          obtain ⟨item, rest⟩ := result
          dsimp only
          rw [ih, List.append_assoc, List.singleton_append]

theorem split_into_eq (s : List UInt8) (delim : UInt8) (elems : List (List UInt8)) :
    split_into s delim elems = split s delim := by
  rw [split_into, push_items_eq, List.take_zero, List.nil_append, split]

theorem notMem_of_mem_split {s item : List UInt8} (hmem : item ∈ split s delim) : delim ∉ item := by
  apply notMem_of_mem_splitOn (s := s)
  rw [splitOn_eq_split]
  exact List.mem_append_left _ hmem

theorem intercalate_concat_nil {pieces : List (List UInt8)} (hne : pieces ≠ []) :
    [delim].intercalate (pieces ++ [[]]) = [delim].intercalate pieces ++ [delim] := by
  induction pieces with
  | nil => exact absurd rfl hne
  | cons piece rest ih =>
      by_cases hrest : rest = []
      · rw [hrest, List.singleton_append, List.intercalate_cons_cons, List.intercalate_singleton,
          List.intercalate_singleton, List.append_nil]
      · rw [List.cons_append, List.intercalate_cons_of_ne_nil (by simp),
          List.intercalate_cons_of_ne_nil hrest, ih hrest]
        simp only [List.append_assoc]

-- Joined again, the items are the text without the delimiter at its end.
theorem intercalate_split (s : List UInt8) (delim : UInt8) :
    [delim].intercalate (split s delim) = if s.getLast? = some delim then s.dropLast else s := by
  have hjoin : [delim].intercalate (s.splitOn delim) = s := List.intercalate_splitOn delim
  rw [splitOn_eq_split] at hjoin
  cases hlast : s.getLast? with
  | none =>
      obtain rfl := List.getLast?_eq_none_iff.mp hlast
      rfl
  | some last =>
      rw [hlast, Option.all_some] at hjoin
      by_cases hdelim : last = delim
      · rw [if_pos (by simpa using hdelim)] at hjoin
        have hne : split s delim ≠ [] := by
          intro hnil
          rw [hnil, List.nil_append, List.intercalate_singleton] at hjoin
          rw [← hjoin] at hlast
          cases hlast
        rw [intercalate_concat_nil hne] at hjoin
        rw [if_pos (congrArg some hdelim), ← hjoin, List.dropLast_concat, hjoin]
      · rw [if_neg (by simpa using hdelim), List.append_nil] at hjoin
        rw [if_neg (by simpa using hdelim), hjoin]

theorem length_splitOn (s : List UInt8) (delim : UInt8) :
    (s.splitOn delim).length = s.count delim + 1 := by
  induction hlen : s.length using Nat.strong_induction_on generalizing s with
  | _ n ih =>
      rcases notMem_or_exists_item delim s with hnot | ⟨item, rest, hitem, rfl⟩
      · rw [List.splitOn_eq_singleton hnot, List.count_eq_zero.mpr hnot]
        rfl
      · rw [List.splitOn_append_cons_self_of_not_mem hitem, List.length_cons,
          ih rest.length (by simp at hlen; omega) rest rfl, List.count_append,
          List.count_eq_zero.mpr hitem, List.count_cons_self, Nat.zero_add]

-- There is one item for each delimiter, and one behind the last delimiter unless it is empty.
theorem length_split (s : List UInt8) (delim : UInt8) :
    (split s delim).length =
      s.count delim + if s ≠ [] ∧ s.getLast? ≠ some delim then 1 else 0 := by
  have hlength := length_splitOn s delim
  rw [splitOn_eq_split, List.length_append] at hlength
  cases hlast : s.getLast? with
  | none =>
      obtain rfl := List.getLast?_eq_none_iff.mp hlast
      rfl
  | some last =>
      have hne : s ≠ [] := fun hnil => by simp [hnil] at hlast
      by_cases hdelim : last = delim
      · simp only [hlast, hdelim, Option.all_some, decide_true, ite_true, List.length_singleton]
          at hlength
        simp only [hdelim, ne_eq, not_true_eq_false, and_false, ite_false]
        omega
      · simp only [hlast, hdelim, Option.all_some, decide_false, Bool.false_eq_true, ite_false,
          List.length_nil] at hlength
        simp only [hne, hdelim, ne_eq, not_false_eq_true, Option.some.injEq, and_self, ite_true]
        omega

-- split, for every text and delimiter and whatever the vector held.
theorem split_into_spec (s : List UInt8) (delim : UInt8) (elems : List (List UInt8)) :
    (∀ item ∈ split_into s delim elems, delim ∉ item) ∧
    [delim].intercalate (split_into s delim elems) =
      (if s.getLast? = some delim then s.dropLast else s) ∧
    (split_into s delim elems).length =
      s.count delim + if s ≠ [] ∧ s.getLast? ≠ some delim then 1 else 0 := by
  rw [split_into_eq]
  exact ⟨fun _ => notMem_of_mem_split, intercalate_split s delim, length_split s delim⟩

end IgLibs.BossCommon
