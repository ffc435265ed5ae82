import IgLibs.StringUtils
import Mathlib.Data.List.DropRight

namespace IgLibs.BossCommon

variable {s charlist : List UInt8}

-- The first loop counts the trimmable characters in front, from wherever it has got to.
theorem trim_head_eq {fuel cnt : Nat} (hfuel : s.length < fuel + cnt) (hcnt : cnt ≤ s.length) :
    trim_head s charlist fuel cnt =
      some (cnt + ((s.drop cnt).takeWhile (· ∈ charlist)).length) := by
  induction fuel generalizing cnt with
  | zero => omega
  | succ fuel ih =>
      rw [trim_head]
      by_cases hend : cnt = s.length
      · rw [if_pos hend, hend, List.drop_length]
        rfl
      · have hlt : cnt < s.length := by omega
        rw [if_neg hend, List.getElem?_eq_getElem hlt, List.drop_eq_getElem_cons hlt]
        simp only [Option.bind_eq_bind, Option.bind_some]
        by_cases hmem : s[cnt] ∈ charlist
        · have hnext := @ih (cnt + 1) (by omega) (by omega)
          rw [if_pos hmem, hnext, List.takeWhile_cons_of_pos (by simpa using hmem),
            List.length_cons]
          congr 1
          omega
        · rw [if_neg hmem, List.takeWhile_cons_of_neg (by simpa using hmem)]
          rfl

-- The second loop stops at index 0 without looking at the character there, which is no
-- trimmable one after the first loop.
theorem trim_tail_spec {pos : Nat} (hpos : pos < s.length)
    (hhead : ∀ first ∈ s.head?, first ∉ charlist) (cnt : Nat) :
    ∃ pos' cnt', trim_tail s charlist pos cnt = some (pos', cnt') ∧ pos' + cnt' = pos + cnt ∧
      (s.take (pos + 1)).rdropWhile (· ∈ charlist) = s.take (pos' + 1) := by
  induction pos generalizing cnt with
  | zero =>
      refine ⟨0, cnt, rfl, rfl, ?_⟩
      cases s with
      | nil => cases hpos
      | cons first rest =>
          have hfirst : first ∉ charlist := hhead first rfl
          rw [Nat.zero_add, List.take_succ_cons, List.take_zero, List.rdropWhile_singleton,
            if_neg (by simpa using hfirst)]
  | succ pos ih =>
      rw [trim_tail, List.getElem?_eq_getElem hpos, List.take_succ_eq_append_getElem hpos]
      simp only [Option.bind_eq_bind, Option.bind_some]
      by_cases hmem : s[pos + 1] ∈ charlist
      · obtain ⟨pos', cnt', hloop, hsum, htake⟩ := ih (by omega) (cnt + 1)
        rw [if_pos hmem]
        refine ⟨pos', cnt', hloop, by omega, ?_⟩
        rw [List.rdropWhile_concat_pos _ _ _ (by simpa using hmem), htake]
      · rw [if_neg hmem]
        refine ⟨pos + 1, cnt, rfl, rfl, ?_⟩
        rw [List.rdropWhile_concat_neg _ _ _ (by simpa using hmem),
          List.take_succ_eq_append_getElem hpos]

theorem erase_front {cnt : Nat} : erase s 0 cnt = some (s.drop cnt) := by
  rw [erase, if_neg (by omega), List.take_zero, List.nil_append, Nat.zero_add]

theorem erase_back {pos cnt : Nat} (hsum : pos + cnt = s.length) :
    erase s pos cnt = some (s.take pos) := by
  rw [erase, if_neg (by omega), hsum, List.drop_length, List.append_nil]

theorem drop_length_takeWhile (p : UInt8 → Bool) (s : List UInt8) :
    s.drop (s.takeWhile p).length = s.dropWhile p := by
  have hdrop : (s.takeWhile p ++ s.dropWhile p).drop (s.takeWhile p).length = s.dropWhile p :=
    List.drop_left
  rwa [List.takeWhile_append_dropWhile] at hdrop

theorem trim_front_eq (s charlist : List UInt8) :
    trim_front s charlist = some (s.dropWhile (· ∈ charlist)) := by
  have hcnt := @trim_head_eq s charlist (s.length + 1) 0 (by omega) (by omega)
  rw [List.drop_zero, Nat.zero_add] at hcnt
  simp only [trim_front, hcnt, Option.bind_eq_bind, Option.bind_some]
  split
  · rw [erase_front, drop_length_takeWhile]
  · rename_i hzero
    rw [← drop_length_takeWhile, not_not.mp hzero, List.drop_zero]

theorem trim_back_eq (hne : s ≠ []) (hhead : ∀ first ∈ s.head?, first ∉ charlist) :
    trim_back s charlist = some (s.rdropWhile (· ∈ charlist)) := by
  have hpos := List.length_pos_iff.mpr hne
  obtain ⟨pos, cnt, hloop, hsum, htake⟩ :=
    @trim_tail_spec s charlist (s.length - 1) (by omega) hhead 0
  rw [Nat.sub_add_cancel hpos, List.take_length] at htake
  simp only [trim_back, hloop, Option.bind_eq_bind, Option.bind_some, htake]
  split
  · exact erase_back (by omega)
  · rw [List.take_of_length_le (by omega)]

theorem head_dropWhile (s charlist : List UInt8) :
    ∀ first ∈ (s.dropWhile (· ∈ charlist)).head?, first ∉ charlist := by
  intro first hmem
  have hnot := List.head?_dropWhile_not (· ∈ charlist) s
  rw [Option.mem_def.mp hmem] at hnot
  simpa using hnot

-- Both loops end and read no character that is not there.
theorem trim_eq (s charlist : List UInt8) :
    trim s charlist = some ((s.dropWhile (· ∈ charlist)).rdropWhile (· ∈ charlist)) := by
  simp only [trim, trim_front_eq, Option.bind_eq_bind, Option.bind_some]
  split
  · rename_i hnil
    rw [hnil, List.rdropWhile_nil]
  · rename_i hne
    exact trim_back_eq hne (head_dropWhile s charlist)

-- What is left begins and ends with characters that stay.
theorem head_rdropWhile (s charlist : List UInt8) :
    ∀ first ∈ ((s.dropWhile (· ∈ charlist)).rdropWhile (· ∈ charlist)).head?,
      first ∉ charlist := by
  intro first hmem
  apply head_dropWhile s charlist first
  obtain ⟨rest, hrest⟩ := List.rdropWhile_prefix (· ∈ charlist) (s.dropWhile (· ∈ charlist))
  rw [← hrest, List.head?_append, Option.mem_def.mp hmem]
  rfl

theorem getLast_rdropWhile (s charlist : List UInt8) :
    ∀ last ∈ (s.rdropWhile (· ∈ charlist)).getLast?, last ∉ charlist := by
  intro last hmem
  obtain ⟨hne, rfl⟩ := List.mem_getLast?_eq_getLast hmem
  simpa using List.rdropWhile_last_not (· ∈ charlist) s hne

theorem dropWhile_of_head (hhead : ∀ first ∈ s.head?, first ∉ charlist) :
    s.dropWhile (· ∈ charlist) = s := by
  cases s with
  | nil => rfl
  | cons first rest => exact List.dropWhile_cons_of_neg (by simpa using hhead first rfl)

-- The prefix that goes is the longest one of characters of the list.
theorem prefix_takeWhile {other : List UInt8} (hother : other <+: s)
    (hall : ∀ b ∈ other, b ∈ charlist) : other <+: s.takeWhile (· ∈ charlist) := by
  obtain ⟨rest, rfl⟩ := hother
  rw [List.takeWhile_append_of_pos (by simpa using hall)]
  exact List.prefix_append ..

-- What trim leaves, for every string and list of characters.
theorem trim_spec (s charlist : List UInt8) :
    ∃ p r q, trim s charlist = some r ∧ s = p ++ r ++ q ∧
      (∀ b ∈ p, b ∈ charlist) ∧ (∀ b ∈ q, b ∈ charlist) ∧
      (r = [] ∨ ∃ first last, r.head? = some first ∧ r.getLast? = some last ∧
        first ∉ charlist ∧ last ∉ charlist) ∧
      (∀ other, other <+: s → (∀ b ∈ other, b ∈ charlist) → other <+: p) ∧
      trim r charlist = some r := by
  have hhead := head_rdropWhile s charlist
  have hlast := getLast_rdropWhile (s.dropWhile (· ∈ charlist)) charlist
  refine ⟨s.takeWhile (· ∈ charlist), _, (s.dropWhile (· ∈ charlist)).rtakeWhile (· ∈ charlist),
    trim_eq s charlist, ?_, ?_, ?_, ?_, ?_, ?_⟩
  · rw [List.append_assoc, List.rdropWhile_append_rtakeWhile, List.takeWhile_append_dropWhile]
  · intro b hmem
    simpa using List.mem_takeWhile_imp hmem
  · intro b hmem
    simpa using List.mem_rtakeWhile_imp hmem
  · by_cases hnil : (s.dropWhile (· ∈ charlist)).rdropWhile (· ∈ charlist) = []
    · exact .inl hnil
    · have hfirst := List.head?_eq_some_head hnil
      have hend := List.getLast?_eq_some_getLast hnil
      exact .inr ⟨_, _, hfirst, hend, hhead _ hfirst, hlast _ hend⟩
  · exact fun other hother hall => prefix_takeWhile hother hall
  · rw [trim_eq, dropWhile_of_head hhead, List.rdropWhile_idempotent]

end IgLibs.BossCommon
