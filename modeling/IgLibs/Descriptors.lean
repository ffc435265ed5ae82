import IgLibs.Posix
import Mathlib.Data.List.Nodup

namespace IgLibs

variable {N : Type*}

-- What a descriptor holds behind the three standard ones. A call that failed has left -1.
def slot (fd : Int) : List Int := if 3 ≤ fd then [fd] else []

-- Every open descriptor is accounted for: a standard one, one that belongs to others and is still
-- on its file, or one that is held.
structure Accounted (k : Posix N) (others : List (Int × Nat)) (held : List Int) : Prop where
  standard : Standard k
  others_open : ∀ p ∈ others, 3 ≤ p.1 ∧ k.file p.1 = some p.2
  held_apart : ∀ fd ∈ held, 3 ≤ fd ∧ fd ∉ others.map Prod.fst
  nodup : held.Nodup
  open_iff : ∀ fd, 3 ≤ fd → (k.file fd ≠ none ↔ fd ∈ others.map Prod.fst ∨ fd ∈ held)

namespace Accounted

variable {k k' : Posix N} {others : List (Int × Nat)} {held held' : List Int} {fd new : Int}

theorem congr (h : Accounted k others held) (hfile : ∀ i, k'.file i = k.file i) :
    Accounted k' others held := by
  refine ⟨h.standard.congr fun i _ hi => by rwa [hfile], fun p hp => ?_, h.held_apart, h.nodup,
    fun i hi => ?_⟩
  · rw [hfile]
    exact h.others_open p hp
  · rw [hfile]
    exact h.open_iff i hi

theorem perm (h : Accounted k others held) (hperm : held.Perm held') : Accounted k others held' := by
  refine ⟨h.standard, h.others_open, fun i hi => h.held_apart i (hperm.mem_iff.mpr hi),
    hperm.nodup h.nodup, fun i hi => ?_⟩
  rw [h.open_iff i hi, hperm.mem_iff]

-- dup2 over one of the three standard descriptors.
theorem dup2 (h : Accounted k others held) (old : Int) (hnew : new < 3) :
    Accounted (k.dup2 old new).1 others held := by
  have hsame : ∀ i, 3 ≤ i → (k.dup2 old new).1.file i = k.file i := by
    intro i hi
    rw [Posix.file_dup2, if_neg (by omega)]
  refine ⟨h.standard.congr fun i _ hi => ?_, fun p hp => ?_, h.held_apart, h.nodup, fun i hi => ?_⟩
  · rw [Posix.file_dup2]
    split
    · rename_i hset
      exact hset.1
    · exact hi
  · rw [hsame _ (h.others_open p hp).1]
    exact h.others_open p hp
  · rw [hsame i hi]
    exact h.open_iff i hi

theorem close_held (h : Accounted k others (fd :: held)) :
    Accounted (k.close fd).1 others held := by
  obtain ⟨hthree, hother⟩ := h.held_apart fd List.mem_cons_self
  obtain ⟨hnot, hnodup⟩ := List.nodup_cons.mp h.nodup
  refine ⟨h.standard.congr fun i _ hi => ?_, fun p hp => ?_,
    fun i hi => h.held_apart i (List.mem_cons_of_mem _ hi), hnodup, fun i hi => ?_⟩
  · rw [Posix.file_close, if_neg (by omega)]
    exact hi
  · obtain ⟨hp3, hopen⟩ := h.others_open p hp
    have hne : p.1 ≠ fd := by
      rintro rfl
      exact hother (List.mem_map_of_mem hp)
    rw [Posix.file_close, if_neg hne]
    exact ⟨hp3, hopen⟩
  · rw [Posix.file_close]
    by_cases hifd : i = fd
    · rw [if_pos hifd]
      refine iff_of_false (fun hno => hno rfl) ?_
      rw [hifd]
      exact not_or.mpr ⟨hother, hnot⟩
    · rw [if_neg hifd, h.open_iff i hi, List.mem_cons]
      tauto

-- close(2) on what an earlier open(2) has returned.
theorem close_slot (h : Accounted k others (slot fd ++ held)) (hfd : fd < 0 ∨ 3 ≤ fd) :
    Accounted (k.close fd).1 others held := by
  unfold slot at h
  rcases hfd with hneg | hthree
  · rw [if_neg (by omega), List.nil_append] at h
    apply h.congr
    intro i
    rw [Posix.file_close]
    split
    · rename_i hi
      rw [hi, Posix.file_of_neg hneg]
    · rfl
  · rw [if_pos hthree] at h
    exact h.close_held

-- Others close a descriptor of theirs.
theorem close_other (h : Accounted k others held) (hfd : fd ∈ others.map Prod.fst) :
    Accounted (k.close fd).1 (others.filter fun p => p.1 ≠ fd) held := by
  obtain ⟨p, hp, rfl⟩ := List.mem_map.mp hfd
  obtain ⟨hthree, -⟩ := h.others_open p hp
  have hmem : ∀ i, i ∈ (others.filter fun q => q.1 ≠ p.1).map Prod.fst ↔
      i ∈ others.map Prod.fst ∧ i ≠ p.1 := by
    intro i
    simp only [List.mem_map, List.mem_filter, decide_eq_true_eq]
    constructor
    · rintro ⟨q, ⟨hq, hne⟩, rfl⟩
      exact ⟨⟨q, hq, rfl⟩, hne⟩
    · rintro ⟨⟨q, hq, rfl⟩, hne⟩
      exact ⟨q, ⟨hq, hne⟩, rfl⟩
  refine ⟨h.standard.congr fun i _ hi => ?_, fun q hq => ?_, fun i hi => ?_, h.nodup, fun i hi => ?_⟩
  · rw [Posix.file_close, if_neg (by omega)]
    exact hi
  · obtain ⟨hq, hne⟩ := List.mem_filter.mp hq
    rw [Posix.file_close, if_neg (by simpa using hne)]
    exact h.others_open q hq
  · obtain ⟨hi3, hout⟩ := h.held_apart i hi
    exact ⟨hi3, fun hin => hout ((hmem i).mp hin).1⟩
  · rw [Posix.file_close, hmem]
    by_cases hip : i = p.1
    · rw [if_pos hip]
      refine iff_of_false (fun hno => hno rfl) (not_or.mpr ⟨fun hno => hno.2 hip, fun hin => ?_⟩)
      exact (h.held_apart i hin).2 (hip ▸ hfd)
    · rw [if_neg hip, h.open_iff i hi]
      simp only [ne_eq, hip, not_false_eq_true, and_true]

-- What is held belongs to others from now on.
theorem hand_over {file : Nat} (h : Accounted k others (fd :: held)) (hfile : k.file fd = some file) :
    Accounted k ((fd, file) :: others) held := by
  obtain ⟨hthree, hout⟩ := h.held_apart fd List.mem_cons_self
  obtain ⟨hnot, hnodup⟩ := List.nodup_cons.mp h.nodup
  refine ⟨h.standard, fun p hp => ?_, fun i hi => ?_, hnodup, fun i hi => ?_⟩
  · rcases List.mem_cons.mp hp with rfl | hp
    · exact ⟨hthree, hfile⟩
    · exact h.others_open p hp
  · obtain ⟨hi3, hi'⟩ := h.held_apart i (List.mem_cons_of_mem _ hi)
    refine ⟨hi3, fun hin => ?_⟩
    rcases List.mem_cons.mp hin with rfl | hin
    · exact hnot hi
    · exact hi' hin
  · rw [h.open_iff i hi, List.map_cons, List.mem_cons, List.mem_cons]
    tauto

theorem of_console : Accounted (console : Posix N) [] [] := by
  refine ⟨standard_console, fun p hp => absurd hp List.not_mem_nil,
    fun i hi => absurd hi List.not_mem_nil, List.nodup_nil, fun i hi => iff_of_false ?_ ?_⟩
  · rw [Posix.file, if_pos (by omega), List.getElem?_eq_none]
    · exact fun hno => hno rfl
    · change 3 ≤ i.toNat
      omega
  · rintro (hno | hno) <;> cases hno

variable [DecidableEq N]

-- A new descriptor is held by the one who opened it.
theorem opens (h : Accounted k others held) (name : N) (creat fault : Bool) :
    ∃ k' fd, k.open_file name creat fault = (k', fd) ∧ (fd < 0 ∨ 3 ≤ fd) ∧
      Accounted k' others (slot fd ++ held) := by
  rcases k.open_cases name creat fault with hfail | ⟨k', file, hopen, hfile⟩
  · exact ⟨k, -1, hfail, .inl (by omega), h⟩
  · have hthree : (3 : Int) ≤ Posix.lowest k.table := by
      exact_mod_cast three_le_lowest h.standard
    have hfree := k.file_lowest
    have hout : (Posix.lowest k.table : Int) ∉ others.map Prod.fst ∧
        (Posix.lowest k.table : Int) ∉ held := by
      rw [← not_or, ← h.open_iff _ hthree]
      exact fun hno => hno hfree
    refine ⟨k', Posix.lowest k.table, hopen, .inr hthree, ?_⟩
    rw [slot, if_pos hthree]
    refine ⟨h.standard.congr fun i _ hi => ?_, fun p hp => ?_, fun i hi => ?_,
      List.nodup_cons.mpr ⟨hout.2, h.nodup⟩, fun i hi => ?_⟩
    · rw [hfile]
      split
      · exact Option.some_ne_none _
      · exact hi
    · obtain ⟨hp3, hp⟩ := h.others_open p hp
      refine ⟨hp3, ?_⟩
      rw [hfile, if_neg, hp]
      intro heq
      rw [heq, hfree] at hp
      cases hp
    · rcases List.mem_cons.mp hi with rfl | hi
      · exact ⟨hthree, hout.1⟩
      · exact h.held_apart i hi
    · rw [hfile]
      by_cases hifd : i = Posix.lowest k.table
      · rw [if_pos hifd]
        refine iff_of_true (Option.some_ne_none _) (.inr ?_)
        rw [hifd]
        exact List.mem_cons_self
      · rw [if_neg hifd, h.open_iff i hi, List.mem_append, List.mem_singleton]
        tauto

end Accounted

end IgLibs
