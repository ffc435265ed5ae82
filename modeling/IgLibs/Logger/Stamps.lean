import IgLibs.Logger.Rotation
import Mathlib.Data.List.Nodup

namespace IgLibs.Logger

open CString Printf

-- What localtime_r gives, with room to spare.
structure InRange (tm : Tm) : Prop where
  year : 0 ≤ tm.year ∧ tm.year < 10 ^ 4
  mon : 0 ≤ tm.mon ∧ tm.mon < 10 ^ 2
  mday : 0 ≤ tm.mday ∧ tm.mday < 10 ^ 2
  hour : 0 ≤ tm.hour ∧ tm.hour < 10 ^ 2
  min : 0 ≤ tm.min ∧ tm.min < 10 ^ 2
  sec : 0 ≤ tm.sec ∧ tm.sec < 10 ^ 2

section

variable {tm tm' : Tm} {i j : Int} {width : Nat} {name : FileName}

theorem length_field (hwidth : 0 < width) (h : 0 ≤ i ∧ i < 10 ^ width) :
    (zero_padded width i).length = width := length_zero_padded hwidth h.1 h.2

theorem field_inj (hi : 0 ≤ i ∧ i < 10 ^ width) (hj : 0 ≤ j ∧ j < 10 ^ width)
    (h : zero_padded width i = zero_padded width j) : i = j := by
  rw [← decimal_zero_padded hi.1, ← decimal_zero_padded hj.1, h]

theorem length_stamp (h : InRange tm) : (stamp tm).length = 14 := by
  simp only [stamp, List.length_append, length_field (Nat.succ_pos _) h.year,
    length_field (Nat.succ_pos _) h.mon, length_field (Nat.succ_pos _) h.mday,
    length_field (Nat.succ_pos _) h.hour, length_field (Nat.succ_pos _) h.min,
    length_field (Nat.succ_pos _) h.sec]

-- Fields of fixed width, read back one after another.
theorem stamp_inj (h : InRange tm) (h' : InRange tm') (hstamp : stamp tm = stamp tm') : tm = tm' := by
  have split : ∀ {width : Nat} {i j : Int} {rest rest' : List UInt8}, 0 < width →
      0 ≤ i ∧ i < 10 ^ width → 0 ≤ j ∧ j < 10 ^ width →
      zero_padded width i ++ rest = zero_padded width j ++ rest' → i = j ∧ rest = rest' := by
    intro width i j rest rest' hwidth hi hj heq
    obtain ⟨hfield, hrest⟩ := List.append_inj heq
      ((length_field hwidth hi).trans (length_field hwidth hj).symm)
    exact ⟨field_inj hi hj hfield, hrest⟩
  simp only [stamp, List.append_assoc] at hstamp
  obtain ⟨hyear, hstamp⟩ := split (Nat.succ_pos _) h.year h'.year hstamp
  obtain ⟨hmon, hstamp⟩ := split (Nat.succ_pos _) h.mon h'.mon hstamp
  obtain ⟨hmday, hstamp⟩ := split (Nat.succ_pos _) h.mday h'.mday hstamp
  obtain ⟨hhour, hstamp⟩ := split (Nat.succ_pos _) h.hour h'.hour hstamp
  obtain ⟨hmin, hsec⟩ := split (Nat.succ_pos _) h.min h'.min hstamp
  have hsec := field_inj h.sec h'.sec hsec
  cases tm
  cases tm'
  simp_all

theorem wf_name_of_short (h : name.length ≤ 237) : wf_name name = name ++ [46, 119, 102] := by
  rw [wf_name, snprintf, List.take_of_length_le]
  rw [List.length_append]
  change name.length + 3 ≤ 255
  omega

theorem old_wf_name_of_short (h : name.length ≤ 237) (hrange : InRange tm) :
    old_wf_name name (stamp tm) = name ++ [46, 119, 102] ++ 46 :: stamp tm := by
  rw [old_wf_name, wf_name_of_short h, snprintf, List.take_of_length_le]
  simp only [List.length_append, List.length_cons, List.length_nil, length_stamp hrange]
  omega

theorem length_old_name (hrange : InRange tm) :
    (old_name name (stamp tm)).length = name.length + 15 := by
  rw [old_name, List.length_append, List.length_cons, length_stamp hrange]

theorem length_old_wf_name (h : name.length ≤ 237) (hrange : InRange tm) :
    (old_wf_name name (stamp tm)).length = name.length + 18 := by
  rw [old_wf_name_of_short h hrange]
  simp only [List.length_append, List.length_cons, List.length_nil, length_stamp hrange]

theorem old_name_inj (h : InRange tm) (h' : InRange tm')
    (heq : old_name name (stamp tm) = old_name name (stamp tm')) : tm = tm' := by
  have htail := List.append_cancel_left heq
  exact stamp_inj h h' (List.cons.inj htail).2

theorem old_wf_name_inj (hshort : name.length ≤ 237) (h : InRange tm) (h' : InRange tm')
    (heq : old_wf_name name (stamp tm) = old_wf_name name (stamp tm')) : tm = tm' := by
  rw [old_wf_name_of_short hshort h, old_wf_name_of_short hshort h'] at heq
  have htail := List.append_cancel_left heq
  exact stamp_inj h h' (List.cons.inj htail).2

theorem old_names_nodup (hshort : name.length ≤ 237) {times : List Tm}
    (hrange : ∀ tm ∈ times, InRange tm) (hnodup : times.Nodup) :
    (name :: wf_name name ::
      times.flatMap fun tm => [old_name name (stamp tm), old_wf_name name (stamp tm)]).Nodup := by
  have hwf : (wf_name name).length = name.length + 3 := by
    rw [wf_name_of_short hshort, List.length_append]
    rfl
  have hlong : ∀ n ∈ times.flatMap (fun tm => [old_name name (stamp tm), old_wf_name name (stamp tm)]),
      name.length + 15 ≤ n.length := by
    intro n hn
    obtain ⟨tm, htm, hn⟩ := List.mem_flatMap.mp hn
    rcases List.mem_pair.mp hn with rfl | rfl
    · rw [length_old_name (hrange tm htm)]
    · rw [length_old_wf_name hshort (hrange tm htm)]
      omega
  rw [List.nodup_cons, List.nodup_cons, List.nodup_flatMap]
  refine ⟨fun hmem => ?_, fun hmem => ?_, fun tm htm => ?_, ?_⟩
  · rcases List.mem_cons.mp hmem with heq | hmem
    · have hlength := congrArg List.length heq
      omega
    · have hlength := hlong _ hmem
      omega
  · have hlength := hlong _ hmem
    omega
  · refine List.nodup_cons.mpr ⟨fun hmem => ?_, List.nodup_singleton _⟩
    have hlength := congrArg List.length (List.mem_singleton.mp hmem)
    rw [length_old_name (hrange tm htm), length_old_wf_name hshort (hrange tm htm)] at hlength
    omega
  · refine hnodup.imp_of_mem fun {tm tm'} htm htm' hne => ?_
    intro n hn hn'
    have hr := hrange tm htm
    have hr' := hrange tm' htm'
    rcases List.mem_pair.mp hn with rfl | rfl <;> rcases List.mem_pair.mp hn' with heq | heq
    · exact hne (old_name_inj hr hr' heq)
    · have hlength := congrArg List.length heq
      rw [length_old_name hr, length_old_wf_name hshort hr'] at hlength
      omega
    · have hlength := congrArg List.length heq
      rw [length_old_name hr', length_old_wf_name hshort hr] at hlength
      omega
    · exact hne (old_wf_name_inj hshort hr hr' heq)

end

-- Two rotations give an old file the same name only if they come in the same second.
theorem old_names_nodup_iff {name : FileName} (hshort : name.length ≤ 237) {times : List Tm}
    (hrange : ∀ tm ∈ times, InRange tm) :
    (name :: wf_name name ::
      times.flatMap fun tm => [old_name name (stamp tm), old_wf_name name (stamp tm)]).Nodup ↔
      times.Nodup := by
  refine ⟨fun hnodup => ?_, old_names_nodup hshort hrange⟩
  rw [List.nodup_cons, List.nodup_cons, List.nodup_flatMap] at hnodup
  obtain ⟨-, -, -, hpairwise⟩ := hnodup
  refine hpairwise.imp_of_mem fun {tm tm'} _ _ hdisjoint heq => ?_
  rw [heq] at hdisjoint
  exact hdisjoint List.mem_cons_self List.mem_cons_self

theorem old_names_of_two_seconds :
    ([97] :: wf_name [97] :: [(⟨2024, 2, 29, 23, 59, 59⟩ : Tm), ⟨2024, 3, 1, 0, 0, 0⟩].flatMap
      fun tm => [old_name [97] (stamp tm), old_wf_name [97] (stamp tm)]).Nodup ↔
      [(⟨2024, 2, 29, 23, 59, 59⟩ : Tm), ⟨2024, 3, 1, 0, 0, 0⟩].Nodup :=
  old_names_nodup_iff (by decide) (by
    intro tm htm
    rcases List.mem_pair.mp htm with rfl | rfl <;>
      exact ⟨by decide, by decide, by decide, by decide, by decide, by decide⟩)

end IgLibs.Logger
