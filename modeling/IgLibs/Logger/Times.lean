import IgLibs.Logger.Retention
import IgLibs.Logger.Stamps
import IgLibs.StringUtils.Time

namespace IgLibs.Logger

open BossCommon CString CTime Machine Printf

def tm_of (m : Moment) : Tm := ⟨m.year, m.mon, m.mday, m.hour, m.min, m.sec⟩

section

variable {m : Message} {moment : Moment} {line : List UInt8}

theorem inRange_of_valid (hvalid : moment.Valid) (hyear : moment.year ≤ 9999) :
    InRange (tm_of moment) := by
  have hmon := hvalid.mon
  have hmday := hvalid.mday
  have hdays := days_in_le moment.year moment.mon
  have hhour := hvalid.hour
  have hmin := hvalid.min
  have hsec := hvalid.sec
  constructor <;> dsimp only [tm_of] <;> omega

theorem field_lt {width i j : Nat} {rest rest' : List UInt8} (hwidth : 0 < width)
    (hj : j < 10 ^ width) (h : i < j ∨ i = j ∧ rest < rest') :
    zero_padded width i ++ rest < zero_padded width j ++ rest' := by
  rcases h with hlt | ⟨rfl, hrest⟩
  · exact zero_padded_lt hwidth hj hlt rest rest'
  · exact List.append_left_lt hrest

-- The order of time is the order of the names.
theorem stamp_lt {moment' : Moment} (hvalid' : moment'.Valid) (hyear' : moment'.year ≤ 9999)
    (h : moment.fields < moment'.fields) : stamp (tm_of moment) < stamp (tm_of moment') := by
  have hmon := hvalid'.mon
  have hmday := hvalid'.mday
  have hdays := days_in_le moment'.year moment'.mon
  have hhour := hvalid'.hour
  have hmin := hvalid'.min
  have hsec := hvalid'.sec
  simp only [Moment.fields, List.cons_lt_cons_iff, List.not_lt_nil, and_false, or_false] at h
  simp only [stamp, tm_of, List.append_assoc]
  refine field_lt (by decide) (by omega) (h.imp_right (And.imp_right fun h => ?_))
  refine field_lt (by decide) (by omega) (h.imp_right (And.imp_right fun h => ?_))
  refine field_lt (by decide) (by omega) (h.imp_right (And.imp_right fun h => ?_))
  refine field_lt (by decide) (by omega) (h.imp_right (And.imp_right fun h => ?_))
  refine field_lt (by decide) (by omega) (h.imp_right (And.imp_right fun h => ?_))
  have hlast := zero_padded_lt (by decide : 0 < 2) (by omega) h [] []
  rwa [List.append_nil, List.append_nil] at hlast

-- The suffix that a rotation makes from the clock.
def suffix_at (gmtoff t : Int) : FileName := stamp (tm_of (localtime gmtoff t))

-- Clocks that localtime_r and four digits for the year can do.
def Printable (gmtoff t : Int) : Prop :=
  0 ≤ t + gmtoff + epoch ∧ (localtime gmtoff t).year ≤ 9999

variable {gmtoff t t' : Int} {name : FileName}

theorem suffix_at_lt (hfrom : 0 ≤ t + gmtoff + epoch) (hto : (localtime gmtoff t').year ≤ 9999)
    (h : t < t') : suffix_at gmtoff t < suffix_at gmtoff t' :=
  stamp_lt (Moment.valid_clock _) hto (Moment.fields_clock_lt (by omega))

theorem inRange_localtime (h : Printable gmtoff t) : InRange (tm_of (localtime gmtoff t)) :=
  inRange_of_valid (Moment.valid_clock _) h.2

theorem old_name_lt (name : FileName) {suf suf' : FileName} (h : suf < suf') :
    old_name name suf < old_name name suf' :=
  List.append_left_lt (List.cons_lt_cons_self.mpr h)

theorem old_wf_name_at (hshort : name.length ≤ 237) (h : Printable gmtoff t) :
    old_wf_name name (suffix_at gmtoff t) = old_name (name ++ [46, 119, 102]) (suffix_at gmtoff t) :=
  old_wf_name_of_short hshort (inRange_localtime h)

-- The old files of a run are in the order of their names if the clock does not go back and no two
-- rotations come in the same second.
theorem old_files_in_order {k : Posix FileName} {bound : Nat} {open_wf flag : Bool} {ops : List Op}
    {times : List Int} (filename : FileName) (hstd : Standard k)
    (hsteady : ∀ op ∈ ops, steady op = true) (hlimit : ∀ op ∈ ops, limit op ≤ bound)
    (hshort : (c_str filename).length ≤ 237)
    (htimes : suffixes ⟨new, k, [], []⟩ (opening filename flag open_wf :: ops) =
      times.map (suffix_at gmtoff))
    (hclock : times.Pairwise (· < ·)) (hprintable : ∀ t ∈ times, Printable gmtoff t) :
    ∃ s a w, exec step ⟨new, k, [], []⟩ (opening filename flag open_wf :: ops) = some s ∧
      Archived k open_wf bound s (c_str filename) a w ∧
      a.names = times.map (fun t => old_name (c_str filename) (suffix_at gmtoff t)) ∧
      a.names.Pairwise (· < ·) ∧ w.names.Pairwise (· < ·) := by
  have hsorted : (times.map (suffix_at gmtoff)).Pairwise (· < ·) := by
    rw [List.pairwise_map]
    refine hclock.imp_of_mem fun {t t'} ht ht' hlt => ?_
    exact suffix_at_lt (hprintable t ht).1 (hprintable t' ht').2 hlt
  have hrange : ∀ tm ∈ times.map fun t => tm_of (localtime gmtoff t), InRange tm := by
    intro tm htm
    obtain ⟨t, ht, rfl⟩ := List.mem_map.mp htm
    exact inRange_localtime (hprintable t ht)
  have hnodup : (times.map fun t => tm_of (localtime gmtoff t)).Nodup := by
    apply List.Nodup.of_map stamp
    rw [List.map_map]
    refine hsorted.imp fun {suf suf'} hlt heq => ?_
    rw [heq] at hlt
    exact List.lt_irrefl _ hlt
  have hnames := old_names_nodup hshort hrange hnodup
  rw [List.flatMap_map] at hnames
  obtain ⟨s, a, w, hrun, harchived, hnamed⟩ :=
    archived_opened filename flag hstd hsteady hlimit (by
      rw [htimes]
      intro suf hsuf
      obtain ⟨t, ht, rfl⟩ := List.mem_map.mp hsuf
      rw [suffix_at, length_old_name (inRange_localtime (hprintable t ht))]
      omega) (by
      rw [htimes, List.flatMap_map]
      exact hnames)
  rw [htimes] at hnamed
  refine ⟨s, a, w, hrun, harchived, ?_, ?_, ?_⟩
  · rw [hnamed.names, List.map_map]
    rfl
  · rw [hnamed.names]
    change ((times.map (suffix_at gmtoff)).map (old_name (c_str filename))).Pairwise (· < ·)
    rw [List.pairwise_map]
    exact hsorted.imp fun h => old_name_lt _ h
  · rw [hnamed.wf_names]
    cases open_wf with
    | false => exact List.Pairwise.nil
    | true =>
        change ((times.map (suffix_at gmtoff)).map (old_wf_name (c_str filename))).Pairwise (· < ·)
        rw [List.map_map, List.pairwise_map]
        refine hclock.imp_of_mem fun {t t'} ht ht' hlt => ?_
        rw [Function.comp, Function.comp, old_wf_name_at hshort (hprintable t ht),
          old_wf_name_at hshort (hprintable t' ht')]
        exact old_name_lt _ (suffix_at_lt (hprintable t ht).1 (hprintable t' ht').2 hlt)

end

-- A full log is rotated in the last second of February, and once more in the next one.
theorem old_files_of_february :
    let ops : List Op := [.set_max_file_size 9, .log_message (hello 59),
      .rotate_log none none ⟨2024, 3, 1, 0, 0, 0⟩ ⟨false, false⟩]
    ∃ s a w, exec step ⟨new, console, [], []⟩ (opening [97] true true :: ops) = some s ∧
      Archived console true 0 s [97] a w ∧
      a.names = [1709251199, 1709251200].map (fun t => old_name [97] (suffix_at 0 t)) ∧
      a.names.Pairwise (· < ·) ∧ w.names.Pairwise (· < ·) := by
  have hlast : localtime 0 1709251199 = ⟨2024, 2, 29, 23, 59, 59⟩ :=
    Moment.clock_seconds (m := ⟨2024, 2, 29, 23, 59, 59⟩)
      ⟨by decide, by decide, by decide, by decide, by decide⟩
  have hnext : localtime 0 1709251200 = ⟨2024, 3, 1, 0, 0, 0⟩ :=
    Moment.clock_seconds (m := ⟨2024, 3, 1, 0, 0, 0⟩)
      ⟨by decide, by decide, by decide, by decide, by decide⟩
  refine old_files_in_order [97] standard_console (by decide) (by decide) (by decide) ?_ (by decide) ?_
  · simp only [List.map_cons, List.map_nil, suffix_at, hlast, hnext]
    decide
  · intro t ht
    rcases List.mem_pair.mp ht with rfl | rfl
    · exact ⟨by decide, by rw [hlast]; decide⟩
    · exact ⟨by decide, by rw [hnext]; decide⟩

end IgLibs.Logger
