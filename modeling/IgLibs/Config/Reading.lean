import IgLibs.Config.Theorems

namespace IgLibs.Config

abbrev Pairs := List (List UInt8 × List UInt8)

-- The pairs that lines give until an include fails, and whether none does.
def read_lines (inc : List UInt8 → Option (Pairs × Bool)) :
    List (List UInt8) → Option (Pairs × Bool)
  | [] => some ([], true)
  | line :: rest =>
      match setting line with
      | none => read_lines inc rest
      | some (key, val) =>
          if key = include_word then do
            let (inner, ret) ← inc val
            if ret then do
              let (pairs, ret) ← read_lines inc rest
              some (inner ++ pairs, ret)
            else some (inner, false)
          else do
            let (pairs, ret) ← read_lines inc rest
            some ((key, val) :: pairs, ret)

-- What a file and its includes say before the parser stops, whatever is in the table.
def reading (files : Files) : Nat → List UInt8 → Option (Pairs × Bool)
  | 0, _ => none
  | depth + 1, name =>
      match file_lines files name with
      | none => none
      | some none => some ([], false)
      | some (some lines) => read_lines (reading files depth) lines

section

variable {inc : List UInt8 → Option (Pairs × Bool)} {line key val : List UInt8}
  {rest : List (List UInt8)}

theorem read_lines_of_none (hline : setting line = none) :
    read_lines inc (line :: rest) = read_lines inc rest := by
  simp only [read_lines, hline]

theorem read_lines_of_pair (hline : setting line = some (key, val)) (hkey : key ≠ include_word) :
    read_lines inc (line :: rest) =
      (read_lines inc rest).map fun r => ((key, val) :: r.1, r.2) := by
  simp only [read_lines, hline, if_neg hkey]
  cases read_lines inc rest <;> rfl

theorem read_lines_of_include (hline : setting line = some (include_word, val)) :
    read_lines inc (line :: rest) = (inc val).bind fun r =>
      if r.2 then (read_lines inc rest).map fun s => (r.1 ++ s.1, s.2) else some (r.1, false) := by
  simp only [read_lines, hline, if_true]
  cases inc val with
  | none => rfl
  | some r =>
      obtain ⟨inner, ret⟩ := r
      cases ret with
      | false => rfl
      | true => cases read_lines inc rest <;> rfl

end

def applied (overwrite : Bool) (t : Settings) (r : Pairs × Bool) : Settings × Bool :=
  (r.1.foldl (Table.put overwrite) t, r.2)

-- Parsing is reading, with the pairs set in turn.
theorem run_lines_eq_read_lines {inc : List UInt8 → Settings → Option (Settings × Bool)}
    {inc' : List UInt8 → Option (Pairs × Bool)} (overwrite : Bool)
    (hinc : ∀ val t, inc val t = (inc' val).map (applied overwrite t))
    (lines : List (List UInt8)) (t : Settings) :
    run_lines inc overwrite lines t = (read_lines inc' lines).map (applied overwrite t) := by
  induction lines generalizing t with
  | nil => rfl
  | cons line rest ih =>
      rw [run_lines]
      cases hline : setting line with
      | none =>
          rw [run_line_of_none t hline, read_lines_of_none hline, ← ih t]
          rfl
      | some entry =>
          obtain ⟨key, val⟩ := entry
          by_cases hkey : key = include_word
          · subst hkey
            rw [run_line_of_include t hline, read_lines_of_include hline, hinc]
            cases inc' val with
            | none => rfl
            | some r =>
                obtain ⟨inner, ret⟩ := r
                cases ret with
                | false => rfl
                | true =>
                    have hrest := ih (inner.foldl (Table.put overwrite) t)
                    simp only [Option.map_some, applied, Option.bind_eq_bind, Option.bind_some,
                      ite_true, hrest, Option.map_map]
                    congr 1
                    funext s
                    exact congrArg (·, s.2) (List.foldl_append ..).symm
          · rw [run_line_of_pair t hline hkey, read_lines_of_pair hline hkey]
            have hrest := ih (t.put overwrite (key, val))
            simp only [Option.bind_eq_bind, Option.bind_some, ite_true, hrest, Option.map_map]
            rfl

theorem interpret_eq_reading (files : Files) (overwrite : Bool) (depth : Nat) (name : List UInt8)
    (t : Settings) :
    interpret files overwrite depth name t = (reading files depth name).map (applied overwrite t) := by
  induction depth generalizing name t with
  | zero => rfl
  | succ depth ih =>
      unfold interpret reading
      cases file_lines files name with
      | none => rfl
      | some lines =>
          cases lines with
          | none => rfl
          | some lines => exact run_lines_eq_read_lines overwrite ih lines t

theorem parse_eq_reading (files : Files) (overwrite : Bool) (depth : Nat) (name : List UInt8)
    (c : State) :
    (parse files overwrite depth (some name) c).map outcome =
      (reading files depth name).map (applied overwrite c.m_config_hash) := by
  rw [parse_refines, interpret_eq_reading]

-- More room for nested includes changes no result.
theorem read_lines_mono {inc inc' : List UInt8 → Option (Pairs × Bool)}
    (hinc : ∀ val r, inc val = some r → inc' val = some r) {lines : List (List UInt8)}
    {r : Pairs × Bool} (hr : read_lines inc lines = some r) : read_lines inc' lines = some r := by
  induction lines generalizing r with
  | nil => exact hr
  | cons line rest ih =>
      cases hline : setting line with
      | none =>
          rw [read_lines_of_none hline] at hr ⊢
          exact ih hr
      | some entry =>
          obtain ⟨key, val⟩ := entry
          by_cases hkey : key = include_word
          · subst hkey
            rw [read_lines_of_include hline] at hr ⊢
            obtain ⟨⟨inner, ret⟩, hinner, hr⟩ := Option.bind_eq_some_iff.mp hr
            rw [hinc val _ hinner, Option.bind_some]
            cases ret with
            | false => exact hr
            | true =>
                simp only [ite_true] at hr ⊢
                obtain ⟨s, hrest, hr⟩ := Option.map_eq_some_iff.mp hr
                rw [ih hrest]
                exact congrArg some hr
          · rw [read_lines_of_pair hline hkey] at hr ⊢
            obtain ⟨s, hrest, hr⟩ := Option.map_eq_some_iff.mp hr
            rw [ih hrest]
            exact congrArg some hr

theorem reading_mono {files : Files} {depth depth' : Nat} (hdepth : depth ≤ depth')
    {name : List UInt8} {r : Pairs × Bool} (hr : reading files depth name = some r) :
    reading files depth' name = some r := by
  induction depth generalizing depth' name r with
  | zero => cases hr
  | succ depth ih =>
      obtain ⟨depth', rfl⟩ := Nat.exists_eq_succ_of_ne_zero (show depth' ≠ 0 by omega)
      unfold reading at hr ⊢
      cases hlines : file_lines files name with
      | none =>
          rw [hlines] at hr
          cases hr
      | some lines =>
          rw [hlines] at hr
          cases lines with
          | none => exact hr
          | some lines => exact read_lines_mono (fun val r hinner => ih (by omega) hinner) hr

section

variable {files : Files} {overwrite : Bool} {depth : Nat} {c next : State} {ret : Bool}

theorem parse_eq_some {name : List UInt8}
    (hparse : parse files overwrite depth (some name) c = some (next, ret)) :
    ∃ pairs, reading files depth name = some (pairs, ret) ∧
      next.m_config_hash = pairs.foldl (Table.put overwrite) c.m_config_hash := by
  have hread := parse_eq_reading files overwrite depth name c
  rw [hparse, Option.map_some, eq_comm] at hread
  obtain ⟨⟨pairs, ret'⟩, hpairs, houtcome⟩ := Option.map_eq_some_iff.mp hread
  obtain ⟨hhash, rfl⟩ := Prod.mk.inj houtcome
  exact ⟨pairs, hpairs, hhash.symm⟩

theorem parse_of_reading {name : List UInt8} {pairs : Pairs}
    (hread : reading files depth name = some (pairs, ret)) (overwrite : Bool) (c : State) :
    ∃ next, parse files overwrite depth (some name) c = some (next, ret) ∧
      next.m_config_hash = pairs.foldl (Table.put overwrite) c.m_config_hash := by
  have hparse := parse_eq_reading files overwrite depth name c
  rw [hread, Option.map_some] at hparse
  obtain ⟨⟨next, ret'⟩, hnext, houtcome⟩ := Option.map_eq_some_iff.mp hparse
  obtain ⟨hhash, rfl⟩ := Prod.mk.inj houtcome
  exact ⟨next, hnext, hhash⟩

-- A key has a last value exactly if it has a first one.
theorem lookup_reverse_eq_none {pairs : Pairs} {key : List UInt8} :
    pairs.reverse.lookup key = none ↔ pairs.lookup key = none := by
  rw [List.lookup_eq_none_iff, List.lookup_eq_none_iff]
  exact ⟨fun h p hp => h p (List.mem_reverse.mpr hp), fun h p hp => h p (List.mem_reverse.mp hp)⟩

-- Reloading an unchanged configuration succeeds as loading it did. It changes nothing exactly if
-- loading took the last values as well, or the first value of each key is also its last.
theorem reload_after_load {name : Option (List UInt8)} {loaded : State}
    (hload : load files depth name overwrite c = some (loaded, true)) :
    ∃ file pairs, name = some file ∧ reading files depth file = some (pairs, true) ∧
      ∀ depth', depth ≤ depth' → ∀ d : State, d.m_config_hash = loaded.m_config_hash →
        ∃ reloaded, reload files depth' name d = some (reloaded, true) ∧
          ((∀ key, reloaded.m_config_hash.lookup key = loaded.m_config_hash.lookup key) ↔
            overwrite = true ∨ ∀ key, pairs.lookup key = pairs.reverse.lookup key) := by
  cases name with
  | none => cases depth <;> cases hload
  | some file =>
      obtain ⟨pairs, hread, hloaded⟩ := parse_eq_some hload
      refine ⟨file, pairs, rfl, hread, fun depth' hdepth d hd => ?_⟩
      obtain ⟨reloaded, hreload, hhash⟩ := parse_of_reading (reading_mono hdepth hread) true
        { d with m_file_name := some file }
      refine ⟨reloaded, hreload, ?_⟩
      have hlookup (key : List UInt8) : reloaded.m_config_hash.lookup key =
          (pairs.reverse.lookup key).or (loaded.m_config_hash.lookup key) := by
        rw [hhash, Table.lookup_foldl_put_true]
        exact congrArg (fun t => (pairs.reverse.lookup key).or (AList.lookup key t)) hd
      cases overwrite with
      | true =>
          have hlast (key : List UInt8) :
              loaded.m_config_hash.lookup key = pairs.reverse.lookup key := by
            rw [hloaded, Table.lookup_foldl_put_true]
            exact Option.or_none
          refine ⟨fun _ => .inl rfl, fun _ key => ?_⟩
          rw [hlookup, hlast, Option.or_self]
      | false =>
          have hfirst (key : List UInt8) : loaded.m_config_hash.lookup key = pairs.lookup key := by
            rw [hloaded, Table.lookup_foldl_put_false]
            exact Option.none_or
          simp only [hlookup, hfirst, Bool.false_eq_true, false_or]
          refine forall_congr' fun key => ?_
          cases hlast : pairs.reverse.lookup key with
          | none => simp [lookup_reverse_eq_none.mp hlast]
          | some val => simp [eq_comm]

end

-- "k 1\nk 2"
def repeated_key : Files := AList.insert [97] (.contents [107, 32, 49, 10, 107, 32, 50]) ∅

private theorem reading_repeated_key :
    reading repeated_key 1 [97] = some ([([107], [49]), ([107], [50])], true) := rfl

theorem reload_after_load_overwriting :
    ∃ loaded reloaded, load repeated_key 1 (some [97]) true new = some (loaded, true) ∧
      reload repeated_key 1 (some [97]) loaded = some (reloaded, true) ∧
      ∀ key, reloaded.m_config_hash.lookup key = loaded.m_config_hash.lookup key := by
  obtain ⟨loaded, hload, -⟩ := parse_of_reading reading_repeated_key true
    { new with m_file_name := some [97], m_config_hash := ∅ }
  obtain ⟨_, pairs, _, _, hall⟩ := reload_after_load hload
  obtain ⟨reloaded, hreload, hsame⟩ := hall 1 (Nat.le_refl 1) loaded rfl
  exact ⟨loaded, reloaded, hload, hreload, hsame.mpr (.inl rfl)⟩

-- Loading keeps the first value of a repeated key, reloading sets the last one.
theorem reload_changes_repeated_key :
    ∃ loaded reloaded, load repeated_key 1 (some [97]) false new = some (loaded, true) ∧
      reload repeated_key 1 (some [97]) loaded = some (reloaded, true) ∧
      loaded.m_config_hash.lookup [107] = some [49] ∧
      reloaded.m_config_hash.lookup [107] = some [50] := by
  obtain ⟨loaded, hload, hfirst⟩ := parse_of_reading reading_repeated_key false
    { new with m_file_name := some [97], m_config_hash := ∅ }
  obtain ⟨reloaded, hreload, hlast⟩ := parse_of_reading reading_repeated_key true
    { loaded with m_file_name := some [97] }
  refine ⟨loaded, reloaded, hload, hreload, ?_, ?_⟩
  · rw [hfirst, Table.lookup_foldl_put_false]
    rfl
  · rw [hlast, Table.lookup_foldl_put_true]
    rfl

section

variable {files : Files} {depth : Nat} {c : State}

-- A failed reload has set what it read before the failure, and nothing else.
theorem reload_failed {name : Option (List UInt8)} {failed : State}
    (hreload : reload files depth name c = some (failed, false)) :
    ∃ pairs : Pairs,
      (∀ file, name = some file → reading files depth file = some (pairs, false)) ∧
      (∀ key, failed.m_config_hash.lookup key =
        (pairs.reverse.lookup key).or (c.m_config_hash.lookup key)) ∧
      ((∀ file, name = some file → file_lines files file = some none) →
        failed.m_config_hash = c.m_config_hash) := by
  cases name with
  | none =>
      have hfailed : failed = { c with m_file_name := none } := by
        cases depth with
        | zero => exact (Prod.mk.inj (Option.some.inj hreload)).1.symm
        | succ depth => exact (Prod.mk.inj (Option.some.inj hreload)).1.symm
      refine ⟨[], nofun, fun key => ?_, fun _ => ?_⟩
      · rw [hfailed]
        exact Option.none_or.symm
      · rw [hfailed]
  | some file =>
      obtain ⟨pairs, hread, hfailed⟩ := parse_eq_some hreload
      refine ⟨pairs, fun other hother => by cases hother; exact hread, fun key => ?_, fun hno => ?_⟩
      · rw [hfailed, Table.lookup_foldl_put_true]
      · cases depth with
        | zero => cases hread
        | succ depth =>
            rw [reading, hno file rfl] at hread
            obtain rfl := (Prod.mk.inj (Option.some.inj hread)).1
            exact hfailed

end

-- "k 1\ninclude z", where z does not exist
def broken_include : Files :=
  AList.insert [97] (.contents ([107, 32, 49, 10] ++ include_word ++ [32, 122])) ∅

private theorem reading_broken_include :
    reading broken_include 2 [97] = some ([([107], [49])], false) := rfl

theorem reload_failed_broken_include :
    ∃ failed pairs, reload broken_include 2 (some [97]) new = some (failed, false) ∧
      reading broken_include 2 [97] = some (pairs, false) ∧
      ∀ key, failed.m_config_hash.lookup key =
        (pairs.reverse.lookup key).or (new.m_config_hash.lookup key) := by
  obtain ⟨failed, hreload, -⟩ := parse_of_reading reading_broken_include true
    { new with m_file_name := some [97] }
  obtain ⟨pairs, hread, hkeys, -⟩ := reload_failed hreload
  exact ⟨failed, pairs, hreload, hread [97] rfl, hkeys⟩

-- The key in front of the include that fails has been set.
theorem reload_fails_halfway :
    ∃ failed, reload broken_include 2 (some [97]) new = some (failed, false) ∧
      new.m_config_hash.lookup [107] = none ∧ failed.m_config_hash.lookup [107] = some [49] := by
  obtain ⟨failed, hreload, hhash⟩ := parse_of_reading reading_broken_include true
    { new with m_file_name := some [97] }
  refine ⟨failed, hreload, rfl, ?_⟩
  rw [hhash, Table.lookup_foldl_put_true]
  rfl

end IgLibs.Config
