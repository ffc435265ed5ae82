import IgLibs.FsUtils

namespace IgLibs

open Word CString

namespace FileLister

-- next() goes on to the next entry that passes its test.
theorem next_loop_spec (past ahead : List Dirent) :
    (ahead.filter listed = [] ∧ (next_loop past ahead).2 = none) ∨
      ∃ entry past' ahead', next_loop past ahead = (⟨past', ahead'⟩, some entry) ∧
        ahead.filter listed = entry :: ahead'.filter listed ∧ ahead'.length < ahead.length ∧
        (∀ other ∈ entry :: ahead', other ∈ ahead) := by
  induction ahead generalizing past with
  | nil => exact .inl ⟨rfl, rfl⟩
  | cons entry ahead ih =>
      rw [next_loop]
      by_cases hlisted : listed entry = true
      · rw [if_pos hlisted, List.filter_cons_of_pos hlisted]
        exact .inr ⟨entry, past ++ [entry], ahead, rfl, rfl, Nat.lt_succ_self _, fun _ h => h⟩
      · rw [if_neg hlisted, List.filter_cons_of_neg hlisted]
        rcases ih (past ++ [entry]) with hnone | ⟨other, past', ahead', hloop, hfilter, hlt, hmem⟩
        · exact .inl hnone
        · exact .inr ⟨other, past', ahead', hloop, hfilter, Nat.lt_succ_of_lt hlt,
            fun e he => List.mem_cons_of_mem entry (hmem e he)⟩

end FileLister

namespace BossCommon

open FileLister

def total (entries : List Dirent) : Nat := (entries.map fun entry => entry.st_size.toNat).sum

def regular (entries : List Dirent) : List Dirent :=
  entries.filter fun entry => entry.type = .DT_REG

-- What get_dir_files_size says of a directory, as its comment has it.
structure Exact (entries : List Dirent) (max_count : BitVec 32) (result : FilesSize) : Prop where
  ret : result.ret = 0
  file_count : result.file_count.toNat = min max_count.toNat (regular entries).length
  total_size : result.total_size.toNat = total ((regular entries).take result.file_count.toNat)
  no_subdirectory : ∀ entry ∈ result.counted, entry.type ≠ .DT_DIR

-- Every file can be stat'ed, and has the size that its entry says.
def Stats (stat : List UInt8 → Option ULong) (path : List UInt8) (entries : List Dirent) : Prop :=
  ∀ entry ∈ entries, stat (c_str (path ++ 47 :: entry.d_name)) = some entry.st_size

-- The entries that the limit lets through the test of next(), those among them that are no
-- regular files, and the regular files that come short because of these.
def scanned (entries : List Dirent) (max_count : BitVec 32) : List Dirent :=
  (entries.filter listed).take max_count.toNat

def intruders (entries : List Dirent) (max_count : BitVec 32) : List Dirent :=
  (scanned entries max_count).filter fun entry => !decide (entry.type = .DT_REG)

def displaced (entries : List Dirent) (max_count : BitVec 32) : List Dirent :=
  ((regular entries).take max_count.toNat).drop (regular (scanned entries max_count)).length

-- The intruders are none, or they cannot be told from the files that they displace.
structure Countable (entries : List Dirent) (max_count : BitVec 32) : Prop where
  limit : max_count = 0 → entries.filter listed = []
  fits : total ((regular entries).take max_count.toNat) < 2 ^ 64
  unnoticed : intruders entries max_count = [] ∨
    (∀ entry ∈ intruders entries max_count, entry.type ≠ .DT_DIR) ∧
      max_count.toNat ≤ (regular entries).length ∧
      total (intruders entries max_count) % 2 ^ 64 = total (displaced entries max_count) % 2 ^ 64

section

variable {stat : List UInt8 → Option ULong} {path : List UInt8} {max_count : BitVec 32}
  {entries : List Dirent}

theorem total_append (first second : List Dirent) :
    total (first ++ second) = total first + total second := by
  rw [total, List.map_append, List.sum_append]
  rfl

-- One more entry has been counted.
theorem count_succ {counted : List Dirent} {count : BitVec 32} (entry : Dirent)
    (hcount : count.toNat = counted.length) (hroom : counted.length < max 1 max_count.toNat) :
    (count + 1).toNat = (counted ++ [entry]).length := by
  have hlt := max_count.isLt
  have hone : (1 : BitVec 32).toNat = 1 := rfl
  rw [BitVec.toNat_add, List.length_append, List.length_singleton, hcount, hone]
  exact Nat.mod_eq_of_lt (by omega)

theorem size_add {counted : List Dirent} {path_size : ULong} (entry : Dirent)
    (hsize : path_size.toNat = total counted % 2 ^ 64) :
    (path_size + entry.st_size).toNat = total (counted ++ [entry]) % 2 ^ 64 := by
  have hone : total [entry] = entry.st_size.toNat := Nat.add_zero _
  rw [BitVec.toNat_add, hsize, total_append, hone, Nat.mod_add_mod]

-- The loop counts entries until there are max_count of them, but one at least.
theorem files_loop_eq (result : FilesSize) {fuel : Nat} {dirpath : List UInt8}
    {past ahead counted : List Dirent} {count : BitVec 32} {path_size : ULong}
    (hfuel : ahead.length < fuel) (hstats : Stats stat path ahead)
    (hcount : count.toNat = counted.length) (hsize : path_size.toNat = total counted % 2 ^ 64)
    (hroom : counted.length < max 1 max_count.toNat) :
    ∃ final, files_loop stat path max_count result fuel ⟨dirpath, some ⟨past, ahead⟩⟩ count
        path_size counted = some final ∧ final.ret = 0 ∧
      final.counted = counted ++
        (ahead.filter listed).take (max 1 max_count.toNat - counted.length) ∧
      final.file_count.toNat = final.counted.length ∧
      final.total_size.toNat = total final.counted % 2 ^ 64 := by
  induction fuel generalizing past ahead counted count path_size with
  | zero => omega
  | succ fuel ih =>
      rw [files_loop, FileLister.next]
      rcases next_loop_spec past ahead with
        ⟨hnone, hloop⟩ | ⟨entry, past', ahead', hloop, hfilter, hlt, hmem⟩
      · simp only [hloop]
        refine ⟨_, rfl, rfl, ?_, hcount, hsize⟩
        rw [hnone, List.take_nil, List.append_nil]
      · have hstat := hstats entry (hmem entry List.mem_cons_self)
        have hcount' := count_succ entry hcount hroom
        have hsize' := size_add entry hsize
        have hlength : (counted ++ [entry]).length = counted.length + 1 := List.length_append
        simp only [hloop, hstat]
        by_cases hend : max_count ≤ count + 1
        · rw [if_pos hend]
          refine ⟨_, rfl, rfl, ?_, hcount', hsize'⟩
          have hlast : max 1 max_count.toNat - counted.length = 1 := by
            rw [BitVec.le_def, hcount', hlength] at hend
            omega
          rw [hlast, hfilter]
          rfl
        · rw [if_neg hend]
          have hroom' : (counted ++ [entry]).length < max 1 max_count.toNat := by
            rw [BitVec.le_def, hcount'] at hend
            omega
          obtain ⟨final, hrun, hret, hcounted, hfinal⟩ := ih (by omega)
            (fun other hother => hstats other (hmem other (List.mem_cons_of_mem entry hother)))
            hcount' hsize' hroom'
          refine ⟨final, hrun, hret, ?_, hfinal⟩
          have htake : max 1 max_count.toNat - counted.length =
              max 1 max_count.toNat - (counted ++ [entry]).length + 1 := by omega
          rw [hcounted, hfilter, htake, List.take_succ_cons, List.append_assoc]
          rfl

theorem get_dir_files_size_eq {opendir : List UInt8 → Option (List Dirent)} {fuel : Nat}
    (hdir : opendir (c_str path) = some entries) (hstats : Stats stat path entries)
    (hfuel : entries.length < fuel) (file_count : BitVec 32) (total_size : ULong) :
    ∃ final, get_dir_files_size fuel opendir stat path file_count total_size max_count =
        some final ∧ final.ret = 0 ∧
      final.counted = (entries.filter listed).take (max 1 max_count.toNat) ∧
      final.file_count.toNat = final.counted.length ∧
      final.total_size.toNat = total final.counted % 2 ^ 64 := by
  have hopen : ((FileLister.new path).open_dir opendir).1.start =
      ⟨path, some ⟨[], entries⟩⟩ := by
    simp [FileLister.new, open_dir, FileLister.close, hdir, FileLister.start]
  rw [get_dir_files_size, hopen]
  have hroom : 0 < max 1 max_count.toNat := by omega
  exact files_loop_eq _ hfuel hstats rfl rfl hroom

-- The regular files are among the entries that pass the test, so those that the limit lets
-- through come first.
theorem regular_split (entries : List Dirent) (max_count : BitVec 32) :
    regular entries = regular (scanned entries max_count) ++
      regular ((entries.filter listed).drop max_count.toNat) := by
  have hlisted : regular (entries.filter listed) = regular entries := by
    rw [regular, List.filter_filter]
    apply List.filter_congr
    intro entry _
    by_cases htype : entry.type = .DT_REG
    · have hpass : listed entry = true := by
        cases hd : entry.d_type with
        | none => simp [listed, hd]
        | some t => simp [listed, hd, entry.reported t hd, htype]
      simp [htype, hpass]
    · simp [htype]
  rw [← hlisted, scanned, regular, regular, regular, ← List.filter_append, List.take_append_drop]

-- Each scanned entry is a regular file or an intruder.
theorem scanned_split (entries : List Dirent) (max_count : BitVec 32) :
    (scanned entries max_count).length = (regular (scanned entries max_count)).length +
        (intruders entries max_count).length ∧
      total (scanned entries max_count) = total (regular (scanned entries max_count)) +
        total (intruders entries max_count) := by
  have hperm : (regular (scanned entries max_count) ++ intruders entries max_count).Perm
      (scanned entries max_count) := List.filter_append_perm _ _
  constructor
  · rw [← hperm.length_eq, List.length_append]
  · rw [← total_append, total, total]
    exact (hperm.map _).symm.sum_nat

theorem taken_eq (entries : List Dirent) (max_count : BitVec 32) :
    (regular entries).take max_count.toNat =
      regular (scanned entries max_count) ++ displaced entries max_count := by
  have hle : (regular (scanned entries max_count)).length ≤ max_count.toNat :=
    Nat.le_trans (List.length_filter_le _ _) (List.length_take_le _ _)
  have hfirst : ((regular entries).take max_count.toNat).take
      (regular (scanned entries max_count)).length = regular (scanned entries max_count) := by
    rw [List.take_take, Nat.min_eq_left hle, regular_split entries max_count]
    exact List.take_left
  rw [displaced]
  conv_lhs => rw [← List.take_append_drop (regular (scanned entries max_count)).length
    ((regular entries).take max_count.toNat), hfirst]

-- How many entries of each kind there are.
theorem lengths (entries : List Dirent) (max_count : BitVec 32) :
    (scanned entries max_count).length = min max_count.toNat (entries.filter listed).length ∧
      (regular (scanned entries max_count)).length + (displaced entries max_count).length =
        min max_count.toNat (regular entries).length ∧
      (regular entries).length ≤ (entries.filter listed).length ∧
      ((entries.filter listed).length ≤ max_count.toNat →
        (regular entries).length = (regular (scanned entries max_count)).length) := by
  have hsplit := congrArg List.length (regular_split entries max_count)
  rw [List.length_append] at hsplit
  refine ⟨List.length_take, ?_, ?_, fun hle => ?_⟩
  · rw [← List.length_append, ← taken_eq, List.length_take]
  · have hscanned : (regular (scanned entries max_count)).length ≤
        (scanned entries max_count).length := List.length_filter_le _ _
    have hrest : (regular ((entries.filter listed).drop max_count.toNat)).length ≤
        ((entries.filter listed).drop max_count.toNat).length := List.length_filter_le _ _
    rw [scanned, List.length_take] at hscanned
    rw [List.length_drop] at hrest
    rw [hsplit, scanned]
    omega
  · rw [hsplit, List.drop_eq_nil_of_le hle]
    rfl

theorem mem_intruders {entry : Dirent} :
    entry ∈ intruders entries max_count ↔
      entry ∈ scanned entries max_count ∧ entry.type ≠ .DT_REG := by
  rw [intruders, List.mem_filter, Bool.not_eq_true', decide_eq_false_iff_not]

theorem displaced_eq_nil (hnil : intruders entries max_count = []) :
    displaced entries max_count = [] := by
  obtain ⟨hlength, -⟩ := scanned_split entries max_count
  obtain ⟨hscanned, hdisplaced, hlisted, -⟩ := lengths entries max_count
  apply List.eq_nil_of_length_eq_zero
  rw [hnil, List.length_nil] at hlength
  omega

-- The number is right, the sum is right, and no directory is among them.
theorem length_scanned_iff :
    (scanned entries max_count).length = min max_count.toNat (regular entries).length ↔
      intruders entries max_count = [] ∨ max_count.toNat ≤ (regular entries).length := by
  obtain ⟨hlength, -⟩ := scanned_split entries max_count
  obtain ⟨hscanned, hdisplaced, hlisted, hall⟩ := lengths entries max_count
  constructor
  · intro hmin
    by_cases hnil : intruders entries max_count = []
    · exact .inl hnil
    · have hpos := List.length_pos_iff.mpr hnil
      exact .inr (by omega)
  · rintro (hnil | hmany)
    · rw [hnil, List.length_nil] at hlength
      omega
    · omega

theorem total_scanned_iff :
    total (scanned entries max_count) % 2 ^ 64 =
        total ((regular entries).take max_count.toNat) ↔
      total ((regular entries).take max_count.toNat) < 2 ^ 64 ∧
        total (intruders entries max_count) % 2 ^ 64 =
          total (displaced entries max_count) % 2 ^ 64 := by
  obtain ⟨-, htotal⟩ := scanned_split entries max_count
  rw [taken_eq, total_append, htotal]
  omega

theorem no_directory_iff :
    (∀ entry ∈ scanned entries max_count, entry.type ≠ .DT_DIR) ↔
      ∀ entry ∈ intruders entries max_count, entry.type ≠ .DT_DIR := by
  constructor
  · exact fun h entry hmem => h entry (mem_intruders.mp hmem).1
  · intro h entry hmem
    by_cases htype : entry.type = .DT_REG
    · rw [htype]
      decide
    · exact h entry (mem_intruders.mpr ⟨hmem, htype⟩)

-- The limit is not 0 here, so that the entries counted are the scanned ones.
theorem exact_iff_of_scanned {final : FilesSize} (hret : final.ret = 0)
    (hcounted : final.counted = scanned entries max_count)
    (hcount : final.file_count.toNat = final.counted.length)
    (hsize : final.total_size.toNat = total final.counted % 2 ^ 64) :
    Exact entries max_count final ↔
      total ((regular entries).take max_count.toNat) < 2 ^ 64 ∧
        (intruders entries max_count = [] ∨
          (∀ entry ∈ intruders entries max_count, entry.type ≠ .DT_DIR) ∧
          max_count.toNat ≤ (regular entries).length ∧
          total (intruders entries max_count) % 2 ^ 64 =
            total (displaced entries max_count) % 2 ^ 64) := by
  have htake : final.file_count.toNat = min max_count.toNat (regular entries).length →
      (regular entries).take final.file_count.toNat = (regular entries).take max_count.toNat := by
    intro h
    rw [h, ← List.take_eq_take_min]
  rw [hcounted] at hcount hsize
  constructor
  · intro h
    have hmin := h.file_count
    have hsum := h.total_size
    have hdirs := h.no_subdirectory
    rw [htake hmin, hsize, total_scanned_iff] at hsum
    rw [hcount, length_scanned_iff] at hmin
    rw [hcounted, no_directory_iff] at hdirs
    exact ⟨hsum.1, hmin.imp_right fun hmany => ⟨hdirs, hmany, hsum.2⟩⟩
  · rintro ⟨hfits, hunnoticed⟩
    have hmin : final.file_count.toNat = min max_count.toNat (regular entries).length := by
      rw [hcount, length_scanned_iff]
      exact hunnoticed.imp_right fun h => h.2.1
    refine ⟨hret, hmin, ?_, ?_⟩
    · rw [htake hmin, hsize, total_scanned_iff]
      refine ⟨hfits, ?_⟩
      rcases hunnoticed with hnil | ⟨-, -, hsame⟩
      · rw [hnil, displaced_eq_nil hnil]
      · exact hsame
    · rw [hcounted, no_directory_iff]
      rcases hunnoticed with hnil | ⟨hdirs, -, -⟩
      · rw [hnil]
        exact fun _ hmem => absurd hmem List.not_mem_nil
      · exact hdirs

-- With the limit 0 one entry is counted if there is one.
theorem exact_zero_iff {final : FilesSize} (hret : final.ret = 0)
    (hcounted : final.counted = (entries.filter listed).take 1)
    (hcount : final.file_count.toNat = final.counted.length)
    (hsize : final.total_size.toNat = total final.counted % 2 ^ 64) :
    Exact entries 0 final ↔ entries.filter listed = [] := by
  constructor
  · intro h
    have hmin : final.file_count.toNat = 0 := h.file_count.trans (Nat.zero_min _)
    rw [hcount, hcounted, List.length_take] at hmin
    exact List.eq_nil_of_length_eq_zero (by omega)
  · intro hnil
    rw [hnil, List.take_nil] at hcounted
    rw [hcounted] at hcount hsize
    refine ⟨hret, hcount.trans (Nat.zero_min _).symm, ?_, ?_⟩
    · rw [hcount]
      exact hsize
    · intro entry hmem
      rw [hcounted] at hmem
      cases hmem

theorem countable_zero_iff : Countable entries 0 ↔ entries.filter listed = [] :=
  ⟨fun h => h.limit rfl, fun hnil => ⟨fun _ => hnil, Nat.two_pow_pos 64, .inl rfl⟩⟩

end

-- For every directory whose files can be stat'ed, get_dir_files_size says what its comment has,
-- exactly if the limit is not 0 (or nothing passes the test of next()), the sizes fit 64 bits and
-- no entry that only passes because its type is not known makes a difference.
theorem files_size_exact_iff {fuel : Nat} {opendir : List UInt8 → Option (List Dirent)}
    {stat : List UInt8 → Option ULong} {path : List UInt8} {entries : List Dirent}
    (hdir : opendir (c_str path) = some entries) (hstats : Stats stat path entries)
    (hfuel : entries.length < fuel) (file_count : BitVec 32) (total_size : ULong)
    (max_count : BitVec 32) :
    ∃ final, get_dir_files_size fuel opendir stat path file_count total_size max_count =
        some final ∧ (Exact entries max_count final ↔ Countable entries max_count) := by
  obtain ⟨final, hrun, hret, hcounted, hcount, hsize⟩ :=
    @get_dir_files_size_eq stat path max_count entries opendir fuel hdir hstats hfuel file_count
      total_size
  refine ⟨final, hrun, ?_⟩
  by_cases hzero : max_count = 0
  · subst hzero
    rw [countable_zero_iff]
    exact exact_zero_iff hret hcounted hcount hsize
  · have hpos : max 1 max_count.toNat = max_count.toNat := by
      have hne : max_count.toNat ≠ 0 := fun h => hzero (BitVec.eq_of_toNat_eq h)
      omega
    rw [hpos] at hcounted
    rw [exact_iff_of_scanned hret hcounted hcount hsize]
    constructor
    · exact fun h => ⟨fun hno => absurd hno hzero, h.1, h.2⟩
    · exact fun h => ⟨h.fits, h.unnoticed⟩

-- An entry of the given name and type whose type readdir reports or not.
def entry_of (d_name : List UInt8) (type : FileType) (st_size : ULong) (known : Bool) : Dirent where
  d_name := d_name
  type := type
  st_size := st_size
  d_type := if known then some type else none
  reported := by
    intro t ht
    cases known with
    | false => cases ht
    | true => exact (Option.some.inj ht).symm

-- Two regular files, one of them of unknown type, and then a subdirectory of unknown type.
theorem files_size_exact_iff_two :
    let a := entry_of [97] .DT_REG 5 false
    let b := entry_of [98] .DT_REG 7 true
    let entries := [entry_of [46] .DT_DIR 0 true, a, b, entry_of [99] .DT_DIR 0 false]
    let stat : List UInt8 → Option ULong := fun path =>
      some (if path = [100, 47, 97] then 5 else if path = [100, 47, 98] then 7 else 0)
    ∃ final, get_dir_files_size 5 (fun _ => some entries) stat [100] 0 0 2 = some final ∧
      final.file_count = 2 ∧ final.total_size = 12 ∧ Exact entries 2 final := by
  intro a b entries stat
  have hstats : Stats stat [100] entries := by
    intro entry hmem
    simp only [entries, List.mem_cons, List.not_mem_nil, or_false] at hmem
    rcases hmem with rfl | rfl | rfl | rfl <;> rfl
  obtain ⟨final, hrun, hexact⟩ := @files_size_exact_iff 5 (fun _ => some entries) stat [100]
    entries rfl hstats (by decide) 0 0 2
  have hcountable : Countable entries 2 := ⟨by decide, by decide, .inl (by decide)⟩
  have hresult : get_dir_files_size 5 (fun _ => some entries) stat [100] 0 0 2 =
      some ⟨0, 2, 12, [a, b]⟩ := rfl
  obtain rfl := Option.some.inj (hrun.symm.trans hresult)
  exact ⟨_, hrun, rfl, rfl, hexact.mpr hcountable⟩

-- The subdirectories "." and ".." of a file system that reports no types are counted.
theorem subdirectories_counted :
    let entries := [entry_of [46] .DT_DIR 4096 false, entry_of [46, 46] .DT_DIR 4096 false]
    ∃ final, get_dir_files_size 3 (fun _ => some entries) (fun _ => some 4096) [100] 0 0 20000 =
        some final ∧ Stats (fun _ => some 4096) [100] entries ∧ final.file_count = 2 ∧
      final.total_size = 8192 ∧ ¬Exact entries 20000 final := by
  intro entries
  refine ⟨⟨0, 2, 8192, entries⟩, rfl, ?_, rfl, rfl, fun h => ?_⟩
  · intro entry hmem
    simp only [entries, List.mem_cons, List.not_mem_nil, or_false] at hmem
    rcases hmem with rfl | rfl <;> rfl
  · exact h.no_subdirectory (entry_of [46] .DT_DIR 4096 false) List.mem_cons_self rfl

end BossCommon

end IgLibs
