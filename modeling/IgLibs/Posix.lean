import Mathlib.Data.List.Basic
import Mathlib.Logic.Function.Basic

namespace IgLibs

-- The descriptors of one process, and the files behind them. A file has one name at most, and
-- lives on without one. `none` in the table is a descriptor that is not open.
structure Posix (N : Type*) where
  dir : N → Option Nat
  contents : Nat → List UInt8
  files : Nat
  table : List (Option Nat)
  named : ∀ name file, dir name = some file → file < files
  no_links : ∀ name other file, dir name = some file → dir other = some file → name = other
  opened : ∀ file, some file ∈ table → file < files

namespace Posix

variable {N : Type*}

-- The file that a descriptor is open on.
def file (k : Posix N) (fd : Int) : Option Nat :=
  if 0 ≤ fd then (k.table[fd.toNat]?).join else none

-- The lowest descriptor that is not open.
def lowest (table : List (Option Nat)) : Nat := table.findIdx fun entry => entry.isNone

def install (table : List (Option Nat)) (fd : Nat) (entry : Option Nat) : List (Option Nat) :=
  (table ++ List.replicate (fd + 1 - table.length) none).set fd entry

theorem getElem?_install (table : List (Option Nat)) (fd : Nat) (entry : Option Nat) (i : Nat) :
    ((install table fd entry)[i]?).join = if i = fd then entry else (table[i]?).join := by
  rw [install, List.getElem?_set]
  by_cases hi : fd = i
  · subst hi
    have hlt : fd < (table ++ List.replicate (fd + 1 - table.length) none).length := by
      rw [List.length_append, List.length_replicate]
      omega
    rw [if_pos rfl, if_pos rfl, if_pos hlt]
    rfl
  · rw [if_neg hi, if_neg (Ne.symm hi), List.getElem?_append]
    by_cases hlt : i < table.length
    · rw [if_pos hlt]
    · rw [if_neg hlt, List.getElem?_eq_none (Nat.le_of_not_lt hlt), List.getElem?_replicate]
      split <;> rfl

theorem mem_install {table : List (Option Nat)} {fd : Nat} {entry : Option Nat} {file : Nat}
    (h : some file ∈ install table fd entry) : some file ∈ table ∨ entry = some file := by
  obtain ⟨i, hi⟩ := List.mem_iff_getElem?.mp h
  have hjoin := getElem?_install table fd entry i
  rw [hi, Option.join_some] at hjoin
  by_cases hfd : i = fd
  · rw [if_pos hfd] at hjoin
    exact .inr hjoin.symm
  · rw [if_neg hfd] at hjoin
    refine .inl (List.mem_of_getElem? (i := i) ?_)
    exact Option.join_eq_some_iff.mp hjoin.symm

-- A new empty file, unless the name is there.
def create [DecidableEq N] (k : Posix N) (name : N) : Posix N :=
  if k.dir name = none then
    { k with
      dir := Function.update k.dir name (some k.files)
      contents := Function.update k.contents k.files []
      files := k.files + 1
      named := by
        intro n file h
        rw [Function.update_apply] at h
        split at h
        · cases h
          exact Nat.lt_succ_self _
        · exact Nat.lt_succ_of_lt (k.named n file h)
      no_links := by
        intro n m file hn hm
        rw [Function.update_apply] at hn hm
        split at hn
        · rename_i hname
          split at hm
          · rename_i hother
            exact hname.trans hother.symm
          · cases hn
            exact absurd (k.named m _ hm) (Nat.lt_irrefl _)
        · split at hm
          · cases hm
            exact absurd (k.named n _ hn) (Nat.lt_irrefl _)
          · exact k.no_links n m file hn hm
      opened := fun file h => Nat.lt_succ_of_lt (k.opened file h) }
  else k

-- A descriptor for the file with a name, if there is one.
def attach (k : Posix N) (fd : Nat) (name : N) : Posix N where
  dir := k.dir
  contents := k.contents
  files := k.files
  table := install k.table fd (k.dir name)
  named := k.named
  no_links := k.no_links
  opened := by
    intro file h
    rcases mem_install h with h | h
    · exact k.opened file h
    · exact k.named name file h

-- open(2), with or without O_CREAT. `fault` stands for every error that is not about the name.
def open_file [DecidableEq N] (k : Posix N) (name : N) (creat fault : Bool) : Posix N × Int :=
  if fault then (k, -1)
  else if k.dir name = none ∧ creat = false then (k, -1)
  else
    let k := k.create name
    let fd := lowest k.table
    (k.attach fd name, fd)

theorem mem_table_of_file {k : Posix N} {fd : Int} {file : Nat} (h : k.file fd = some file) :
    some file ∈ k.table := by
  rw [Posix.file] at h
  split at h
  · exact List.mem_of_getElem? (Option.join_eq_some_iff.mp h)
  · cases h

def dup2 (k : Posix N) (old new : Int) : Posix N × Int :=
  if k.file old = none ∨ new < 0 then (k, -1)
  else
    ({ k with
       table := install k.table new.toNat (k.file old)
       opened := by
         intro file h
         rcases mem_install h with h | h
         · exact k.opened file h
         · exact k.opened file (mem_table_of_file h) }, new)

def close (k : Posix N) (fd : Int) : Posix N × Int :=
  if k.file fd = none then (k, -1)
  else
    ({ k with
       table := install k.table fd.toNat none
       opened := by
         intro file h
         rcases mem_install h with h | h
         · exact k.opened file h
         · cases h }, 0)

-- Bytes go to the end of the file, as O_APPEND has it.
def append (k : Posix N) (fd : Int) (bytes : List UInt8) : Posix N :=
  match k.file fd with
  | none => k
  | some file =>
      { k with contents := Function.update k.contents file (k.contents file ++ bytes) }

-- lseek(2) to the end.
def size (k : Posix N) (fd : Int) : Option Nat := (k.file fd).map fun file => (k.contents file).length

-- What is in the file with a name.
def text (k : Posix N) (name : N) : List UInt8 :=
  match k.dir name with
  | none => []
  | some file => k.contents file

def rename [DecidableEq N] (k : Posix N) (old new : N) : Posix N :=
  if k.dir old = none ∨ old = new then k
  else
    { k with
      dir := Function.update (Function.update k.dir old none) new (k.dir old)
      named := by
        intro n file h
        simp only [Function.update_apply] at h
        split at h
        · exact k.named old file h
        · split at h
          · cases h
          · exact k.named n file h
      no_links := by
        intro n m file hn hm
        simp only [Function.update_apply] at hn hm
        split at hn
        · rename_i hnew
          split at hm
          · rename_i hother
            exact hnew.trans hother.symm
          · split at hm
            · cases hm
            · rename_i hother
              exact absurd (k.no_links m old file hm hn) hother
        · split at hn
          · cases hn
          · rename_i hold
            split at hm
            · exact absurd (k.no_links n old file hn hm) hold
            · split at hm
              · cases hm
              · exact k.no_links n m file hn hm }

def unlink [DecidableEq N] (k : Posix N) (name : N) : Posix N :=
  { k with
    dir := Function.update k.dir name none
    named := by
      intro n file h
      rw [Function.update_apply] at h
      split at h
      · cases h
      · exact k.named n file h
    no_links := by
      intro n m file hn hm
      rw [Function.update_apply] at hn hm
      split at hn
      · cases hn
      · split at hm
        · cases hm
        · exact k.no_links n m file hn hm }

section

variable {k : Posix N} {name other : N} {fd other_fd : Int}

theorem file_of_neg (h : fd < 0) : k.file fd = none := if_neg (Int.not_le.mpr h)

-- The calls that are given what a failed open(2) has returned.
theorem dup2_of_neg (h : fd < 0) (new : Int) : (k.dup2 fd new).1 = k := by
  rw [dup2, if_pos (.inl (file_of_neg h))]

theorem close_of_neg (h : fd < 0) : (k.close fd).1 = k := by
  rw [close, if_pos (file_of_neg h)]

theorem file_natCast (k : Posix N) (fd : Nat) : k.file fd = (k.table[fd]?).join := by
  rw [file, if_pos (Int.natCast_nonneg fd), Int.toNat_natCast]

-- The lowest descriptor is not open.
theorem file_lowest (k : Posix N) : k.file (lowest k.table) = none := by
  rw [file_natCast]
  by_cases hlt : lowest k.table < k.table.length
  · rw [List.getElem?_eq_getElem hlt, Option.join_some]
    exact Option.isNone_iff_eq_none.mp (List.findIdx_getElem (w := hlt))
  · rw [List.getElem?_eq_none (Nat.le_of_not_lt hlt)]
    rfl

-- The table has one entry more, or another one.
theorem file_of_table {k' : Posix N} {entry : Option Nat} (hfd : 0 ≤ fd)
    (htable : k'.table = install k.table fd.toNat entry) (i : Int) :
    k'.file i = if i = fd then entry else k.file i := by
  rw [file, file, htable]
  by_cases hi : 0 ≤ i
  · rw [if_pos hi, if_pos hi, getElem?_install]
    have hiff : i.toNat = fd.toNat ↔ i = fd := by omega
    simp only [hiff]
  · have hne : i ≠ fd := by omega
    rw [if_neg hi, if_neg hne, if_neg hi]

@[simp] theorem file_dup2 (k : Posix N) (old new i : Int) :
    (k.dup2 old new).1.file i =
      if k.file old ≠ none ∧ 0 ≤ new ∧ i = new then k.file old else k.file i := by
  unfold dup2
  by_cases hno : k.file old = none ∨ new < 0
  · rw [if_pos hno, if_neg]
    rintro ⟨hold, hnew, -⟩
    rcases hno with hno | hno
    · exact hold hno
    · omega
  · obtain ⟨hold, hnew⟩ := not_or.mp hno
    have hpos : 0 ≤ new := by omega
    rw [if_neg hno]
    simp only [hold, hpos, ne_eq, not_false_eq_true, true_and]
    exact file_of_table hpos rfl i

@[simp] theorem dir_dup2 (k : Posix N) (old new : Int) : (k.dup2 old new).1.dir = k.dir := by
  unfold dup2
  split <;> rfl

@[simp] theorem contents_dup2 (k : Posix N) (old new : Int) :
    (k.dup2 old new).1.contents = k.contents := by
  unfold dup2
  split <;> rfl

@[simp] theorem file_close (k : Posix N) (fd i : Int) :
    (k.close fd).1.file i = if i = fd then none else k.file i := by
  unfold close
  by_cases hno : k.file fd = none
  · rw [if_pos hno]
    split_ifs with hi
    · rw [hi, hno]
    · rfl
  · have hpos : 0 ≤ fd := by
      by_contra hneg
      exact hno (file_of_neg (by omega))
    rw [if_neg hno]
    exact file_of_table hpos rfl i

@[simp] theorem dir_close (k : Posix N) (fd : Int) : (k.close fd).1.dir = k.dir := by
  unfold close
  split <;> rfl

@[simp] theorem contents_close (k : Posix N) (fd : Int) : (k.close fd).1.contents = k.contents := by
  unfold close
  split <;> rfl

@[simp] theorem file_append (k : Posix N) (fd : Int) (bytes : List UInt8) (i : Int) :
    (k.append fd bytes).file i = k.file i := by
  unfold append
  split <;> rfl

@[simp] theorem dir_append (k : Posix N) (fd : Int) (bytes : List UInt8) :
    (k.append fd bytes).dir = k.dir := by
  unfold append
  split <;> rfl

theorem text_of_dir {file : Nat} (h : k.dir name = some file) : k.text name = k.contents file := by
  rw [text, h]

theorem text_of_none (h : k.dir name = none) : k.text name = [] := by
  rw [text, h]

theorem contents_append {file : Nat} (h : k.file fd = some file) (bytes : List UInt8) :
    (k.append fd bytes).contents = Function.update k.contents file (k.contents file ++ bytes) := by
  simp only [append, h]

-- Some names aside, every name leads to what it led to before.
def Keeps (names : List N) (k k' : Posix N) : Prop :=
  ∀ n ∉ names, k'.dir n = k.dir n ∧
    ∀ file, k.dir n = some file → k'.contents file = k.contents file

theorem Keeps.text_eq {k k' : Posix N} {names : List N} {name : N} (h : Keeps names k k')
    (hname : name ∉ names) : k'.text name = k.text name := by
  obtain ⟨hdir, hcontents⟩ := h name hname
  rw [text, text, hdir]
  cases hfile : k.dir name with
  | none => rfl
  | some file => exact hcontents file hfile

theorem Keeps.refl (names : List N) (k : Posix N) : Keeps names k k :=
  fun _ _ => ⟨rfl, fun _ _ => rfl⟩

theorem Keeps.trans {k₁ k₂ k₃ : Posix N} {names more : List N} (h : Keeps names k₁ k₂)
    (h' : Keeps more k₂ k₃) : Keeps (names ++ more) k₁ k₃ := by
  intro n hn
  rw [List.mem_append, not_or] at hn
  obtain ⟨hdir, hcontents⟩ := h n hn.1
  obtain ⟨hdir', hcontents'⟩ := h' n hn.2
  refine ⟨hdir'.trans hdir, fun file hfile => ?_⟩
  rw [hcontents' file (hdir.trans hfile), hcontents file hfile]

theorem Keeps.mono {k₁ k₂ : Posix N} {names more : List N} (h : Keeps names k₁ k₂)
    (hsub : names ⊆ more) : Keeps more k₁ k₂ := fun n hn => h n fun hmem => hn (hsub hmem)

theorem keeps_of_eq {k₁ k₂ : Posix N} (hdir : k₂.dir = k₁.dir) (hcontents : k₂.contents = k₁.contents) :
    Keeps [] k₁ k₂ := fun n _ => ⟨by rw [hdir], fun file _ => by rw [hcontents]⟩

theorem keeps_append {file : Nat} (hfd : k.file fd = some file) (hname : k.dir name = some file)
    (bytes : List UInt8) : Keeps [name] k (k.append fd bytes) := by
  intro n hn
  refine ⟨by rw [dir_append], fun other hother => ?_⟩
  rw [contents_append hfd]
  refine Function.update_of_ne (fun heq => hn ?_) ..
  rw [List.mem_singleton]
  exact k.no_links n name file (heq ▸ hother) hname

variable [DecidableEq N]

@[simp] theorem table_create (k : Posix N) (name : N) : (k.create name).table = k.table := by
  unfold create
  split <;> rfl

@[simp] theorem file_create (k : Posix N) (name : N) (i : Int) :
    (k.create name).file i = k.file i := by
  rw [file, table_create, file]

theorem create_of_named (h : k.dir name ≠ none) : k.create name = k := if_neg h

theorem dir_create (k : Posix N) (name n : N) :
    (k.create name).dir n =
      if n = name ∧ k.dir name = none then some k.files else k.dir n := by
  unfold create
  split_ifs with hnone hboth hboth
  · exact (congrArg _ hboth.1).trans (Function.update_self ..)
  · exact Function.update_of_ne (fun h => hboth ⟨h, hnone⟩) ..
  · exact absurd hboth.2 hnone
  · rfl

theorem exists_created (k : Posix N) (name : N) : ∃ file, (k.create name).dir name = some file := by
  refine Option.ne_none_iff_exists'.mp ?_
  rw [dir_create]
  split_ifs with hnew
  · exact Option.some_ne_none _
  · exact fun hnone => hnew ⟨rfl, hnone⟩

-- A successful open(2) takes the lowest free descriptor for the file with the name.
theorem open_found {creat : Bool} (h : k.dir name ≠ none ∨ creat = true) :
    ∃ k' file, k.open_file name creat false = (k', (lowest k.table : Int)) ∧
      k'.dir = (k.create name).dir ∧ k'.contents = (k.create name).contents ∧
      (k.create name).dir name = some file ∧
      ∀ i, k'.file i = if i = lowest k.table then some file else k.file i := by
  obtain ⟨file, hfile⟩ := k.exists_created name
  have hthere : ¬(k.dir name = none ∧ creat = false) := by
    rintro ⟨hname, hcreat⟩
    rw [hcreat] at h
    exact h.elim (fun hno => hno hname) Bool.false_ne_true
  refine ⟨(k.create name).attach (lowest k.table) name, file, ?_, rfl, rfl, hfile, fun i => ?_⟩
  · rw [open_file, if_neg Bool.false_ne_true, if_neg hthere]
    dsimp only
    rw [table_create]
  · have htable : ((k.create name).attach (lowest k.table) name).table =
        install (k.create name).table (lowest k.table : Int).toNat (some file) := by
      rw [← hfile, Int.toNat_natCast]
      rfl
    rw [file_of_table (Int.natCast_nonneg _) htable, file_create]

theorem dir_open_file (k : Posix N) (name : N) :
    (k.open_file name true false).1.dir = (k.create name).dir := by
  obtain ⟨k', file, hopen, hdir, -⟩ := k.open_found (.inr rfl : k.dir name ≠ none ∨ true = true)
  rw [hopen, hdir]

-- Other files than the new one have the names that they had.
theorem dir_create_iff {file : Nat} (h : file < k.files) (n : N) :
    (k.create name).dir n = some file ↔ k.dir n = some file := by
  rw [dir_create]
  split_ifs with hnew
  · obtain ⟨rfl, hnone⟩ := hnew
    rw [hnone]
    constructor
    · intro heq
      exact absurd (Option.some.inj heq) (Nat.ne_of_gt h)
    · intro heq
      cases heq
  · exact Iff.rfl

-- open(2) fails and changes nothing, or takes the lowest free descriptor.
theorem open_cases (k : Posix N) (name : N) (creat fault : Bool) :
    k.open_file name creat fault = (k, -1) ∨
      ∃ k' file, k.open_file name creat fault = (k', (lowest k.table : Int)) ∧
        ∀ i, k'.file i = if i = lowest k.table then some file else k.file i := by
  cases fault with
  | true => exact .inl rfl
  | false =>
      by_cases h : k.dir name = none ∧ creat = false
      · refine .inl ?_
        rw [open_file, if_neg Bool.false_ne_true, if_pos h]
      · have hfound : k.dir name ≠ none ∨ creat = true := by
          by_cases hname : k.dir name = none
          · exact .inr (Bool.eq_false_imp_eq_true.mp fun hno => absurd ⟨hname, hno⟩ h)
          · exact .inl hname
        obtain ⟨k', file, hopen, -, -, -, hfile⟩ := k.open_found hfound
        exact .inr ⟨k', file, hopen, hfile⟩

-- Only the contents of a file that was not there before are set.
theorem contents_create {file : Nat} (h : file < k.files) :
    (k.create name).contents file = k.contents file := by
  unfold create
  split
  · exact Function.update_of_ne (Nat.ne_of_lt h) ..
  · rfl

@[simp] theorem file_rename (k : Posix N) (old new : N) (i : Int) :
    (k.rename old new).file i = k.file i := by
  unfold rename
  split <;> rfl

@[simp] theorem contents_rename (k : Posix N) (old new : N) :
    (k.rename old new).contents = k.contents := by
  unfold rename
  split <;> rfl

theorem dir_rename (h : name ≠ other) (n : N) :
    (k.rename name other).dir n =
      if n = other ∧ k.dir name ≠ none then k.dir name
      else if n = name then none else k.dir n := by
  unfold rename
  by_cases hname : k.dir name = none
  · rw [if_pos (.inl hname), if_neg (fun hno => hno.2 hname)]
    split_ifs with hn
    · rw [hn, hname]
    · rfl
  · rw [if_neg (not_or.mpr ⟨hname, h⟩)]
    simp only [hname, ne_eq, not_false_eq_true, and_true, Function.update_apply]

@[simp] theorem file_unlink (k : Posix N) (name : N) (i : Int) :
    (k.unlink name).file i = k.file i := rfl

@[simp] theorem contents_unlink (k : Posix N) (name : N) :
    (k.unlink name).contents = k.contents := rfl

theorem dir_unlink (k : Posix N) (name n : N) :
    (k.unlink name).dir n = if n = name then none else k.dir n :=
  Function.update_apply ..

theorem contents_create_new (h : k.dir name = none) :
    (k.create name).contents k.files = [] := by
  rw [create, if_pos h]
  exact Function.update_self ..

theorem text_create (k : Posix N) (name : N) {file : Nat}
    (hfile : (k.create name).dir name = some file) :
    (k.create name).contents file = k.text name := by
  rw [dir_create] at hfile
  cases hold : k.dir name with
  | none =>
      rw [if_pos ⟨rfl, hold⟩] at hfile
      obtain rfl := Option.some.inj hfile
      rw [text_of_none hold]
      exact contents_create_new hold
  | some other =>
      rw [if_neg fun h => by simp [hold] at h, hold] at hfile
      obtain rfl := Option.some.inj hfile
      rw [text_of_dir hold]
      exact contents_create (k.named name other hold)

theorem keeps_rename (k : Posix N) (old new : N) : Keeps [old, new] k (k.rename old new) := by
  intro n hn
  refine ⟨?_, fun file _ => by rw [contents_rename]⟩
  simp only [List.mem_cons, List.not_mem_nil, or_false, not_or] at hn
  unfold rename
  split
  · rfl
  · exact (Function.update_of_ne hn.2 ..).trans (Function.update_of_ne hn.1 ..)

theorem keeps_unlink (k : Posix N) (name : N) : Keeps [name] k (k.unlink name) := by
  intro n hn
  rw [List.mem_singleton] at hn
  exact ⟨by rw [dir_unlink, if_neg hn], fun file _ => rfl⟩

theorem keeps_create (k : Posix N) (name : N) : Keeps [name] k (k.create name) := by
  intro n hn
  rw [List.mem_singleton] at hn
  exact ⟨by rw [dir_create, if_neg fun h => hn h.1],
    fun file hfile => contents_create (k.named n file hfile)⟩

end

end Posix

section

variable {N : Type*} {k k' : Posix N}

-- A process whose three descriptors are a terminal.
def console : Posix N where
  dir _ := none
  contents _ := []
  files := 1
  table := [some 0, some 0, some 0]
  named _ _ h := nomatch h
  no_links _ _ _ h := nomatch h
  opened file h := by
    obtain rfl : file = 0 := by simpa using h
    exact Nat.one_pos

-- stdin, stdout and stderr are open.
def Standard (k : Posix N) : Prop := ∀ fd : Nat, fd < 3 → k.file fd ≠ none

theorem three_le_lowest (h : Standard k) : 3 ≤ Posix.lowest k.table := by
  by_contra hlt
  exact h _ (Nat.lt_of_not_le hlt) k.file_lowest

theorem standard_console : Standard (console : Posix N) := by
  intro fd hfd
  rcases (by omega : fd = 0 ∨ fd = 1 ∨ fd = 2) with rfl | rfl | rfl <;> exact Option.some_ne_none 0

theorem Standard.congr (h : Standard k) (hfile : ∀ fd : Nat, fd < 3 → k.file fd ≠ none →
    k'.file fd ≠ none) : Standard k' := fun fd hfd => hfile fd hfd (h fd hfd)

theorem Standard.opened {fd : Int} {file : Nat} (h : Standard k)
    (hfile : ∀ i, k'.file i = if i = fd then some file else k.file i) : Standard k' := by
  intro i hi
  rw [hfile]
  split
  · exact Option.some_ne_none file
  · exact h i hi

theorem Standard.dup2 (h : Standard k) (old new : Int) : Standard (k.dup2 old new).1 := by
  intro fd hfd
  rw [Posix.file_dup2]
  split
  · rename_i hset
    exact hset.1
  · exact h fd hfd

end

end IgLibs
