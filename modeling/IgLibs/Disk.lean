import IgLibs.Posix

namespace IgLibs

-- What the names of a file system hold.
abbrev Disk (N : Type*) := N → Option (List UInt8)

namespace Disk

variable {N : Type*} [DecidableEq N]

-- Bytes go to the end of the file with the name, which is made if it is not there.
def add (d : Disk N) (name : N) (bytes : List UInt8) : Disk N :=
  Function.update d name (some ((d name).getD [] ++ bytes))

def rename (d : Disk N) (old new : N) : Disk N :=
  if d old = none ∨ old = new then d
  else Function.update (Function.update d old none) new (d old)

def unlink (d : Disk N) (name : N) : Disk N := Function.update d name none

theorem add_add (d : Disk N) (name : N) (first second : List UInt8) :
    (d.add name first).add name second = d.add name (first ++ second) := by
  unfold add
  rw [Function.update_self, Option.getD_some, Function.update_idem, List.append_assoc]

end Disk

namespace Posix

variable {N : Type*} {k k' : Posix N} {name : N} {fd : Int}

def disk (k : Posix N) : Disk N := fun name => (k.dir name).map k.contents

-- A write to the end of a file by another process.
def extend (k : Posix N) (name : N) (bytes : List UInt8) : Posix N :=
  match k.dir name with
  | none => k
  | some file =>
      { k with contents := Function.update k.contents file (k.contents file ++ bytes) }

def add [DecidableEq N] (k : Posix N) (name : N) (bytes : List UInt8) : Posix N :=
  (k.create name).extend name bytes

@[simp] theorem file_extend (k : Posix N) (name : N) (bytes : List UInt8) (i : Int) :
    (k.extend name bytes).file i = k.file i := by
  unfold extend
  split <;> rfl

@[simp] theorem file_add [DecidableEq N] (k : Posix N) (name : N) (bytes : List UInt8) (i : Int) :
    (k.add name bytes).file i = k.file i := by
  rw [add, file_extend, file_create]

@[simp] theorem dir_add [DecidableEq N] (k : Posix N) (name : N) (bytes : List UInt8) :
    (k.add name bytes).dir = (k.create name).dir := by
  unfold add extend
  split <;> rfl

theorem disk_of_eq (hdir : k'.dir = k.dir) (hcontents : k'.contents = k.contents) :
    k'.disk = k.disk := by
  unfold disk
  rw [hdir, hcontents]

theorem getD_disk (k : Posix N) (name : N) : (k.disk name).getD [] = k.text name := by
  unfold disk text
  cases k.dir name <;> rfl

-- A file that has lost its name is on no disk.
theorem disk_append_nameless {file : Nat} (hfd : k.file fd = some file)
    (hno : ∀ n, k.dir n ≠ some file) (bytes : List UInt8) : (k.append fd bytes).disk = k.disk := by
  funext n
  unfold disk
  rw [dir_append, contents_append hfd]
  cases hn : k.dir n with
  | none => rfl
  | some other =>
      have hne : other ≠ file := fun heq => hno n (heq ▸ hn)
      exact congrArg some (Function.update_of_ne hne ..)

variable [DecidableEq N]

-- One name has changed, and the rest of the disk has not.
theorem disk_of_keeps {file : Nat} (hkeeps : Keeps [name] k k') (hdir : k'.dir name = some file) :
    k'.disk = Function.update k.disk name (some (k'.contents file)) := by
  funext n
  by_cases hn : n = name
  · subst hn
    rw [Function.update_self, disk, hdir]
    rfl
  · rw [Function.update_of_ne hn]
    obtain ⟨hsame, hcontents⟩ := hkeeps n (by simpa using hn)
    unfold disk
    rw [hsame]
    cases hfile : k.dir n with
    | none => rfl
    | some other => exact congrArg some (hcontents other hfile)

theorem disk_rename (k : Posix N) (old new : N) :
    (k.rename old new).disk = k.disk.rename old new := by
  have hnone : k.disk old = none ↔ k.dir old = none := Option.map_eq_none_iff
  unfold rename Disk.rename
  by_cases hno : k.dir old = none ∨ old = new
  · rw [if_pos hno, if_pos (hno.imp_left hnone.mpr)]
  · rw [if_neg hno, if_neg fun h => hno (h.imp_left hnone.mp)]
    funext n
    unfold disk
    simp only [Function.update_apply]
    split_ifs <;> rfl

theorem disk_unlink (k : Posix N) (name : N) : (k.unlink name).disk = k.disk.unlink name := by
  funext n
  unfold disk unlink Disk.unlink
  simp only [Function.update_apply]
  split_ifs <;> rfl

-- A write through a descriptor of the file with a name.
theorem disk_append {file : Nat} (hfd : k.file fd = some file) (hname : k.dir name = some file)
    (bytes : List UInt8) : (k.append fd bytes).disk = k.disk.add name bytes := by
  have hdir : (k.append fd bytes).dir name = some file := by rw [dir_append, hname]
  rw [disk_of_keeps (keeps_append hfd hname bytes) hdir, contents_append hfd, Function.update_self]
  unfold Disk.add
  rw [getD_disk, text_of_dir hname]

theorem disk_create (k : Posix N) (name : N) :
    (k.create name).disk = k.disk.add name [] := by
  obtain ⟨file, hfile⟩ := k.exists_created name
  rw [disk_of_keeps (keeps_create k name) hfile, text_create k name hfile]
  unfold Disk.add
  rw [getD_disk, List.append_nil]

theorem disk_extend {file : Nat} (hname : k.dir name = some file) (bytes : List UInt8) :
    (k.extend name bytes).disk = k.disk.add name bytes := by
  have hextend : k.extend name bytes =
      { k with contents := Function.update k.contents file (k.contents file ++ bytes) } := by
    simp only [extend, hname]
  have hkeeps : Keeps [name] k (k.extend name bytes) := by
    intro n hn
    rw [hextend]
    refine ⟨rfl, fun other hother => Function.update_of_ne (fun heq => hn ?_) ..⟩
    rw [List.mem_singleton]
    exact k.no_links n name file (heq ▸ hother) hname
  have hdir : (k.extend name bytes).dir name = some file := by
    rw [hextend]
    exact hname
  rw [disk_of_keeps hkeeps hdir, hextend]
  unfold Disk.add
  dsimp only
  rw [Function.update_self, getD_disk, text_of_dir hname]

theorem disk_add (k : Posix N) (name : N) (bytes : List UInt8) :
    (k.add name bytes).disk = k.disk.add name bytes := by
  obtain ⟨file, hfile⟩ := k.exists_created name
  rw [add, disk_extend hfile, disk_create, Disk.add_add, List.nil_append]

end Posix

end IgLibs
