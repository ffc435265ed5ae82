import IgLibs.FileSystem
import IgLibs.FileLister
import IgLibs.StringUtils

namespace IgLibs.BossCommon

open FileSystem CString Word

-- The tree that paths are about, with byte strings for names.
abbrev Tree := FileSystem (List UInt8)

def component (name : List UInt8) : Option (Step (List UInt8)) :=
  if name = [] then none
  else if name = [46] then some .here
  else if name = [46, 46] then some .up
  else some (.into name)

def steps (path : List UInt8) : List (Step (List UInt8)) :=
  (path.splitOn 47).filterMap component

def start (fs : Tree) (path : List UInt8) : List (List UInt8) :=
  if path.head? = some 47 then [] else fs.cwd

-- mkdir(2)
def mkdir (fs : Tree) (path : List UInt8) (fault : Bool) : Except FileSystem.Errno Tree :=
  if path = [] then .error .ENOENT else FileSystem.mkdir fs (start fs path) (steps path) fault

-- The first component is the root, the current directory, its parent, or a name.
def first_dir : List (List UInt8) → List UInt8 × List (List UInt8)
  | [] => ([], [])
  | first :: rest =>
      if first = [] then ([], rest)
      else if first = [46] then ([46], rest)
      else if first = [46, 46] then ([46, 46], rest)
      else ([46], first :: rest)

-- `faults` tells which calls of mkdir fail with an error that is not about the path.
def makedir_loop (fs : Tree) (dir : List UInt8) : List (List UInt8) → (Nat → Bool) → Tree × Bool
  | [], _ => (fs, true)
  | subdir :: rest, faults =>
      let dir := dir ++ 47 :: subdir
      match mkdir fs (c_str dir) (faults 0) with
      | .ok next => makedir_loop next dir rest fun call => faults (call + 1)
      | .error e =>
          if e = .EEXIST then makedir_loop fs dir rest fun call => faults (call + 1)
          else (fs, false)

-- The assertion that the path is not empty is compiled out.
def makedir (fs : Tree) (path : List UInt8) (faults : Nat → Bool) : Tree × Bool :=
  let subdirs := split path 47
  if subdirs.length ≤ 0 then (fs, false)
  else
    let (dir, subdirs) := first_dir subdirs
    makedir_loop fs dir subdirs faults

-- What get_dir_files_size returns, what it leaves in its arguments, and the entries it counted.
structure FilesSize where
  ret : Int
  file_count : BitVec 32
  total_size : ULong
  counted : List Dirent

-- The loop, for at most `fuel` rounds. `result` holds the arguments as they were.
def files_loop (stat : List UInt8 → Option ULong) (path : List UInt8) (max_count : BitVec 32)
    (result : FilesSize) : Nat → FileLister → BitVec 32 → ULong → List Dirent → Option FilesSize
  | 0, _, _, _, _ => none
  | fuel + 1, filelister, count, path_size, counted =>
      match filelister.next with
      | (_, none) => some ⟨0, count, path_size, counted⟩
      | (filelister, some entry) =>
          let count := count + 1
          match stat (c_str (path ++ 47 :: entry.d_name)) with
          | none => some { result with ret := -1, counted := counted }
          | some st_size =>
              let path_size := path_size + st_size
              let counted := counted ++ [entry]
              if max_count ≤ count then some ⟨0, count, path_size, counted⟩
              else files_loop stat path max_count result fuel filelister count path_size counted

-- `stat` gives the sizes of the files that stat(2) finds.
def get_dir_files_size (fuel : Nat) (opendir : List UInt8 → Option (List Dirent))
    (stat : List UInt8 → Option ULong) (path : List UInt8) (file_count : BitVec 32)
    (total_size : ULong) (max_count : BitVec 32) : Option FilesSize :=
  let filelister := ((FileLister.new path).open_dir opendir).1.start
  files_loop stat path max_count ⟨0, file_count, total_size, []⟩ fuel filelister 0 0 []

end IgLibs.BossCommon
