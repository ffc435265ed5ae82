import Mathlib.Data.List.Basic
import IgLibs.CString

namespace IgLibs

open Word CString

inductive FileType
  | DT_FIFO
  | DT_CHR
  | DT_DIR
  | DT_BLK
  | DT_REG
  | DT_LNK
  | DT_SOCK
deriving DecidableEq

-- An entry of a directory, with the type and the size of its file. The type that readdir
-- reports may also be DT_UNKNOWN, which is `none`.
structure Dirent where
  d_name : List UInt8
  type : FileType
  st_size : ULong
  d_type : Option FileType
  reported : ∀ t, d_type = some t → t = type
deriving DecidableEq

-- A directory stream: the entries that have been read and those that are still to come.
structure DirStream where
  past : List Dirent
  ahead : List Dirent

structure FileLister where
  m_dirpath : List UInt8
  m_dir : Option DirStream

namespace FileLister

def new (path : List UInt8) : FileLister := ⟨path, none⟩

def close (l : FileLister) : FileLister := { l with m_dir := none }

-- open(). `opendir` tells which paths are those of directories, with their entries.
def open_dir (l : FileLister) (opendir : List UInt8 → Option (List Dirent)) : FileLister × Int :=
  let l := l.close
  match opendir (c_str l.m_dirpath) with
  | some entries => ({ l with m_dir := some ⟨[], entries⟩ }, 0)
  | none => (l, -1)

-- open(path)
def open_path (l : FileLister) (path : List UInt8)
    (opendir : List UInt8 → Option (List Dirent)) : FileLister × Int :=
  { l with m_dirpath := path }.open_dir opendir

def start (l : FileLister) : FileLister :=
  { l with m_dir := l.m_dir.map fun dir => ⟨[], dir.past ++ dir.ahead⟩ }

-- The test of next(): a regular file, or one whose type is not known.
def listed (entry : Dirent) : Bool := entry.d_type = some .DT_REG || entry.d_type = none

-- The loop of next(), with the entries that readdir gives in turn.
def next_loop (past : List Dirent) : List Dirent → DirStream × Option Dirent
  | [] => (⟨past, []⟩, none)
  | entry :: ahead =>
      if listed entry then (⟨past ++ [entry], ahead⟩, some entry)
      else next_loop (past ++ [entry]) ahead

-- The entry whose name is handed out, if there is one.
def next (l : FileLister) : FileLister × Option Dirent :=
  match l.m_dir with
  | none => (l, none)
  | some dir =>
      let (dir, entry) := next_loop dir.past dir.ahead
      ({ l with m_dir := some dir }, entry)

end FileLister

end IgLibs
