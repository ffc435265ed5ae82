import IgLibs.StrTok
import IgLibs.Table

namespace IgLibs.Config

-- What open, lseek and read find behind a name; a name that is not in the table cannot be opened.
inductive File where
  | unreadable
  | contents (bytes : List UInt8)
deriving DecidableEq

abbrev Files := Table (List UInt8) File

-- The members of a Config, and what its parser uses of the process: the cursor that strtok keeps
-- between calls (a block and an offset), the number of blocks handed out by malloc, and the
-- duplicated keys reported on stderr with the file name printed.
structure State where
  m_config_hash : Table (List UInt8) (List UInt8)
  m_file_name : Option (List UInt8)
  save_ptr : Option (Nat × Nat)
  blocks : Nat
  duplicated : List (List UInt8 × Option (List UInt8))

-- A new Config in a process that has not called strtok yet.
def new : State := ⟨∅, none, none, 0, []⟩

-- "= \t"
def delim : List UInt8 := [61, 32, 9]

-- "include"
def include_word : List UInt8 := [105, 110, 99, 108, 117, 100, 101]

-- strtok on the data in a block. Without a string it goes on from its cursor, which has to be in
-- the same block.
def next_token (block : Nat) (data : List UInt8) (s : Option Nat) (c : State) :
    Option (List UInt8 × Option Nat × State) :=
  match s with
  | some s =>
      let (data, token, stop) := CString.strtok delim data s
      some (data, token, { c with save_ptr := some (block, stop) })
  | none =>
      match c.save_ptr with
      | none => none
      | some (owner, s) =>
          if owner = block then
            let (data, token, stop) := CString.strtok delim data s
            some (data, token, { c with save_ptr := some (block, stop) })
          else none

def store (overwrite : Bool) (str_key str_val : List UInt8) (c : State) : State :=
  if c.m_config_hash.lookup str_key = none then
    { c with m_config_hash := c.m_config_hash.insert str_key str_val }
  else if overwrite then
    { c with m_config_hash := c.m_config_hash.insert str_key str_val }
  else
    { c with duplicated := c.duplicated ++ [(str_key, c.m_file_name)] }

-- The part of the loop after the line has been ended with a NUL.
def parse_line (include_file : List UInt8 → State → Option (State × Bool)) (overwrite : Bool)
    (block : Nat) (data : List UInt8) (start : Nat) (c : State) :
    Option (List UInt8 × State × Bool) :=
  if data[start]? = some 35 then some (data, c, true)
  else do
    let (data, key, c) ← next_token block data (some start) c
    let (data, val, c) ← next_token block data none c
    match key, val with
    | some key, some val =>
        let key := CString.c_str (data.drop key)
        let val := CString.c_str (data.drop val)
        if key = include_word then
          let (c, ret) ← include_file val c
          some (data, c, ret)
        else some (data, store overwrite key val c, true)
    | _, _ => some (data, c, true)

def parse_loop (include_file : List UInt8 → State → Option (State × Bool)) (overwrite : Bool)
    (block len : Nat) : Nat → List UInt8 → Nat → State → Option (State × Bool)
  | 0, _, _, _ => none
  | steps + 1, data, start, c =>
      if start < len then do
        let eol := CString.strchr data start 10
        let (data, c, ret) ← parse_line include_file overwrite block
          (match eol with
            | some eol => data.set eol 0
            | none => data) start c
        if ret then
          match eol with
          | some eol => parse_loop include_file overwrite block len steps data (eol + 1) c
          | none => some (c, true)
        else some (c, false)
      else some (c, true)

-- The most that one call of read transfers.
def MAX_RW_COUNT : Int := 0x7ffff000

-- What parse does with a file that is open and that it can read.
def parse_data (include_file : List UInt8 → State → Option (State × Bool)) (overwrite : Bool)
    (bytes : List UInt8) (c : State) : Option (State × Bool) :=
  let len := Word.toInt32 bytes.length
  -- malloc and read take a negative length for one near 2 ^ 64, and fail
  if len < 0 then some (c, false)
  -- the end of the buffer keeps what malloc left there, or len + 1 has overflowed
  else if MAX_RW_COUNT < len then none
  else
    parse_loop include_file overwrite c.blocks len.toNat (len.toNat + 1)
      (bytes.take len.toNat ++ [0]) 0 { c with blocks := c.blocks + 1 }

-- One file, with what it includes down to a depth; none when that is not deep enough.
def parse (files : Files) (overwrite : Bool) :
    Nat → Option (List UInt8) → State → Option (State × Bool)
  | _, none, c => some (c, false)
  | 0, some _, _ => none
  | depth + 1, some file_name, c =>
      match files.lookup file_name with
      | none => some (c, false)
      | some .unreadable => some (c, false)
      | some (.contents bytes) =>
          parse_data (fun val => parse files overwrite depth (some val)) overwrite bytes c

def load (files : Files) (depth : Nat) (file_name : Option (List UInt8)) (overwrite : Bool)
    (c : State) : Option (State × Bool) :=
  parse files overwrite depth file_name { c with m_file_name := file_name, m_config_hash := ∅ }

def reload (files : Files) (depth : Nat) (file_name : Option (List UInt8)) (c : State) :
    Option (State × Bool) :=
  parse files true depth file_name { c with m_file_name := file_name }

-- The get of a const char* and the one of an int. NULL is none.
def get_chars (c : State) (key : List UInt8) (default_value : Option (List UInt8)) :
    Option (List UInt8) :=
  match c.m_config_hash.lookup key with
  | some val => some (CString.c_str val)
  | none => default_value

def get_int (c : State) (key : List UInt8) (default_value : Int) : Int :=
  match c.m_config_hash.lookup key with
  | some val => CString.atoi val
  | none => default_value

end IgLibs.Config
