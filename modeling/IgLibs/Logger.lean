import IgLibs.Posix
import IgLibs.Printf

namespace IgLibs

open CString Printf

-- struct tm, with the year and the month as they are printed.
structure Tm where
  year : Int
  mon : Int
  mday : Int
  hour : Int
  min : Int
  sec : Int
deriving DecidableEq

abbrev FileName := List UInt8

structure Logger where
  fd : Int
  wf_fd : Int
  name : Option FileName
  check : Int
  maxFileIndex : Nat
  maxFileSize : Int
  flag : Bool
  wf_flag : Bool
  fileList : List FileName
  wf_file_list : List FileName
  level : Int
  wf_level : Int
deriving DecidableEq

namespace Logger

def LOG_LEVEL_INFO : Int := 3

def errstr : List (List UInt8) :=
  [[69, 82, 82, 79, 82], [85, 83, 69, 82, 95, 69, 82, 82], [87, 65, 82, 78], [73, 78, 70, 79],
    [84, 82, 65, 67, 69], [68, 69, 66, 85, 71]]

def new : Logger := ⟨2, 2, none, 0, 0, 67108864, false, false, [], [], 9, 2⟩

def tolower (b : UInt8) : UInt8 := if 65 ≤ b && b ≤ 90 then b + 32 else b

-- Whether strcasecmp returns 0.
def same_text (a b : List UInt8) : Bool := (c_str a).map tolower == (c_str b).map tolower

def set_log_level (l : Logger) (level wf_level : Option (List UInt8)) : Logger :=
  match level with
  | none => l
  | some level =>
      let l := match errstr.findIdx? (same_text level) with
        | some i => { l with level := i }
        | none => l
      match wf_level with
      | none => l
      | some wf_level => match errstr.findIdx? (same_text wf_level) with
        | some j => { l with wf_level := j }
        | none => l

theorem set_log_level_eq (l : Logger) (level wf_level : Option (List UInt8)) :
    ∃ v wf_v, l.set_log_level level wf_level = { l with level := v, wf_level := wf_v } := by
  unfold set_log_level
  cases level with
  | none => exact ⟨l.level, l.wf_level, rfl⟩
  | some level =>
      dsimp only
      cases errstr.findIdx? (same_text level) <;> cases wf_level with
      | none => exact ⟨_, _, rfl⟩
      | some wf_level =>
          dsimp only
          cases errstr.findIdx? (same_text wf_level) <;> exact ⟨_, _, rfl⟩

def set_check (l : Logger) (v : Int) : Logger := { l with check := v }

def set_max_file_size (l : Logger) (maxFileSize : Int) : Logger :=
  { l with
    maxFileSize := if maxFileSize < 0 ∨ 0x40000000 < maxFileSize then 0x40000000 else maxFileSize }

def set_max_file_index (l : Logger) (maxFileIndex : Int) : Logger :=
  let maxFileIndex := if maxFileIndex < 0 then 0x0F else maxFileIndex
  let maxFileIndex := if 0x400 < maxFileIndex then 0x400 else maxFileIndex
  { l with maxFileIndex := maxFileIndex.toNat }

-- "%s.wf" in an array of 256 bytes
def wf_name (filename : FileName) : FileName := snprintf 256 (filename ++ [46, 119, 102])

-- The three calls that make the log, stdout and stderr what a new descriptor is.
def redirect (l : Logger) (k : Posix FileName) (fd : Int) : Posix FileName :=
  let k := (k.dup2 fd l.fd).1
  let k := (k.dup2 fd 1).1
  if l.fd ≠ 2 then (k.dup2 fd 2).1 else k

-- `faults` tells which of the two calls of open fail.
structure OpenAnswers where
  main : Bool
  wf : Bool
deriving DecidableEq

-- What set_file_name does with the descriptor of the file it has opened.
def take (l : Logger) (k : Posix FileName) (fd : Int) (need_closing : Bool) :
    Logger × Posix FileName :=
  if !l.flag then
    let k := l.redirect k fd
    (l, if fd ≠ l.fd then (k.close fd).1 else k)
  else
    let k := if need_closing then (k.close l.fd).1 else k
    ({ l with fd := fd }, k)

def set_file_name (l : Logger) (k : Posix FileName) (filename : FileName) (flag open_wf : Bool)
    (faults : OpenAnswers) : Logger × Posix FileName :=
  let need_closing := l.name.isSome
  let filename := c_str filename
  let (k, fd) := k.open_file filename true faults.main
  let (l, k) := take { l with name := some filename, flag := flag } k fd need_closing
  let k := if l.wf_flag && need_closing then (k.close l.wf_fd).1 else k
  let l := { l with wf_flag := open_wf }
  if open_wf then
    let (k, fd) := k.open_file (wf_name filename) true faults.wf
    ({ l with wf_fd := fd }, k)
  else (l, k)

-- What rotate_log and check_file do with the descriptor of the file they have opened.
def reopen (l : Logger) (k : Posix FileName) (fd : Int) : Logger × Posix FileName :=
  if !l.flag then (l, ((l.redirect k fd).close fd).1)
  else ({ l with fd := fd }, if l.fd ≠ 2 then (k.close l.fd).1 else k)

-- `stat` is whether stat(2) fails with an error other than ENOENT. A descriptor that is not open
-- leaves the buffer that is compared with unset.
def check_file (l : Logger) (k : Posix FileName) (stat fault : Bool) :
    Option (Logger × Posix FileName) :=
  match l.name with
  | none => some (l, k)
  | some name =>
      if stat then some (l, k)
      else match k.dir name, k.file l.fd with
        | none, _ =>
            let (k, fd) := k.open_file name true fault
            some (l.reopen k fd)
        | some _, none => none
        | some stFile, some stFd =>
            if stFile ≠ stFd then
              let (k, fd) := k.open_file name true fault
              some (l.reopen k fd)
            else some (l, k)

-- "%04d%02d%02d%02d%02d%02d"
def stamp (tm : Tm) : List UInt8 :=
  zero_padded 4 tm.year ++ zero_padded 2 tm.mon ++ zero_padded 2 tm.mday ++
    zero_padded 2 tm.hour ++ zero_padded 2 tm.min ++ zero_padded 2 tm.sec

-- The list of the old files, with the oldest one removed when there are enough of them.
def retire (maxFileIndex : Nat) (fileList : List FileName) (k : Posix FileName) (old : FileName) :
    List FileName × Posix FileName :=
  if 0 < maxFileIndex then
    if maxFileIndex ≤ fileList.length then
      match fileList with
      | [] => ([old], k)
      | oldFile :: rest => (rest ++ [old], k.unlink oldFile)
    else (fileList ++ [old], k)
  else (fileList, k)

-- The names that a rotation gives to the two files. sprintf writes the first one to an array of
-- 256 bytes, snprintf cuts the second one to such an array.
def old_name (name suffix : FileName) : FileName := name ++ 46 :: suffix

def old_wf_name (name suffix : FileName) : FileName := snprintf 256 (wf_name name ++ 46 :: suffix)

-- The part of rotate_log behind access(2).
def rename_logs (l : Logger) (k : Posix FileName) (filename suffix : FileName) :
    Option (Logger × Posix FileName) :=
  let oldLogFile := old_name filename suffix
  let old_wf_log_file := old_wf_name filename suffix
  if 256 ≤ oldLogFile.length then none
  else
    let (fileList, k) := retire l.maxFileIndex l.fileList k oldLogFile
    let k := k.rename filename oldLogFile
    let (wf_file_list, k) :=
      if l.wf_flag then retire l.maxFileIndex l.wf_file_list k old_wf_log_file
      else (l.wf_file_list, k)
    let k := k.rename (wf_name filename) old_wf_log_file
    some ({ l with fileList := fileList, wf_file_list := wf_file_list }, k)

-- What rotate_log does with the file that is there. `fmt` is what strftime makes of the format,
-- which fits an array of 256 bytes or is lost.
def move_away (l : Logger) (k : Posix FileName) (filename : FileName) (fmt : Option FileName)
    (tm : Tm) : Option (Logger × Posix FileName) :=
  if k.dir filename = none then some (l, k)
  else match fmt with
    | some tmptime => if 256 ≤ tmptime.length then none else l.rename_logs k filename tmptime
    | none => l.rename_logs k filename (stamp tm)

-- Without any file name the calls get NULL and fail, and wf_filename stays unset.
def rotate_log (l : Logger) (k : Posix FileName) (filename fmt : Option FileName) (tm : Tm)
    (faults : OpenAnswers) : Option (Logger × Posix FileName) :=
  match (match filename with
    | none => l.name
    | some filename => some filename) with
  | none => if l.wf_flag then none else some (l.reopen k (-1))
  | some filename => do
      let (l, k) ← l.move_away k filename fmt tm
      let (k, fd) := k.open_file filename true faults.main
      let (l, k) := l.reopen k fd
      if l.wf_flag then
        let (k, fd) := k.open_file (wf_name filename) true faults.wf
        let k := if l.wf_fd ≠ 2 then (k.close l.wf_fd).1 else k
        some ({ l with wf_fd := fd }, k)
      else some (l, k)

-- Where a message comes from.
structure Site where
  file : List UInt8
  line : Int
  function : List UInt8
  tid : Int
deriving DecidableEq

-- "[%04d-%02d-%02d %02d:%02d:%02d.%06ld] "
def time_text (tm : Tm) (tv_usec : Int) : List UInt8 :=
  [91] ++ zero_padded 4 tm.year ++ [45] ++ zero_padded 2 tm.mon ++ [45] ++ zero_padded 2 tm.mday ++
    [32] ++ zero_padded 2 tm.hour ++ [58] ++ zero_padded 2 tm.min ++ [58] ++
    zero_padded 2 tm.sec ++ [46] ++ zero_padded 6 tv_usec ++ [93, 32]

-- The header that snprintf is given: "%-5s %s (%s:%d) [%ld] " or "%-5s %s:%d [%ld] " behind the
-- time. A level outside of the table is read from behind it.
def head_text (level : Int) (site : Site) (tm : Tm) (tv_usec : Int) : Option (List UInt8) := do
  let name ← if 0 ≤ level then errstr[level.toNat]? else none
  let place := if level < LOG_LEVEL_INFO then
      site.function ++ [32, 40] ++ site.file ++ [58] ++ signed site.line ++ [41]
    else site.file ++ [58] ++ signed site.line
  some (time_text tm tv_usec ++ left_aligned 5 name ++ [32] ++ place ++ [32, 91] ++
    signed site.tid ++ [93, 32])

-- The first vector that writev gets: head_size is the length of the whole text, whatever fits the
-- array of 128 bytes.
def head_vector (head : List UInt8) : Option (List UInt8) :=
  if head.length < 128 then some head
  else if head.length = 128 then some (head.take 127 ++ [0])
  else none

-- The loop that removes the newlines at the end. It has no result when it reads data1[-1].
def strip (data1 : List UInt8) : Nat → Option Nat
  | 0 => none
  | data_size + 1 => do
      let c ← data1[data_size]?
      if c = 10 then strip data1 data_size else some (data_size + 1)

-- A message, and what the system answers while it is logged: the clock, how many bytes the two
-- writev(2) take, and what check_file and rotate_log meet.
structure Message where
  level : Int
  site : Site
  text : List UInt8
  tm : Tm
  tv_usec : Int
  writev : Nat
  wf_writev : Nat
  stat : Bool
  check_fault : Bool
  rotate_tm : Tm
  rotate_faults : OpenAnswers
deriving DecidableEq

-- A logger and the kernel, with the bytes that have gone to the log and to the wf log.
structure Logging where
  log : Logger
  kernel : Posix FileName
  taken : List UInt8
  wf_taken : List UInt8

-- writev(2), which takes the first bytes of what it is given.
def put (k : Posix FileName) (fd : Int) (line : List UInt8) (writev : Nat) :
    Posix FileName × List UInt8 :=
  if k.file fd = none then (k, []) else (k.append fd (line.take writev), line.take writev)

-- The line that a message makes.
def line_of (m : Message) : Option (List UInt8) := do
  let data1 := snprintf 4096 m.text
  let data_size ← strip data1 data1.length
  let head ← head_text m.level m.site m.tm m.tv_usec
  let head ← head_vector head
  some (head ++ data1.take data_size ++ [10])

-- The calls that write the line.
def write_line (s : Logging) (m : Message) (line : List UInt8) : Logging :=
  let (k, taken) := put s.kernel s.log.fd line m.writev
  let s := { s with kernel := k, taken := s.taken ++ taken }
  if s.log.wf_flag && m.level ≤ s.log.wf_level then
    let (k, wf_taken) := put s.kernel s.log.wf_fd line m.wf_writev
    { s with kernel := k, wf_taken := s.wf_taken ++ wf_taken }
  else s

-- A full log is rotated.
def rotate_full (s : Logging) (m : Message) : Option Logging :=
  if s.log.maxFileSize ≠ 0 then
    match s.kernel.size s.log.fd with
    | none => some s
    | some offset =>
        if s.log.maxFileSize ≤ offset then do
          let (l, k) ← s.log.rotate_log s.kernel none none m.rotate_tm m.rotate_faults
          some { s with log := l, kernel := k }
        else some s
  else some s

-- A logger that checks its file does so before each message.
def check_first (s : Logging) (m : Message) : Option Logging :=
  if s.log.check ≠ 0 ∧ s.log.name.isSome then do
    let (l, k) ← s.log.check_file s.kernel m.stat m.check_fault
    some { s with log := l, kernel := k }
  else some s

def log_message (s : Logging) (m : Message) : Option Logging :=
  if s.log.level < m.level then some s
  else do
    let s ← check_first s m
    let line ← line_of m
    rotate_full (write_line s m line) m

-- The destructor.
def destroy (l : Logger) (k : Posix FileName) : Logger × Posix FileName :=
  if l.name.isSome then
    let k := (k.close l.fd).1
    let k := if l.wf_flag then (k.close l.wf_fd).1 else k
    ({ l with name := none }, k)
  else (l, k)

inductive Op
  | set_log_level (level wf_level : Option (List UInt8))
  | set_check (v : Int)
  | set_max_file_size (maxFileSize : Int)
  | set_max_file_index (maxFileIndex : Int)
  | set_file_name (filename : FileName) (flag open_wf : Bool) (faults : OpenAnswers)
  | check_file (stat fault : Bool)
  | rotate_log (filename fmt : Option FileName) (tm : Tm) (faults : OpenAnswers)
  | log_message (m : Message)
deriving DecidableEq

def step (s : Logging) : Op → Option Logging
  | .set_log_level level wf_level => some { s with log := s.log.set_log_level level wf_level }
  | .set_check v => some { s with log := s.log.set_check v }
  | .set_max_file_size v => some { s with log := s.log.set_max_file_size v }
  | .set_max_file_index v => some { s with log := s.log.set_max_file_index v }
  | .set_file_name filename flag open_wf faults =>
      let (l, k) := s.log.set_file_name s.kernel filename flag open_wf faults
      some { s with log := l, kernel := k }
  | .check_file stat fault => do
      let (l, k) ← s.log.check_file s.kernel stat fault
      some { s with log := l, kernel := k }
  | .rotate_log filename fmt tm faults => do
      let (l, k) ← s.log.rotate_log s.kernel filename fmt tm faults
      some { s with log := l, kernel := k }
  | .log_message m => log_message s m

end Logger

end IgLibs
