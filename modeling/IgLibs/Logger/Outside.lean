import IgLibs.Disk
import IgLibs.Logger.Retention

namespace IgLibs.Logger.Outside

open CString Machine

-- A message, or what another process does to the files between two messages.
inductive Event
  | message (m : Message)
  | rename (old new : FileName)
  | unlink (name : FileName)
  | add (name : FileName) (bytes : List UInt8)

def Event.step (s : Logging) : Event → Option Logging
  | .message m => log_message s m
  | .rename old new => some { s with kernel := s.kernel.rename old new }
  | .unlink name => some { s with kernel := s.kernel.unlink name }
  | .add name bytes => some { s with kernel := s.kernel.add name bytes }

-- The disk, and the name that the file of the wf log has by now.
structure Logs where
  disk : Disk FileName
  wf : Option FileName

-- The wf log follows its file.
def Logs.after_rename (d : Logs) (old new : FileName) : Logs where
  disk := d.disk.rename old new
  wf :=
    if d.disk old = none ∨ old = new then d.wf
    else if d.wf = some old then some new
    else if d.wf = some new then none
    else d.wf

def Logs.add_wf (d : Logs) (bytes : List UInt8) : Logs :=
  match d.wf with
  | some name => { d with disk := d.disk.add name bytes }
  | none => d

-- The log as if it were opened, written to and closed again for each message.
def Logs.after (level wf_level : Int) (name : FileName) (d : Logs) : Event → Logs
  | .message m =>
      if level < m.level then d
      else
        let line := (line_of m).getD []
        let d := { d with disk := d.disk.add name (line.take m.writev) }
        if m.level ≤ wf_level then d.add_wf (line.take m.wf_writev) else d
  | .rename old new => d.after_rename old new
  | .unlink name => ⟨d.disk.unlink name, if d.wf = some name then none else d.wf⟩
  | .add name bytes => { d with disk := d.disk.add name bytes }

-- Messages make lines, and the calls that look for the file and open it succeed.
def Calm : Event → Prop
  | .message m => (line_of m).isSome ∧ m.stat = false ∧ m.check_fault = false
  | _ => True

-- A logger that leaves the rotation to others and checks its file.
structure Checking (l : Logger) (k : Posix FileName) (name : FileName) : Prop where
  name_eq : l.name = some name
  check : l.check ≠ 0
  max_size : l.maxFileSize = 0
  standard : Standard k
  own : OwnDescriptor l
  opened : k.file l.fd ≠ none
  wf : l.wf_flag = true → 3 ≤ l.wf_fd ∧ l.wf_fd ≠ l.fd ∧ k.file l.wf_fd ≠ none

-- The wf log is open on the file that has this name, if it has one.
def WfAt (l : Logger) (k : Posix FileName) (wf : Option FileName) : Prop :=
  ∀ n, wf = some n ↔ l.wf_flag = true ∧ ∃ file, k.file l.wf_fd = some file ∧ k.dir n = some file

-- What stands on the disk, and where the lines go next.
structure Follows (s : Logging) (name : FileName) (d : Logs) : Prop where
  checking : Checking s.log s.kernel name
  disk : s.kernel.disk = d.disk
  wf_at : WfAt s.log s.kernel d.wf

section

variable {l l' : Logger} {k k' : Posix FileName} {name : FileName} {s : Logging} {d : Logs}
  {wf : Option FileName}

theorem Checking.kernel (h : Checking l k name) (hfile : ∀ i, k'.file i = k.file i) :
    Checking l k' name := by
  refine ⟨h.name_eq, h.check, h.max_size, fun i hi => ?_, h.own, ?_, fun hon => ?_⟩
  · rw [hfile]
    exact h.standard i hi
  · rw [hfile]
    exact h.opened
  · rw [hfile]
    exact h.wf hon

-- Only the names of the file of the wf log matter to it.
theorem WfAt.congr (h : WfAt l k wf) (hflag : l'.wf_flag = l.wf_flag) (hfd : l'.wf_fd = l.wf_fd)
    (hfile : l.wf_flag = true → k'.file l.wf_fd = k.file l.wf_fd)
    (hdir : ∀ file, some file ∈ k.table → ∀ n, k'.dir n = some file ↔ k.dir n = some file) :
    WfAt l' k' wf := by
  intro n
  rw [h n, hflag, hfd]
  refine and_congr_right fun hon => exists_congr fun file => ?_
  rw [hfile hon]
  exact and_congr_right fun hopen => (hdir file (Posix.mem_table_of_file hopen) n).symm

-- check_file opens the file with the name again if the log is not that file.
theorem reopen_named (h : Checking l k name) (hwf : WfAt l k wf) :
    ∃ l' k' file, (let (k, fd) := k.open_file name true false
        l.reopen k fd) = (l', k') ∧ l'.level = l.level ∧ l'.wf_level = l.wf_level ∧
      Checking l' k' name ∧ WfAt l' k' wf ∧ k'.file l'.fd = some file ∧
      k'.dir name = some file ∧ k'.disk = k.disk.add name [] := by
  have hnames := k.dir_open_file name
  obtain ⟨k₁, fd, file, hopen, hthree, hfree, hfile, hdir, hkeeps, hcontents⟩ :=
    open_log h.standard name
  rw [hopen] at hnames
  have hstd : Standard k₁ := h.standard.opened hfile
  have hne : l.fd ≠ fd := by
    rintro rfl
    exact h.opened hfree
  have hwf_ne : l.wf_flag = true → l.wf_fd ≠ fd := by
    rintro hon rfl
    exact (h.wf hon).2.2 hfree
  obtain ⟨l', k', hreopen, hl', hfd, hown, hstd', hdir', hcontents', hlog, hothers⟩ :=
    reopen_spec hstd h.own hthree (by rw [hfile, if_pos rfl]) hne
  have hwf_file : l.wf_flag = true → k'.file l.wf_fd = k.file l.wf_fd := by
    intro hon
    obtain ⟨hwf_three, hapart, -⟩ := h.wf hon
    rw [hothers l.wf_fd hwf_three hapart (hwf_ne hon), hfile, if_neg (hwf_ne hon)]
  have hwf_flag : l'.wf_flag = l.wf_flag := by rw [hl']
  have hwf_fd : l'.wf_fd = l.wf_fd := by rw [hl']
  refine ⟨l', k', file, ?_, by rw [hl'], by rw [hl'], ⟨?_, ?_, ?_, hstd', hown, ?_, ?_⟩, ?_, hlog, ?_,
    ?_⟩
  · rw [hopen]
    exact hreopen
  · rw [hl']
    exact h.name_eq
  · rw [hl']
    exact h.check
  · rw [hl']
    exact h.max_size
  · rw [hlog]
    exact Option.some_ne_none _
  · intro hon
    rw [hwf_flag] at hon
    obtain ⟨hwf_three, hapart, hwf_open⟩ := h.wf hon
    rw [hwf_fd, hwf_file hon]
    refine ⟨hwf_three, ?_, hwf_open⟩
    rcases hfd with hfd | hfd
    · rw [hfd]
      exact hapart
    · rw [hfd]
      exact hwf_ne hon
  · apply hwf.congr hwf_flag hwf_fd hwf_file
    intro other hmem n
    rw [hdir']
    dsimp only at hnames
    rw [hnames]
    exact Posix.dir_create_iff (k.opened other hmem) n
  · rw [hdir', hdir]
  · rw [Posix.disk_of_eq hdir' hcontents', Posix.disk_of_keeps hkeeps hdir, hcontents, Disk.add,
      Posix.getD_disk, List.append_nil]

-- Behind check_file the log is the file with the name, which is there.
theorem check_file_named (h : Checking l k name) (hwf : WfAt l k wf) :
    ∃ l' k' file, l.check_file k false false = some (l', k') ∧ l'.level = l.level ∧
      l'.wf_level = l.wf_level ∧ Checking l' k' name ∧ WfAt l' k' wf ∧
      k'.file l'.fd = some file ∧ k'.dir name = some file ∧
      ∀ bytes, k'.disk.add name bytes = k.disk.add name bytes := by
  obtain ⟨l', k', file, hreopen, hlevel, hwf_level, hchecking, hwf', hfile, hdir, hdisk⟩ :=
    reopen_named h hwf
  have hadd : ∀ bytes, k'.disk.add name bytes = k.disk.add name bytes := by
    intro bytes
    rw [hdisk, Disk.add_add, List.nil_append]
  obtain ⟨current, hcurrent⟩ := Option.ne_none_iff_exists'.mp h.opened
  unfold check_file
  rw [h.name_eq]
  dsimp only
  rw [if_neg Bool.false_ne_true, hcurrent]
  cases hname : k.dir name with
  | none =>
      exact ⟨l', k', file, congrArg some hreopen, hlevel, hwf_level, hchecking, hwf', hfile, hdir,
        hadd⟩
  | some found =>
      dsimp only
      by_cases hsame : found ≠ current
      · rw [if_pos hsame]
        exact ⟨l', k', file, congrArg some hreopen, hlevel, hwf_level, hchecking, hwf', hfile, hdir,
          hadd⟩
      · rw [if_neg hsame]
        obtain rfl := not_not.mp hsame
        exact ⟨l, k, found, rfl, rfl, rfl, h, hwf, hcurrent, hname, fun _ => rfl⟩

-- A write through the descriptor of the wf log reaches the disk where its file has a name.
theorem disk_append_wf (hwf : WfAt l k wf) (hon : l.wf_flag = true) {file : Nat}
    (hopen : k.file l.wf_fd = some file) (bytes : List UInt8) :
    (k.append l.wf_fd bytes).disk = (Logs.add_wf ⟨k.disk, wf⟩ bytes).disk := by
  cases wf with
  | some n =>
      obtain ⟨-, found, hfound, hdir⟩ := (hwf n).mp rfl
      obtain rfl := Option.some.inj (hopen.symm.trans hfound)
      exact Posix.disk_append hopen hdir bytes
  | none =>
      apply Posix.disk_append_nameless hopen
      intro n hn
      cases (hwf n).mpr ⟨hon, file, hopen, hn⟩

theorem wfAt_append (hwf : WfAt l k wf) (fd : Int) (bytes : List UInt8) :
    WfAt l (k.append fd bytes) wf := by
  apply hwf.congr rfl rfl
  · exact fun _ => Posix.file_append ..
  · intro file _ n
    rw [Posix.dir_append]

-- The line of a message is written to both logs.
theorem write_line_follows (h : Follows s name d) {file : Nat}
    (hopen : s.kernel.file s.log.fd = some file) (hdir : s.kernel.dir name = some file) (m : Message)
    (line : List UInt8) :
    (write_line s m line).log = s.log ∧ Follows (write_line s m line) name
      (let d := { d with disk := d.disk.add name (line.take m.writev) }
       if m.level ≤ s.log.wf_level then d.add_wf (line.take m.wf_writev) else d) := by
  have hmain : (s.kernel.append s.log.fd (line.take m.writev)).disk =
      d.disk.add name (line.take m.writev) := by
    rw [Posix.disk_append hopen hdir, h.disk]
  have hwf := wfAt_append h.wf_at s.log.fd (line.take m.writev)
  have hchecking := h.checking.kernel
    fun i => Posix.file_append s.kernel s.log.fd (line.take m.writev) i
  unfold write_line
  rw [put_of_open hopen]
  dsimp only
  by_cases hlevel : m.level ≤ s.log.wf_level
  · by_cases hon : s.log.wf_flag = true
    · obtain ⟨wf_file, hwf_open⟩ := Option.ne_none_iff_exists'.mp (hchecking.wf hon).2.2
      have hboth : (s.log.wf_flag && decide (m.level ≤ s.log.wf_level)) = true := by
        rw [hon, decide_eq_true hlevel]
        rfl
      rw [if_pos hboth, put_of_open hwf_open, if_pos hlevel]
      refine ⟨rfl, hchecking.kernel fun i => Posix.file_append .., ?_, ?_⟩
      · rw [disk_append_wf hwf hon hwf_open, hmain]
      · have hsame : (Logs.add_wf ⟨d.disk.add name (line.take m.writev), d.wf⟩
            (line.take m.wf_writev)).wf = d.wf := by
          unfold Logs.add_wf
          split <;> rfl
        rw [hsame]
        exact wfAt_append hwf s.log.wf_fd (line.take m.wf_writev)
    · have hnone : d.wf = none := by
        cases hd : d.wf with
        | none => rfl
        | some n => exact absurd ((h.wf_at n).mp hd).1 hon
      rw [if_neg (fun hboth => hon (Bool.and_eq_true_iff.mp hboth).1), if_pos hlevel]
      refine ⟨rfl, hchecking, ?_, ?_⟩
      · rw [Logs.add_wf, hnone]
        exact hmain
      · rw [Logs.add_wf, hnone]
        rw [hnone] at hwf
        exact hwf
  · have hnot : ¬(s.log.wf_flag && decide (m.level ≤ s.log.wf_level)) = true :=
      fun hboth => hlevel (of_decide_eq_true (Bool.and_eq_true_iff.mp hboth).2)
    rw [if_neg hnot, if_neg hlevel]
    exact ⟨rfl, hchecking, hmain, hwf⟩

-- A message goes to the file that has the name of the log at that moment.
theorem log_message_follows (h : Follows s name d) {m : Message} (hcalm : Calm (.message m)) :
    ∃ s', log_message s m = some s' ∧ s'.log.level = s.log.level ∧
      s'.log.wf_level = s.log.wf_level ∧
      Follows s' name (d.after s.log.level s.log.wf_level name (.message m)) := by
  obtain ⟨hline, hstat, hfault⟩ := hcalm
  obtain ⟨line, hline⟩ := Option.isSome_iff_exists.mp hline
  unfold log_message Logs.after
  dsimp only
  by_cases hlevel : s.log.level < m.level
  · rw [if_pos hlevel, if_pos hlevel]
    exact ⟨s, rfl, rfl, rfl, h⟩
  rw [if_neg hlevel, if_neg hlevel, hline, Option.getD_some]
  obtain ⟨l', k', file, hcheck, hlevel', hwf_level', hchecking, hwf, hfile, hdir, hadd⟩ :=
    check_file_named h.checking h.wf_at
  have hfirst : check_first s m = some { s with log := l', kernel := k' } := by
    have hnamed : s.log.name.isSome = true := by rw [h.checking.name_eq]; rfl
    unfold check_first
    rw [if_pos ⟨h.checking.check, hnamed⟩, hstat, hfault, hcheck]
    rfl
  have hfollows : Follows { s with log := l', kernel := k' } name ⟨k'.disk, d.wf⟩ :=
    ⟨hchecking, rfl, hwf⟩
  obtain ⟨hlog, hwritten⟩ := write_line_follows hfollows hfile hdir m line
  rw [hfirst]
  refine ⟨write_line { s with log := l', kernel := k' } m line, ?_, ?_, ?_, ?_⟩
  · change rotate_full (write_line { s with log := l', kernel := k' } m line) m = _
    rw [rotate_full, hlog, if_neg (not_not.mpr hchecking.max_size)]
  · rw [hlog]
    exact hlevel'
  · rw [hlog]
    exact hwf_level'
  · have hsame : k'.disk.add name (line.take m.writev) = d.disk.add name (line.take m.writev) := by
      rw [hadd, h.disk]
    dsimp only at hwritten
    rw [hsame, hwf_level'] at hwritten
    exact hwritten

-- A rename takes the wf log along, or takes its name away.
theorem wfAt_rename (h : WfAt l k d.wf) (hdisk : k.disk = d.disk) (old new : FileName) :
    WfAt l (k.rename old new) (d.after_rename old new).wf := by
  have hnone : d.disk old = none ↔ k.dir old = none := by
    rw [← hdisk]
    exact Option.map_eq_none_iff
  unfold Logs.after_rename
  dsimp only
  by_cases hno : k.dir old = none ∨ old = new
  · rw [if_pos (hno.imp_left hnone.mpr), Posix.rename, if_pos hno]
    exact h
  rw [if_neg fun hdno => hno (hdno.imp_left hnone.mp)]
  obtain ⟨hthere, hne⟩ := not_or.mp hno
  intro n
  simp only [Posix.file_rename, Posix.dir_rename hne, hthere, ne_eq, not_false_eq_true, and_true]
  have hold := h old
  have hn := h n
  by_cases hnew : n = new
  · subst hnew
    simp only [ite_true]
    rw [← hold]
    by_cases hwf : d.wf = some old
    · simp [hwf]
    · by_cases hwf_new : d.wf = some n
      · simp [hwf_new, Ne.symm hne]
      · simp [hwf, hwf_new]
  · simp only [hnew, ite_false]
    by_cases hn_old : n = old
    · subst hn_old
      simp only [ite_true, reduceCtorEq, and_false, exists_false, iff_false]
      by_cases hwf : d.wf = some n
      · simp [hwf, Ne.symm hnew]
      · by_cases hwf_new : d.wf = some new
        · simp [hwf_new, Ne.symm hne]
        · simp [hwf, hwf_new]
    · simp only [hn_old, ite_false]
      rw [← hn]
      by_cases hwf : d.wf = some old
      · simp [hwf, Ne.symm hnew, Ne.symm hn_old]
      · by_cases hwf_new : d.wf = some new
        · simp [hwf_new, Ne.symm hne, Ne.symm hnew]
        · simp [hwf, hwf_new]

theorem wfAt_unlink (h : WfAt l k wf) (name : FileName) :
    WfAt l (k.unlink name) (if wf = some name then none else wf) := by
  intro n
  simp only [Posix.file_unlink, Posix.dir_unlink]
  by_cases hname : n = name
  · subst hname
    simp only [ite_true, reduceCtorEq, and_false, exists_false, iff_false]
    split_ifs with hwf
    · exact not_false
    · exact hwf
  · simp only [hname, ite_false]
    rw [← h n]
    split_ifs with hwf
    · simp [hwf, Ne.symm hname]
    · exact Iff.rfl

theorem Follows.step (h : Follows s name d) {event : Event} (hcalm : Calm event) :
    ∃ s', Event.step s event = some s' ∧ s'.log.level = s.log.level ∧
      s'.log.wf_level = s.log.wf_level ∧
      Follows s' name (d.after s.log.level s.log.wf_level name event) := by
  cases event with
  | message m => exact log_message_follows h hcalm
  | rename old new =>
      refine ⟨_, rfl, rfl, rfl, h.checking.kernel fun i => Posix.file_rename .., ?_,
        wfAt_rename h.wf_at h.disk old new⟩
      exact (Posix.disk_rename ..).trans (by rw [h.disk]; rfl)
  | unlink other =>
      refine ⟨_, rfl, rfl, rfl, h.checking.kernel fun i => Posix.file_unlink .., ?_,
        wfAt_unlink h.wf_at other⟩
      exact (Posix.disk_unlink ..).trans (by rw [h.disk]; rfl)
  | add other bytes =>
      refine ⟨_, rfl, rfl, rfl, h.checking.kernel fun i => Posix.file_add .., ?_, ?_⟩
      · exact (Posix.disk_add ..).trans (by rw [h.disk]; rfl)
      · apply h.wf_at.congr rfl rfl
        · exact fun _ => Posix.file_add ..
        · intro file hmem n
          rw [Posix.dir_add]
          exact Posix.dir_create_iff (s.kernel.opened file hmem) n

theorem Follows.run {events : List Event} (h : Follows s name d)
    (hcalm : ∀ event ∈ events, Calm event) :
    ∃ s', exec Event.step s events = some s' ∧
      Follows s' name (events.foldl (Logs.after s.log.level s.log.wf_level name) d) := by
  induction events generalizing s d with
  | nil => exact ⟨s, rfl, h⟩
  | cons event rest ih =>
      rw [List.forall_mem_cons] at hcalm
      obtain ⟨s₁, hstep, hlevel, hwf_level, hfollows⟩ := h.step hcalm.1
      obtain ⟨s', hrun, hend⟩ := ih hfollows hcalm.2
      rw [hlevel, hwf_level] at hend
      exact ⟨s', exec_cons_eq_some.mpr ⟨s₁, hstep, hrun⟩, hend⟩

-- The disk when the log and, if it is wanted, the wf log have been opened.
def start (d : Disk FileName) (name : FileName) (open_wf : Bool) : Logs :=
  if open_wf then ⟨(d.add name []).add (wf_name name) [], some (wf_name name)⟩
  else ⟨d.add name [], none⟩

theorem follows_start (hstd : Standard k) (filename : FileName) (flag open_wf : Bool) {v : Int}
    (hv : v ≠ 0) :
    ∃ s, exec step ⟨new, k, [], []⟩ [.set_file_name filename flag open_wf ⟨false, false⟩,
        .set_check v, .set_max_file_size 0] = some s ∧ s.log.level = new.level ∧
      s.log.wf_level = new.wf_level ∧
      Follows s (c_str filename) (start k.disk (c_str filename) open_wf) := by
  obtain ⟨k₁, fd, file, hset, hown, hstd₁, hdir, hopen, hcontents, hkeeps⟩ :=
    name_new hstd filename flag open_wf
  have hdisk : k₁.disk = k.disk.add (c_str filename) [] := by
    rw [Posix.disk_of_keeps hkeeps hdir, hcontents, Disk.add, Posix.getD_disk, List.append_nil]
  have hopened : k₁.file fd ≠ none := by
    rw [hopen]
    exact Option.some_ne_none _
  cases open_wf with
  | false =>
      let l : Logger := { named filename flag false fd with check := v, maxFileSize := 0 }
      refine ⟨⟨l, k₁, [], []⟩, ?_, rfl, rfl, ⟨rfl, hv, rfl, hstd₁, hown, hopened, ?_⟩, hdisk, ?_⟩
      · rw [exec_cons, step, hset]
        rfl
      · exact fun hon => absurd hon Bool.false_ne_true
      · intro n
        exact ⟨fun hn => absurd hn.symm (Option.some_ne_none n),
          fun hon => absurd hon.1 Bool.false_ne_true⟩
  | true =>
      obtain ⟨k₂, wf_fd, wf_file, hopen₂, hthree, hfree, hfile₂, hdir₂, hkeeps₂, hcontents₂⟩ :=
        open_log hstd₁ (wf_name (c_str filename))
      let l : Logger :=
        { named filename flag true fd with check := v, maxFileSize := 0, wf_fd := wf_fd }
      have hopen_wf : k₂.file wf_fd = some wf_file := by rw [hfile₂, if_pos rfl]
      have hne : wf_fd ≠ fd := by
        rintro rfl
        exact hopened hfree
      refine ⟨⟨l, k₂, [], []⟩, ?_, rfl, rfl, ⟨rfl, hv, rfl, ?_, hown, ?_, fun _ => ⟨hthree, hne, ?_⟩⟩,
        ?_, ?_⟩
      · rw [exec_cons, step, hset, if_pos rfl, hopen₂]
        rfl
      · exact hstd₁.opened hfile₂
      · change k₂.file fd ≠ none
        rw [hfile₂, if_neg (Ne.symm hne)]
        exact hopened
      · change k₂.file wf_fd ≠ none
        rw [hopen_wf]
        exact Option.some_ne_none _
      · change k₂.disk = (k.disk.add (c_str filename) []).add (wf_name (c_str filename)) []
        rw [Posix.disk_of_keeps hkeeps₂ hdir₂, hcontents₂, ← hdisk, Disk.add, Posix.getD_disk,
          List.append_nil]
      · intro n
        constructor
        · intro hn
          obtain rfl := Option.some.inj hn
          exact ⟨rfl, wf_file, hopen_wf, hdir₂⟩
        · rintro ⟨-, found, hfound, hn⟩
          obtain rfl := Option.some.inj (hopen_wf.symm.trans hfound)
          exact congrArg some (k₂.no_links _ _ _ hdir₂ hn)

-- A log that checks its file and leaves the rotation to others is written as if it were opened for
-- each message and closed again, whatever other processes do to the files in between. The wf log
-- stays with the file that it was opened on, under whatever name.
theorem disk_of_run (hstd : Standard k) (filename : FileName) (flag open_wf : Bool) {v : Int}
    (hv : v ≠ 0) {events : List Event} (hcalm : ∀ event ∈ events, Calm event) :
    ∃ s final, exec Logger.step ⟨new, k, [], []⟩ [.set_file_name filename flag open_wf ⟨false, false⟩,
        .set_check v, .set_max_file_size 0] = some s ∧
      exec Event.step s events = some final ∧
      final.kernel.disk = (events.foldl (Logs.after new.level new.wf_level (c_str filename))
        (start k.disk (c_str filename) open_wf)).disk := by
  obtain ⟨s, hstart, hlevel, hwf_level, hfollows⟩ := follows_start hstd filename flag open_wf hv
  obtain ⟨final, hrun, hend⟩ := hfollows.run hcalm
  rw [hlevel, hwf_level] at hend
  exact ⟨s, final, hstart, hrun, hend.disk⟩

end

-- Both logs are renamed between two messages. The second one goes to a new log, and to the file
-- that the wf log had.
theorem disk_of_renamed_logs :
    let line (sec : Int) : List UInt8 := ((line_of (hello sec)).getD []).take 999
    ∃ s final, exec Logger.step ⟨new, console, [], []⟩
        [.set_file_name [97] true true ⟨false, false⟩, .set_check 1, .set_max_file_size 0] =
          some s ∧
      exec Event.step s [.message (hello 1), .rename [97] [98], .rename [97, 46, 119, 102] [99],
        .message (hello 2)] = some final ∧
      final.kernel.disk [98] = some (line 1) ∧ final.kernel.disk [97] = some (line 2) ∧
      final.kernel.disk [99] = some ((line 1).take 2 ++ (line 2).take 2) := by
  have hcalm : ∀ event ∈ [Event.message (hello 1), .rename [97] [98],
      .rename [97, 46, 119, 102] [99], .message (hello 2)], Calm event := by
    intro event hmem
    simp only [List.mem_cons, List.not_mem_nil, or_false] at hmem
    rcases hmem with rfl | rfl | rfl | rfl
    · exact ⟨by decide, rfl, rfl⟩
    · trivial
    · trivial
    · exact ⟨by decide, rfl, rfl⟩
  obtain ⟨s, final, hstart, hrun, hdisk⟩ :=
    disk_of_run (standard_console (N := FileName)) [97] true true (by decide : (1 : Int) ≠ 0) hcalm
  refine ⟨s, final, hstart, hrun, ?_, ?_, ?_⟩
  · rw [hdisk]
    decide
  · rw [hdisk]
    decide
  · rw [hdisk]
    decide

end IgLibs.Logger.Outside
