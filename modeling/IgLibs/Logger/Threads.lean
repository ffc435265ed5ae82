import IgLibs.Logger.Retention

namespace IgLibs.Logger

open Machine

-- Where a thread stands in log_message, from its writev on. From `access` on it is in the call of
-- rotate_log, whose time `tm` is read at `retire`. `close_old` and `assign` are for a log of its own.
inductive Stage
  | idle | lock | seek | access | retire
  | rename (tm : Tm) | rename_wf (tm : Tm) | opens
  | dup (fd : Int) | dup_out (fd : Int) | dup_err (fd : Int) | close (fd : Int)
  | close_old (fd : Int) | assign (fd : Int)
  | unlock
deriving DecidableEq

-- Threads that share a logger, one system call at a time. `lock` is _fileSizeMutex, `taken` what
-- the calls of writev have taken.
structure Threads (T : Type*) where
  log : Logger
  kernel : Posix FileName
  lock : Option T
  stage : T → Stage
  taken : List UInt8

inductive Event
  | writes (line : List UInt8) (writev : Nat)
  | rotates (tm : Tm)
  | opens (fault : Bool)
  | goes
deriving DecidableEq

namespace Threads

variable {T : Type*} [DecidableEq T]

def turn (s : Threads T) (t : T) (stage : Stage) : Threads T :=
  { s with stage := Function.update s.stage t stage }

-- The list of old files, which has a mutex of its own, with unlink(2) for the oldest one.
def rotates (name : FileName) (s : Threads T) (t : T) (tm : Tm) : Option (Threads T) :=
  let oldLogFile := old_name name (stamp tm)
  if 256 ≤ oldLogFile.length then none
  else
    let (fileList, k) := retire s.log.maxFileIndex s.log.fileList s.kernel oldLogFile
    some ({ s with log := { s.log with fileList := fileList }, kernel := k }.turn t (.rename tm))

-- The next call of a thread, where that needs nothing from outside. There is no wf log.
def goes (name : FileName) (s : Threads T) (t : T) : Option (Threads T) :=
  match s.stage t with
  | .idle | .retire | .opens => none
  | .lock => if s.lock = none then some ({ s with lock := some t }.turn t .seek) else none
  | .seek =>
      match s.kernel.size s.log.fd with
      | none => some (s.turn t .unlock)
      | some offset => some (s.turn t (if s.log.maxFileSize ≤ offset then .access else .unlock))
  | .access => some (s.turn t (if s.kernel.dir name = none then .opens else .retire))
  | .rename tm =>
      some ({ s with kernel := s.kernel.rename name (old_name name (stamp tm)) }.turn t (.rename_wf tm))
  | .rename_wf tm =>
      some ({ s with
        kernel := s.kernel.rename (wf_name name) (old_wf_name name (stamp tm)) }.turn t .opens)
  | .dup fd => some ({ s with kernel := (s.kernel.dup2 fd s.log.fd).1 }.turn t (.dup_out fd))
  | .dup_out fd => some ({ s with kernel := (s.kernel.dup2 fd 1).1 }.turn t (.dup_err fd))
  | .dup_err fd =>
      some ({ s with
        kernel := if s.log.fd ≠ 2 then (s.kernel.dup2 fd 2).1 else s.kernel }.turn t (.close fd))
  | .close fd => some ({ s with kernel := (s.kernel.close fd).1 }.turn t .unlock)
  | .close_old fd =>
      some ({ s with
        kernel := if s.log.fd ≠ 2 then (s.kernel.close s.log.fd).1 else s.kernel }.turn t (.assign fd))
  | .assign fd => some ({ s with log := { s.log with fd := fd } }.turn t .unlock)
  | .unlock => some ({ s with lock := none }.turn t .idle)

def step (name : FileName) (s : Threads T) : T × Event → Option (Threads T)
  | (t, .writes line writev) =>
      if s.stage t = .idle then
        let (k, bytes) := put s.kernel s.log.fd line writev
        some ({ s with kernel := k, taken := s.taken ++ bytes }.turn t
          (if s.log.maxFileSize ≠ 0 then .lock else .idle))
      else none
  | (t, .rotates tm) => if s.stage t = .retire then s.rotates name t tm else none
  | (t, .opens fault) =>
      if s.stage t = .opens then
        let (k, fd) := s.kernel.open_file name true fault
        some ({ s with kernel := k }.turn t (if !s.log.flag then .dup fd else .close_old fd))
      else none
  | (t, .goes) => s.goes name t

end Threads

-- The current volume while its file is being retired: under its own name at first, then under the
-- old one.
structure Retiring (k : Posix FileName) (place old : FileName) (list : List FileName) (limit : Nat)
    (a : Archive FileName) : Prop where
  current : ∃ file, k.dir place = some file ∧ k.file 2 = some file ∧ k.contents file = a.current
  stores : Stores k (Archive.make_room limit a.past)
  list_eq : list = Archive.listed (a.close limit old).past
  ordered : Archive.Ordered a.past

-- The current volume is in the file with the log's name.
def Placed (name : FileName) (k : Posix FileName) (l : Logger) (a : Archive FileName)
    (coming : List FileName) : Prop :=
  Journal k name 2 l.fileList a ∧ Distinct name a ⟨[], []⟩ coming

-- The current volume still has the old name, and no file has the log's: so it is before open(2),
-- and so it stays when that fails.
def Stranded (name : FileName) (k : Posix FileName) (l : Logger) (a : Archive FileName)
    (coming : List FileName) : Prop :=
  ∃ old, Retiring k old old l.fileList l.maxFileIndex a ∧ k.dir name = none ∧
    Distinct name a ⟨[], []⟩ (old :: coming) ∧ l.maxFileSize ≤ a.current.length

-- What is true of the files while the thread that holds the lock is at a stage.
def Phase (name : FileName) (k : Posix FileName) (l : Logger) (a : Archive FileName)
    (coming : List FileName) : Stage → Prop
  | .idle | .lock | .seek | .unlock => Placed name k l a coming ∨ Stranded name k l a coming
  | .access =>
      Placed name k l a coming ∧ l.maxFileSize ≤ a.current.length ∨ Stranded name k l a coming
  | .retire => Placed name k l a coming ∧ l.maxFileSize ≤ a.current.length
  | .rename tm =>
      Retiring k name (old_name name (stamp tm)) l.fileList l.maxFileIndex a ∧
        Distinct name a ⟨[], []⟩
          (old_name name (stamp tm) :: old_wf_name name (stamp tm) :: coming) ∧
        l.maxFileSize ≤ a.current.length
  | .rename_wf tm =>
      Retiring k (old_name name (stamp tm)) (old_name name (stamp tm)) l.fileList l.maxFileIndex a ∧
        k.dir name = none ∧
        Distinct name a ⟨[], []⟩
          (old_name name (stamp tm) :: old_wf_name name (stamp tm) :: coming) ∧
        l.maxFileSize ≤ a.current.length
  | .opens => Stranded name k l a coming
  | .dup fd =>
      (∃ old, Retiring k old old l.fileList l.maxFileIndex a ∧
        Distinct name a ⟨[], []⟩ (old :: coming) ∧ l.maxFileSize ≤ a.current.length ∧ 3 ≤ fd ∧
        ∃ file, k.dir name = some file ∧ k.file fd = some file ∧ k.contents file = []) ∨
      fd = -1 ∧ Stranded name k l a coming
  | .dup_out fd | .dup_err fd | .close fd =>
      Placed name k l a coming ∧ 3 ≤ fd ∨ fd = -1 ∧ Stranded name k l a coming
  | .close_old _ | .assign _ => False

section

variable {k k' : Posix FileName} {place old name : FileName} {list : List FileName} {limit : Nat}
  {a : Archive FileName}

theorem Retiring.keeps {names : List FileName} (h : Retiring k place old list limit a)
    (hkeeps : Posix.Keeps names k k') (hnames : ∀ n ∈ place :: a.names, n ∉ names)
    (hfd : k'.file 2 = k.file 2) : Retiring k' place old list limit a := by
  obtain ⟨file, hdir, hopen, hcontents⟩ := h.current
  obtain ⟨hdir', hcontents'⟩ := hkeeps place (hnames place List.mem_cons_self)
  refine ⟨⟨file, hdir'.trans hdir, hfd.trans hopen, (hcontents' file hdir).trans hcontents⟩, ?_,
    h.list_eq, h.ordered⟩
  apply stores_of_keeps h.stores hkeeps
  intro n hn
  rw [Archive.make_room_names] at hn
  exact hnames n (List.mem_cons_of_mem _ hn)

-- Other threads still write to the file that is being retired.
theorem Retiring.append (h : Retiring k place old list limit a) (hplace : place ∉ a.names)
    (text : List UInt8) : Retiring (k.append 2 text) place old list limit (a.log text) := by
  obtain ⟨file, hdir, hopen, hcontents⟩ := h.current
  refine ⟨⟨file, ?_, ?_, ?_⟩, ?_, ?_, h.ordered⟩
  · rw [Posix.dir_append, hdir]
  · rw [Posix.file_append, hopen]
  · rw [Posix.contents_append hopen, Function.update_self, hcontents]
    rfl
  · apply stores_of_keeps h.stores (Posix.keeps_append hopen hdir text)
    intro n hn hmem
    rw [Archive.make_room_names] at hn
    rw [List.mem_singleton] at hmem
    exact hplace (hmem ▸ hn)
  · rw [h.list_eq, Archive.listed_close, Archive.listed_close]
    rfl

variable {l : Logger} {w : Archive FileName} {coming : List FileName} {old_wf : FileName} {tm : Tm}
  {fd : Int}

theorem Distinct.one (h : Distinct name a w (old :: old_wf :: coming)) :
    Distinct name a w (old :: coming) := by
  refine List.Nodup.sublist (.cons_cons _ (.cons_cons _ ?_)) h
  exact (List.Sublist.refl _).append (.cons_cons _ (List.sublist_cons_self ..))

theorem Distinct.close (h : Distinct name a w (old :: coming)) (limit : Nat) :
    Distinct name (a.close limit old) w coming := by
  refine List.Perm.nodup (List.Perm.cons _ (List.Perm.cons _ ?_)) h
  rw [Archive.names_close, List.perm_iff_count]
  intro n
  simp only [List.count_append, List.count_cons, List.count_nil]
  omega

-- The names in use and an old name to come, one by one.
theorem Distinct.head (h : Distinct name a w (old :: coming)) :
    name ≠ wf_name name ∧ name ≠ old ∧ wf_name name ≠ old ∧ name ∉ a.names ∧
      wf_name name ∉ a.names ∧ old ∉ a.names ∧ a.names.Nodup := by
  simp only [Distinct, List.nodup_cons, List.mem_cons, List.mem_append, not_or,
    List.nodup_append] at h
  refine ⟨h.1.1, h.1.2.2.1, h.2.1.2.1, h.1.2.1.1, h.2.1.1.1, fun hmem => ?_, h.2.2.1.1⟩
  exact h.2.2.2.2 old (.inl hmem) old (.inl rfl) rfl

theorem Distinct.second (h : Distinct name a w (old :: old_wf :: coming)) :
    old ≠ old_wf ∧ name ≠ old_wf ∧ old_wf ∉ a.names := by
  simp only [Distinct, List.nodup_cons, List.mem_cons, List.mem_append, not_or,
    List.nodup_append] at h
  refine ⟨h.2.2.2.1.1.1, h.1.2.2.2.1, fun hmem => ?_⟩
  exact h.2.2.2.2 old_wf (.inl hmem) old_wf (.inr (.inl rfl)) rfl

-- lseek(2) and access(2) see which of the two it is.
theorem phase_seek (h : Phase name k l a coming .seek) :
    ∃ offset, k.size 2 = some offset ∧
      (l.maxFileSize ≤ offset → Phase name k l a coming .access) := by
  rcases h with hplaced | ⟨old, hretiring, hrest⟩
  · obtain ⟨file, -, hopen, hcontents⟩ := hplaced.1.current
    refine ⟨a.current.length, ?_, fun hfull => .inl ⟨hplaced, hfull⟩⟩
    rw [Posix.size, hopen, Option.map_some, hcontents]
  · obtain ⟨file, -, hopen, -⟩ := hretiring.current
    refine ⟨(k.contents file).length, ?_, fun _ => .inr ⟨old, hretiring, hrest⟩⟩
    rw [Posix.size, hopen, Option.map_some]

theorem phase_access (h : Phase name k l a coming .access) :
    Phase name k l a coming (if k.dir name = none then .opens else .retire) := by
  rcases h with ⟨hplaced, hfull⟩ | ⟨old, hretiring, hgone, hrest⟩
  · obtain ⟨file, hdir, -⟩ := hplaced.1.current
    rw [if_neg (by rw [hdir]; exact Option.some_ne_none _)]
    exact ⟨hplaced, hfull⟩
  · rw [if_pos hgone]
    exact ⟨old, hretiring, hgone, hrest⟩

theorem phase_rotates (h : Phase name k l a
      (old_name name (stamp tm) :: old_wf_name name (stamp tm) :: coming) .retire) :
    ∃ list k', retire l.maxFileIndex l.fileList k (old_name name (stamp tm)) = (list, k') ∧
      Phase name k' { l with fileList := list } a coming (.rename tm) ∧
      ∀ i, k'.file i = k.file i := by
  obtain ⟨⟨hjournal, hdistinct⟩, hfull⟩ := h
  obtain ⟨-, -, -, hname, -, -, hnodup⟩ := hdistinct.head
  obtain ⟨file, hdir, hopen, hcontents⟩ := hjournal.current
  obtain ⟨list, k', hretire, hlist, hstores, hkeeps, hfile⟩ :=
    retire_spec hjournal.stores hjournal.list_eq hnodup l.maxFileIndex (old_name name (stamp tm))
  obtain ⟨hdir', hcontents'⟩ := hkeeps name hname
  refine ⟨list, k', hretire, ⟨⟨⟨file, ?_, ?_, ?_⟩, hstores, hlist, hjournal.ordered⟩, hdistinct, hfull⟩,
    hfile⟩
  · rw [hdir', hdir]
  · rw [hfile, hopen]
  · rw [hcontents' file hdir, hcontents]

theorem phase_rename (h : Phase name k l a coming (.rename tm)) :
    Phase name (k.rename name (old_name name (stamp tm))) l a coming (.rename_wf tm) := by
  obtain ⟨hretiring, hdistinct, hfull⟩ := h
  obtain ⟨-, hne, -, hname, -, hold, -⟩ := hdistinct.head
  obtain ⟨file, hdir, hopen, hcontents⟩ := hretiring.current
  refine ⟨⟨⟨file, ?_, ?_, ?_⟩, ?_, hretiring.list_eq, hretiring.ordered⟩, ?_, hdistinct, hfull⟩
  · rw [Posix.dir_rename hne, if_pos ⟨rfl, by rw [hdir]; exact Option.some_ne_none _⟩, hdir]
  · rw [Posix.file_rename, hopen]
  · rw [Posix.contents_rename, hcontents]
  · apply stores_of_keeps hretiring.stores (Posix.keeps_rename k name _)
    intro n hn hmem
    rw [Archive.make_room_names] at hn
    rcases List.mem_pair.mp hmem with rfl | rfl
    · exact hname hn
    · exact hold hn
  · rw [Posix.dir_rename hne, if_neg fun h => hne h.1, if_pos rfl]

theorem phase_rename_wf (h : Phase name k l a coming (.rename_wf tm)) :
    Phase name (k.rename (wf_name name) (old_wf_name name (stamp tm))) l a coming .opens := by
  obtain ⟨hretiring, hgone, hdistinct, hfull⟩ := h
  obtain ⟨hwf, -, hwf_old, -, hwf_past, -, -⟩ := hdistinct.head
  obtain ⟨hold, hname, hpast⟩ := hdistinct.second
  have hkeeps := Posix.keeps_rename k (wf_name name) (old_wf_name name (stamp tm))
  refine ⟨old_name name (stamp tm), hretiring.keeps hkeeps ?_ (Posix.file_rename ..), ?_,
    hdistinct.one, hfull⟩
  · intro n hn hmem
    rcases List.mem_pair.mp hmem with rfl | rfl
    · rcases List.mem_cons.mp hn with hn | hn
      · exact hwf_old hn
      · exact hwf_past hn
    · rcases List.mem_cons.mp hn with hn | hn
      · exact hold hn.symm
      · exact hpast hn
  · rw [(hkeeps name _).1, hgone]
    intro hmem
    rcases List.mem_pair.mp hmem with hmem | hmem
    · exact hwf hmem
    · exact hname hmem

theorem phase_opens (hstd : Standard k) (h : Phase name k l a coming .opens) (fault : Bool) :
    ∃ k' fd, k.open_file name true fault = (k', fd) ∧ Phase name k' l a coming (.dup fd) ∧
      Standard k' := by
  cases fault with
  | true => exact ⟨k, -1, rfl, .inr ⟨rfl, h⟩, hstd⟩
  | false =>
      obtain ⟨old, hretiring, hgone, hdistinct, hfull⟩ := h
      obtain ⟨-, hne, -, hname, -, -, -⟩ := hdistinct.head
      obtain ⟨k', fd, file, hopen, hthree, -, hfile, hdir, hkeeps, hcontents⟩ := open_log hstd name
      refine ⟨k', fd, hopen, .inl ⟨old, hretiring.keeps hkeeps ?_ ?_, hdistinct, hfull, hthree, file,
        hdir, ?_, ?_⟩, hstd.opened hfile⟩
      · intro n hn hmem
        rw [List.mem_singleton] at hmem
        rcases List.mem_cons.mp hn with hn | hn
        · exact hne (hmem.symm.trans hn)
        · exact hname (hmem ▸ hn)
      · rw [hfile, if_neg (by omega)]
      · rw [hfile, if_pos rfl]
      · rw [hcontents, Posix.text_of_none hgone]

-- From dup2 on, writes go to the new file, and the old one is a closed volume.
theorem phase_dup (h : Phase name k l a coming (.dup fd)) :
    ∃ a', Phase name (k.dup2 fd 2).1 l a' coming (.dup_out fd) ∧
      (a' = a ∨ l.maxFileSize ≤ a.current.length ∧ ∃ old, a' = a.close l.maxFileIndex old) := by
  rcases h with ⟨old, hretiring, hdistinct, hfull, hthree, file, hdir, hopen, hcontents⟩ | ⟨rfl, h⟩
  · obtain ⟨old_file, hold_dir, -, hold_contents⟩ := hretiring.current
    refine ⟨a.close l.maxFileIndex old, .inl ⟨⟨⟨⟨file, ?_, ?_, ?_⟩, ?_, hretiring.list_eq,
      Archive.ordered_close hretiring.ordered⟩, hdistinct.close l.maxFileIndex⟩, hthree⟩,
      .inr ⟨hfull, old, rfl⟩⟩
    · rw [Posix.dir_dup2, hdir]
    · rw [Posix.file_dup2, if_pos ⟨by rw [hopen]; exact Option.some_ne_none _, by omega, rfl⟩, hopen]
    · rw [Posix.contents_dup2, hcontents]
      rfl
    · have hsame := Posix.keeps_of_eq (k.dir_dup2 fd 2) (k.contents_dup2 fd 2)
      apply stores_of_keeps (hretiring.stores.concat _) hsame fun n _ => List.not_mem_nil
      intro v hv
      rw [List.mem_singleton.mp hv, if_neg (Archive.fate_ne_removed _)]
      exact ⟨old_file, hold_dir, hold_contents⟩
  · refine ⟨a, .inr ⟨rfl, ?_⟩, .inl rfl⟩
    rwa [Posix.dup2_of_neg (by decide)]

theorem phase_dup_out (h : Phase name k l a coming (.dup_out fd)) :
    Phase name (k.dup2 fd 1).1 l a coming (.dup_err fd) := by
  rcases h with ⟨⟨hjournal, hdistinct⟩, hthree⟩ | ⟨rfl, h⟩
  · refine .inl ⟨⟨hjournal.keeps (Posix.keeps_of_eq (Posix.dir_dup2 ..) (Posix.contents_dup2 ..))
      (fun n _ => List.not_mem_nil) ?_, hdistinct⟩, hthree⟩
    rw [Posix.file_dup2, if_neg (fun hno => absurd hno.2.2 (by decide))]
  · refine .inr ⟨rfl, ?_⟩
    rwa [Posix.dup2_of_neg (by decide)]

theorem phase_close (h : Phase name k l a coming (.close fd)) :
    Phase name (k.close fd).1 l a coming .unlock ∧ (Standard k → Standard (k.close fd).1) := by
  rcases h with ⟨⟨hjournal, hdistinct⟩, hthree⟩ | ⟨rfl, h⟩
  · refine ⟨.inl ⟨hjournal.keeps (Posix.keeps_of_eq (Posix.dir_close ..) (Posix.contents_close ..))
      (fun n _ => List.not_mem_nil) ?_, hdistinct⟩, fun hstd => hstd.congr fun i _ hi => ?_⟩
    · rw [Posix.file_close, if_neg (by omega)]
    · rwa [Posix.file_close, if_neg (by omega)]
  · rw [Posix.close_of_neg (by decide)]
    exact ⟨.inr h, id⟩

-- The list of old files is the archive's, or one rotation ahead of it.
theorem phase_list {stage : Stage} (h : Phase name k l a coming stage) :
    l.fileList = Archive.listed a.past ∨
      ∃ old, l.fileList = Archive.listed (a.close l.maxFileIndex old).past := by
  have hplaced (h : Placed name k l a coming) := h.1.list_eq
  have hstranded : Stranded name k l a coming →
      ∃ old, l.fileList = Archive.listed (a.close l.maxFileIndex old).past := by
    rintro ⟨old, hretiring, -⟩
    exact ⟨old, hretiring.list_eq⟩
  cases stage with
  | idle | lock | seek | unlock => exact h.imp hplaced hstranded
  | access => exact h.imp (fun h => hplaced h.1) hstranded
  | retire => exact .inl (hplaced h.1)
  | rename tm | rename_wf tm => exact .inr ⟨_, h.1.list_eq⟩
  | opens => exact .inr (hstranded h)
  | dup fd =>
      rcases h with ⟨old, hretiring, -⟩ | ⟨-, h⟩
      · exact .inr ⟨old, hretiring.list_eq⟩
      · exact .inr (hstranded h)
  | dup_out fd | dup_err fd | close fd => exact h.imp (fun h => hplaced h.1) fun h => hstranded h.2
  | close_old fd | assign fd => exact absurd h id

theorem length_le_append (a : Archive FileName) (text : List UInt8)
    (hfull : l.maxFileSize ≤ a.current.length) :
    l.maxFileSize ≤ (a.log text).current.length := by
  rw [Archive.log, List.length_append]
  omega

theorem Placed.append (h : Placed name k l a coming) (text : List UInt8) :
    Placed name (k.append 2 text) l (a.log text) coming :=
  ⟨h.1.append (nodup_apart h.2.apart).2.1 text, h.2⟩

theorem Stranded.append (h : Stranded name k l a coming) (text : List UInt8) :
    Stranded name (k.append 2 text) l (a.log text) coming := by
  obtain ⟨old, hretiring, hgone, hdistinct, hfull⟩ := h
  refine ⟨old, hretiring.append hdistinct.head.2.2.2.2.2.1 text, ?_, hdistinct,
    length_le_append a text hfull⟩
  rw [Posix.dir_append, hgone]

-- A write by a thread that is not rotating the log.
theorem phase_append {stage : Stage} (h : Phase name k l a coming stage) (text : List UInt8) :
    Phase name (k.append 2 text) l (a.log text) coming stage := by
  cases stage with
  | idle | lock | seek | unlock => exact h.imp (·.append text) (·.append text)
  | access =>
      exact h.imp (fun h => ⟨h.1.append text, length_le_append a text h.2⟩) (·.append text)
  | retire => exact ⟨h.1.append text, length_le_append a text h.2⟩
  | rename tm =>
      obtain ⟨hretiring, hdistinct, hfull⟩ := h
      exact ⟨hretiring.append hdistinct.head.2.2.2.1 text, hdistinct, length_le_append a text hfull⟩
  | rename_wf tm =>
      obtain ⟨hretiring, hgone, hdistinct, hfull⟩ := h
      refine ⟨hretiring.append hdistinct.head.2.2.2.2.2.1 text, ?_, hdistinct,
        length_le_append a text hfull⟩
      rw [Posix.dir_append, hgone]
  | opens => exact Stranded.append h text
  | dup fd =>
      refine h.imp ?_ fun h => ⟨h.1, h.2.append text⟩
      rintro ⟨old, hretiring, hdistinct, hfull, hthree, file, hdir, hopen, hcontents⟩
      obtain ⟨-, hne, -, -, -, hold, -⟩ := hdistinct.head
      obtain ⟨old_file, hold_dir, hold_open, -⟩ := hretiring.current
      refine ⟨old, hretiring.append hold text, hdistinct, length_le_append a text hfull, hthree, file,
        ?_, ?_, ?_⟩
      · rw [Posix.dir_append, hdir]
      · rw [Posix.file_append, hopen]
      · rw [Posix.contents_append hold_open, Function.update_of_ne, hcontents]
        intro heq
        rw [heq] at hdir
        exact hne (k.no_links _ _ _ hdir hold_dir)
  | dup_out fd | dup_err fd | close fd =>
      exact h.imp (fun h => ⟨h.1.append text, h.2⟩) fun h => ⟨h.1, h.2.append text⟩
  | close_old fd | assign fd => exact h

end

namespace Threads

variable {T : Type*}

-- The stage of the thread that holds the lock.
def holder (s : Threads T) : Stage :=
  match s.lock with
  | none => .idle
  | some t => s.stage t

-- One call of rotate_log at a time, with the files as its stage has them, each old file of the
-- size that the log may grow to.
structure Orderly (name : FileName) (l : Logger) (before : List UInt8) (s : Threads T)
    (a : Archive FileName) (coming : List FileName) : Prop where
  standard : Standard s.kernel
  settings : s.log = { l with fileList := s.log.fileList }
  fd_eq : s.log.fd = 2
  flag_eq : s.log.flag = false
  inside : ∀ t, s.lock = some t ↔ s.stage t ≠ .idle ∧ s.stage t ≠ .lock
  phase : Phase name s.kernel s.log a coming s.holder
  bytes_eq : a.bytes = before ++ s.taken
  full : ∀ v ∈ a.past, l.maxFileSize ≤ v.bytes.length
  length_le : (Archive.listed a.past).length ≤ l.maxFileIndex

-- The names that a step may give to old files.
def coming (name : FileName) : T × Event → List FileName
  | (_, .rotates tm) => [old_name name (stamp tm), old_wf_name name (stamp tm)]
  | _ => []

section

variable {name : FileName} {l : Logger} {before : List UInt8} {s s' : Threads T}
  {a a' : Archive FileName}
  {rest rest' : List FileName} {t : T}

theorem holder_of_inside {stage : Stage} (h : Orderly name l before s a rest)
    (hstage : s.stage t = stage) (hinside : stage ≠ .idle ∧ stage ≠ .lock) :
    s.lock = some t ∧ Phase name s.kernel s.log a rest stage := by
  subst hstage
  have hholds := (h.inside t).mpr hinside
  have hphase := h.phase
  rw [holder, hholds] at hphase
  exact ⟨hholds, hphase⟩

theorem Orderly.size_eq (h : Orderly name l before s a rest) :
    s.log.maxFileSize = l.maxFileSize := by
  rw [h.settings]

theorem Orderly.index_eq (h : Orderly name l before s a rest) :
    s.log.maxFileIndex = l.maxFileIndex := by
  rw [h.settings]

theorem Orderly.length_list_le (h : Orderly name l before s a rest) :
    s.log.fileList.length ≤ l.maxFileIndex := by
  rcases phase_list h.phase with hlist | ⟨old, hlist⟩
  · rw [hlist]
    exact h.length_le
  · rw [hlist]
    exact Archive.length_listed_close h.length_le (Nat.le_of_eq h.index_eq)

variable [DecidableEq T]

-- A step of the thread that holds the lock, which it keeps.
theorem Orderly.turn {log : Logger} {k : Posix FileName} {stage : Stage}
    (h : Orderly name l before s a rest) (hholds : s.lock = some t)
    (hstage : stage ≠ .idle ∧ stage ≠ .lock) (hstd : Standard k)
    (hlog : log = { s.log with fileList := log.fileList }) (hphase : Phase name k log a' rest' stage)
    (hbytes : a'.bytes = a.bytes) (hfull : ∀ v ∈ a'.past, l.maxFileSize ≤ v.bytes.length)
    (hlength : (Archive.listed a'.past).length ≤ l.maxFileIndex) :
    Orderly name l before ({ s with log := log, kernel := k }.turn t stage) a' rest' := by
  have hfd : log.fd = s.log.fd := by rw [hlog]
  have hflag : log.flag = s.log.flag := by rw [hlog]
  refine ⟨hstd, ?_, hfd.trans h.fd_eq, hflag.trans h.flag_eq, fun u => ?_, ?_,
    hbytes.trans h.bytes_eq, hfull, hlength⟩
  · change log = { l with fileList := log.fileList }
    rw [hlog, h.settings]
  · change s.lock = some u ↔ Function.update s.stage t stage u ≠ _ ∧
      Function.update s.stage t stage u ≠ _
    by_cases hu : u = t
    · rw [hu, Function.update_self]
      exact iff_of_true hholds hstage
    · rw [Function.update_of_ne hu]
      exact h.inside u
  · have hholder : ({ s with log := log, kernel := k }.turn t stage : Threads T).holder = stage := by
      unfold holder Threads.turn
      rw [hholds]
      exact Function.update_self ..
    rw [hholder]
    exact hphase

theorem orderly_writes {line : List UInt8} {writev : Nat} (h : Orderly name l before s a rest)
    (hstep : step name s (t, .writes line writev) = some s') :
    ∃ a', Orderly name l before s' a' rest := by
  unfold step at hstep
  dsimp only at hstep
  split at hstep
  · rename_i hidle
    obtain ⟨file, hopen⟩ := Option.ne_none_iff_exists'.mp (h.standard 2 (by omega))
    change s.kernel.file 2 = some file at hopen
    rw [h.fd_eq, put_of_open hopen] at hstep
    obtain rfl := Option.some.inj hstep
    generalize hnext : (if s.log.maxFileSize ≠ 0 then Stage.lock else .idle) = next
    have hout : next = .idle ∨ next = .lock := by
      rw [← hnext]
      split
      · exact .inr rfl
      · exact .inl rfl
    have hother : s.lock ≠ some t := fun hno => ((h.inside t).mp hno).1 hidle
    refine ⟨a.log (line.take writev), ?_, h.settings, h.fd_eq, h.flag_eq, fun u => ?_, ?_, ?_, h.full,
      h.length_le⟩
    · intro i hi
      change (s.kernel.append 2 _).file i ≠ none
      rw [Posix.file_append]
      exact h.standard i hi
    · change s.lock = some u ↔ Function.update s.stage t next u ≠ _ ∧
        Function.update s.stage t next u ≠ _
      by_cases hu : u = t
      · rw [hu, Function.update_self]
        refine iff_of_false hother fun hno => ?_
        rcases hout with hout | hout
        · exact hno.1 hout
        · exact hno.2 hout
      · rw [Function.update_of_ne hu]
        exact h.inside u
    · have hholder : ({ s with
          kernel := s.kernel.append 2 (line.take writev)
          taken := s.taken ++ line.take writev }.turn t next : Threads T).holder = s.holder := by
        unfold holder Threads.turn
        dsimp only
        cases hlock : s.lock with
        | none => rfl
        | some u =>
            have hu : u ≠ t := by
              rintro rfl
              exact hother hlock
            exact Function.update_of_ne hu ..
      rw [hholder]
      exact phase_append h.phase (line.take writev)
    · rw [Archive.bytes_log, h.bytes_eq, List.append_assoc]
      rfl
  · cases hstep

theorem orderly_rotates {tm : Tm}
    (h : Orderly name l before s a (coming name (t, .rotates tm) ++ rest))
    (hstep : step name s (t, .rotates tm) = some s') : Orderly name l before s' a rest := by
  unfold step at hstep
  dsimp only at hstep
  split at hstep
  · rename_i hstage
    obtain ⟨hholds, hphase⟩ := holder_of_inside h hstage (by simp)
    obtain ⟨list, k', hretire, hphase', hfile⟩ := phase_rotates hphase
    unfold rotates at hstep
    dsimp only at hstep
    split at hstep
    · cases hstep
    · rw [hretire] at hstep
      obtain rfl := Option.some.inj hstep
      exact h.turn hholds (by simp) (h.standard.congr fun i _ hi => by rwa [hfile]) rfl hphase' rfl
        h.full h.length_le
  · cases hstep

theorem orderly_opens {fault : Bool} (h : Orderly name l before s a rest)
    (hstep : step name s (t, .opens fault) = some s') : Orderly name l before s' a rest := by
  unfold step at hstep
  dsimp only at hstep
  split at hstep
  · rename_i hstage
    obtain ⟨hholds, hphase⟩ := holder_of_inside h hstage (by simp)
    obtain ⟨k', fd, hopen, hphase', hstd⟩ := phase_opens h.standard hphase fault
    rw [hopen, h.flag_eq] at hstep
    exact Option.some.inj hstep ▸ h.turn hholds (by simp) hstd rfl hphase' rfl h.full h.length_le
  · cases hstep

-- The mutex goes to a thread that waits, when no other has it.
theorem orderly_lock (h : Orderly name l before s a rest) (hfree : s.lock = none) (t : T) :
    Orderly name l before ({ s with lock := some t }.turn t .seek) a rest := by
  have hphase := h.phase
  rw [holder, hfree] at hphase
  refine ⟨h.standard, h.settings, h.fd_eq, h.flag_eq, fun u => ?_, ?_, h.bytes_eq, h.full, h.length_le⟩
  · change some t = some u ↔ Function.update s.stage t .seek u ≠ _ ∧
      Function.update s.stage t .seek u ≠ _
    by_cases hu : u = t
    · rw [hu, Function.update_self]
      exact iff_of_true rfl (by simp)
    · rw [Function.update_of_ne hu, ← h.inside u, hfree]
      exact iff_of_false (fun heq => hu (Option.some.inj heq).symm) (by simp)
  · have hholder : ({ s with lock := some t }.turn t .seek : Threads T).holder = .seek :=
      Function.update_self ..
    rw [hholder]
    exact hphase

theorem orderly_unlock (h : Orderly name l before s a rest) (hstage : s.stage t = .unlock) :
    Orderly name l before ({ s with lock := none }.turn t .idle) a rest := by
  obtain ⟨hholds, hphase⟩ := holder_of_inside h hstage (by simp)
  refine ⟨h.standard, h.settings, h.fd_eq, h.flag_eq, fun u => ?_, hphase, h.bytes_eq, h.full,
    h.length_le⟩
  change none = some u ↔ Function.update s.stage t .idle u ≠ _ ∧
    Function.update s.stage t .idle u ≠ _
  refine iff_of_false (by simp) fun hno => ?_
  by_cases hu : u = t
  · rw [hu, Function.update_self] at hno
    exact hno.1 rfl
  · rw [Function.update_of_ne hu, ← h.inside u, hholds] at hno
    exact hu (Option.some.inj hno).symm

theorem orderly_goes (h : Orderly name l before s a rest) (hstep : step name s (t, .goes) = some s') :
    ∃ a', Orderly name l before s' a' rest := by
  change s.goes name t = some s' at hstep
  unfold goes at hstep
  cases hstage : s.stage t with
  | idle | retire | opens =>
      rw [hstage] at hstep
      cases hstep
  | lock =>
      rw [hstage] at hstep
      dsimp only at hstep
      split at hstep
      · rename_i hfree
        exact ⟨a, Option.some.inj hstep ▸ orderly_lock h hfree t⟩
      · cases hstep
  | unlock =>
      rw [hstage] at hstep
      exact ⟨a, Option.some.inj hstep ▸ orderly_unlock h hstage⟩
  | seek =>
      obtain ⟨hholds, hphase⟩ := holder_of_inside h hstage (by simp)
      rw [hstage] at hstep
      obtain ⟨offset, hsize, haccess⟩ := phase_seek hphase
      rw [h.fd_eq, hsize] at hstep
      obtain rfl := Option.some.inj hstep
      refine ⟨a, ?_⟩
      split
      · rename_i hfull
        exact h.turn hholds (by simp) h.standard rfl (haccess hfull) rfl h.full h.length_le
      · exact h.turn hholds (by simp) h.standard rfl hphase rfl h.full h.length_le
  | access =>
      obtain ⟨hholds, hphase⟩ := holder_of_inside h hstage (by simp)
      rw [hstage] at hstep
      refine ⟨a, Option.some.inj hstep ▸ h.turn hholds ?_ h.standard rfl (phase_access hphase) rfl
        h.full h.length_le⟩
      split <;> simp
  | rename tm =>
      obtain ⟨hholds, hphase⟩ := holder_of_inside h hstage (by simp)
      rw [hstage] at hstep
      refine ⟨a, Option.some.inj hstep ▸ h.turn hholds (by simp) ?_ rfl (phase_rename hphase) rfl
        h.full h.length_le⟩
      exact h.standard.congr fun i _ hi => by rwa [Posix.file_rename]
  | rename_wf tm =>
      obtain ⟨hholds, hphase⟩ := holder_of_inside h hstage (by simp)
      rw [hstage] at hstep
      refine ⟨a, Option.some.inj hstep ▸ h.turn hholds (by simp) ?_ rfl (phase_rename_wf hphase) rfl
        h.full h.length_le⟩
      exact h.standard.congr fun i _ hi => by rwa [Posix.file_rename]
  | dup fd =>
      obtain ⟨hholds, hphase⟩ := holder_of_inside h hstage (by simp)
      rw [hstage] at hstep
      rw [h.fd_eq] at hstep
      obtain rfl := Option.some.inj hstep
      obtain ⟨a', hphase', rfl | ⟨hfull, old, rfl⟩⟩ := phase_dup hphase
      · exact ⟨a', h.turn hholds (by simp) (h.standard.dup2 fd 2) rfl hphase' rfl h.full h.length_le⟩
      · rw [h.size_eq] at hfull
        refine ⟨_, h.turn hholds (by simp) (h.standard.dup2 fd 2) rfl hphase'
          (Archive.bytes_close ..) ?_
          (Archive.length_listed_close h.length_le (Nat.le_of_eq h.index_eq))⟩
        exact Archive.forall_bytes_close (fun bytes => l.maxFileSize ≤ bytes.length) h.full hfull
  | dup_out fd =>
      obtain ⟨hholds, hphase⟩ := holder_of_inside h hstage (by simp)
      rw [hstage] at hstep
      exact ⟨a, Option.some.inj hstep ▸ h.turn hholds (by simp) (h.standard.dup2 fd 1) rfl
        (phase_dup_out hphase) rfl h.full h.length_le⟩
  | dup_err fd =>
      obtain ⟨hholds, hphase⟩ := holder_of_inside h hstage (by simp)
      rw [hstage] at hstep
      dsimp only at hstep
      rw [if_neg (fun hno => hno h.fd_eq)] at hstep
      exact ⟨a, Option.some.inj hstep ▸ h.turn hholds (by simp) h.standard rfl hphase rfl h.full
        h.length_le⟩
  | close fd =>
      obtain ⟨hholds, hphase⟩ := holder_of_inside h hstage (by simp)
      rw [hstage] at hstep
      obtain ⟨hphase', hstd⟩ := phase_close hphase
      exact ⟨a, Option.some.inj hstep ▸ h.turn hholds (by simp) (hstd h.standard) rfl hphase' rfl
        h.full h.length_le⟩
  | close_old fd | assign fd =>
      obtain ⟨-, hphase⟩ := holder_of_inside h hstage (by simp)
      exact absurd hphase id

theorem orderly_step {label : T × Event} (h : Orderly name l before s a (coming name label ++ rest))
    (hstep : step name s label = some s') : ∃ a', Orderly name l before s' a' rest := by
  obtain ⟨t, event⟩ := label
  cases event with
  | writes line writev => exact orderly_writes h hstep
  | rotates tm => exact ⟨a, orderly_rotates h hstep⟩
  | opens fault => exact ⟨a, orderly_opens h hstep⟩
  | goes => exact orderly_goes h hstep

end

-- However many threads log, and however their system calls interleave: everything that writev has
-- taken is in the volumes of the log, in the order of the calls; each old file has reached the size
-- limit, and there are no more of them on the list than it may have; and whenever no thread is in
-- rotate_log, the current volume is in the file with the name, or, when open(2) has failed, in the
-- one that was renamed last.
theorem log_of_threads {T : Type*} [DecidableEq T] {name : FileName} {k : Posix FileName} {l : Logger}
    {file : Nat} {labels : List (T × Event)} {s : Threads T} (hstd : Standard k)
    (hdir : k.dir name = some file) (hopen : k.file 2 = some file) (hfd : l.fd = 2)
    (hflag : l.flag = false) (hlist : l.fileList = [])
    (hnodup : (name :: wf_name name :: labels.flatMap (coming name)).Nodup)
    (hrun : exec (step name) ⟨l, k, none, fun _ => .idle, []⟩ labels = some s) :
    ∃ a, Orderly name l (k.text name) s a [] ∧ s.log.fileList.length ≤ l.maxFileIndex := by
  have hstart : Orderly name l (k.text name) (⟨l, k, none, fun _ => .idle, []⟩ : Threads T)
      ⟨[], k.text name⟩ (labels.flatMap (coming name)) := by
    refine ⟨hstd, rfl, hfd, hflag, fun t => ?_, .inl ⟨⟨⟨file, hdir, hopen, ?_⟩, ?_, hlist,
      List.Pairwise.nil⟩, hnodup⟩, (List.append_nil _).symm,
      fun v hv => absurd hv List.not_mem_nil, Nat.zero_le _⟩
    · exact iff_of_false (by simp) (fun hno => hno.1 rfl)
    · exact (Posix.text_of_dir hdir).symm
    · exact fun v hv => absurd hv List.not_mem_nil
  clear hnodup
  generalize (⟨l, k, none, fun _ => .idle, []⟩ : Threads T) = s₀ at hstart hrun
  generalize (⟨[], k.text name⟩ : Archive FileName) = a₀ at hstart
  induction labels generalizing s₀ a₀ with
  | nil =>
      obtain rfl := Option.some.inj hrun
      exact ⟨a₀, hstart, hstart.length_list_le⟩
  | cons label rest ih =>
      rw [List.flatMap_cons] at hstart
      obtain ⟨s₁, hstep, hrest⟩ := exec_cons_eq_some.mp hrun
      obtain ⟨a₁, h₁⟩ := orderly_step hstart hstep
      exact ih s₁ hrest a₁ h₁

def two_threads (flag : Bool) : Threads Bool :=
  let (l, k) := new.set_file_name console [97] flag false ⟨false, false⟩
  ⟨l.set_max_file_size 1, k, none, fun _ => .idle, []⟩

-- A rotation, with open(2) failing or not, and a write before it has come to the end.
def two_writes (fault : Bool) : List (Bool × Event) :=
  [(true, .writes [49] 9), (true, .goes), (true, .goes), (true, .goes),
    (true, .rotates ⟨2024, 2, 29, 23, 59, 59⟩), (true, .goes), (true, .goes), (true, .opens fault),
    (true, .goes), (false, .writes [50] 9)]

theorem log_of_two_threads :
    let s := (exec (step [97]) (two_threads false) (two_writes true)).get (by decide)
    ∃ a, Orderly [97] (two_threads false).log ((two_threads false).kernel.text [97]) s a [] ∧
      s.log.fileList.length ≤ (two_threads false).log.maxFileIndex :=
  log_of_threads (T := Bool)
    (by
      intro fd hfd
      rcases (by omega : fd = 0 ∨ fd = 1 ∨ fd = 2) with rfl | rfl | rfl <;> decide)
    (by decide : _ = some 1) (by decide) (by decide) (by decide) (by decide) (by decide)
    (Option.some_get _).symm

-- With a descriptor of its own the log loses what is written while that is being replaced.
example : (exec (step [97]) (two_threads true) (two_writes false)).map Threads.taken = some [49] := by
  decide

end Threads

end IgLibs.Logger
