import IgLibs.Logger.Rotation
import IgLibs.Machine
import Mathlib.Data.List.Perm.Basic

namespace IgLibs.Logger

open CString Machine

-- The name of an old file has this at its end, if the call rotates the log.
def suffix : Op → Option FileName
  | .rotate_log _ fmt tm _ => some (fmt.getD (stamp tm))
  | .log_message m => some (stamp m.rotate_tm)
  | _ => none

-- Whether log_message finds the log full.
def full (s : Logging) : Bool :=
  s.log.maxFileSize ≠ 0 && (s.kernel.size s.log.fd).any fun offset => s.log.maxFileSize ≤ offset

def rotates (s : Logging) : Op → Bool
  | .rotate_log .. => true
  | .log_message m =>
      m.level ≤ s.log.level && (do
        let s ← check_first s m
        let line ← line_of m
        some (full (write_line s m line))) == some true
  | _ => false

-- What the rotations of a run put behind the names, in their order.
def suffixes (s : Logging) : List Op → List FileName
  | [] => []
  | op :: ops =>
      (if rotates s op then (suffix op).toList else []) ++
        match step s op with
        | some s => suffixes s ops
        | none => []

def old_names (name suffix : FileName) : List FileName :=
  [old_name name suffix, old_wf_name name suffix]

def limit : Op → Nat
  | .set_max_file_index v => (new.set_max_file_index v).maxFileIndex
  | _ => 0

-- The name stays, the files that are asked for are opened, and messages make lines.
def steady : Op → Bool
  | .set_file_name .. => false
  | .rotate_log filename _ _ faults => filename == none && faults == ⟨false, false⟩
  | .log_message m => (line_of m).isSome && m.rotate_faults == ⟨false, false⟩
  | _ => true

-- The two logs, with all that has been written to them.
structure Archived (before : Posix FileName) (open_wf : Bool) (bound : Nat) (s : Logging)
    (name : FileName) (a w : Archive FileName) : Prop where
  serving : Serving s.log s.kernel name a w
  wf_flag_eq : s.log.wf_flag = open_wf
  bytes_eq : a.bytes = before.text name ++ s.taken
  wf_bytes_eq : open_wf = true → w.bytes = before.text (wf_name name) ++ s.wf_taken
  limit_le : s.log.maxFileIndex ≤ bound
  length_le : (Archive.listed a.past).length ≤ bound
  wf_length_le : (Archive.listed w.past).length ≤ bound

section

variable {l l' : Logger} {k k' : Posix FileName} {name : FileName} {fd : Int} {file : Nat}
  {a w : Archive FileName} {s s' : Logging} {m : Message} {before : Posix FileName} {open_wf : Bool}
  {bound : Nat}

-- Only a few fields of a logger matter to its files.
theorem Serving.congr (h : Serving l k name a w) (hname : l'.name = l.name) (hfd : l'.fd = l.fd)
    (hflag : l'.flag = l.flag) (hlist : l'.fileList = l.fileList) (hwf_flag : l'.wf_flag = l.wf_flag)
    (hwf_fd : l'.wf_fd = l.wf_fd) (hwf_list : l'.wf_file_list = l.wf_file_list) :
    Serving l' k name a w := by
  refine ⟨hname.trans h.name_eq, h.standard, ?_, ?_, fun hon => ?_⟩
  · rw [OwnDescriptor, hflag, hfd]
    exact h.own
  · rw [hfd, hlist]
    exact h.main
  · rw [hwf_fd, hwf_list]
    exact h.wf (hwf_flag ▸ hon)

-- The file behind the descriptor is the file with the name, so check_file leaves it.
theorem check_file_of_serving (h : Serving l k name a w) (stat fault : Bool) :
    l.check_file k stat fault = some (l, k) := by
  obtain ⟨file, hdir, hopen, -⟩ := h.main.current
  unfold check_file
  rw [h.name_eq]
  dsimp only
  cases stat with
  | true => rfl
  | false => rw [hdir, hopen]; simp

-- What put does to a file that is open.
theorem put_of_open (hopen : k.file fd = some file) (line : List UInt8) (writev : Nat) :
    put k fd line writev = (k.append fd (line.take writev), line.take writev) := by
  rw [put, if_neg (by rw [hopen]; exact Option.some_ne_none _)]

theorem nodup_apart (h : (name :: wf_name name :: (a.names ++ w.names)).Nodup) :
    name ≠ wf_name name ∧ name ∉ a.names ∧ name ∉ w.names ∧ wf_name name ∉ a.names ∧
      wf_name name ∉ w.names := by
  simp only [List.nodup_cons, List.mem_cons, List.mem_append, not_or] at h
  exact ⟨h.1.1, h.1.2.1, h.1.2.2, h.2.1.1, h.2.1.2⟩

-- A write to the log, with the descriptor of the wf log left alone.
theorem serving_append (h : Serving l k name a w)
    (hapart : (name :: wf_name name :: (a.names ++ w.names)).Nodup) (text : List UInt8) :
    Serving l (k.append l.fd text) name (a.log text) w := by
  obtain ⟨hne, hname, hname', -, -⟩ := nodup_apart hapart
  obtain ⟨file, hdir, hopen, -⟩ := h.main.current
  refine ⟨h.name_eq, fun i hi => ?_, h.own, h.main.append hname text, fun hon => ?_⟩
  · rw [Posix.file_append]
    exact h.standard i hi
  · refine ⟨(h.wf hon).1, (h.wf hon).2.keeps (Posix.keeps_append hopen hdir text) ?_ ?_⟩
    · intro n hn hmem
      rw [List.mem_singleton] at hmem
      rcases List.mem_cons.mp hn with hn | hn
      · exact hne (hmem.symm.trans hn)
      · exact hname' (hmem ▸ hn)
    · exact Posix.file_append ..

theorem serving_append_wf (h : Serving l k name a w)
    (hapart : (name :: wf_name name :: (a.names ++ w.names)).Nodup) (hon : l.wf_flag = true)
    (text : List UInt8) : Serving l (k.append l.wf_fd text) name a (w.log text) := by
  obtain ⟨hne, -, -, hname, hname'⟩ := nodup_apart hapart
  obtain ⟨file, hdir, hopen, -⟩ := (h.wf hon).2.current
  refine ⟨h.name_eq, fun i hi => ?_, h.own, ?_, fun _ => ⟨(h.wf hon).1, (h.wf hon).2.append hname' text⟩⟩
  · rw [Posix.file_append]
    exact h.standard i hi
  · apply h.main.keeps (Posix.keeps_append hopen hdir text)
    · intro n hn hmem
      rw [List.mem_singleton] at hmem
      rcases List.mem_cons.mp hn with hn | hn
      · exact hne (hn.symm.trans hmem)
      · exact hname (hmem ▸ hn)
    · exact Posix.file_append ..

theorem archived_write_line (h : Archived before open_wf bound s name a w)
    (hapart : (name :: wf_name name :: (a.names ++ w.names)).Nodup) (line : List UInt8) :
    ∃ a' w', Archived before open_wf bound (write_line s m line) name a' w' ∧ a'.names = a.names ∧
      w'.names = w.names := by
  obtain ⟨file, -, hopen, -⟩ := h.serving.main.current
  unfold write_line
  rw [put_of_open hopen]
  dsimp only
  have hserving := serving_append h.serving hapart (line.take m.writev)
  have hbytes : (a.log (line.take m.writev)).bytes =
      before.text name ++ (s.taken ++ line.take m.writev) := by
    rw [Archive.bytes_log, h.bytes_eq, List.append_assoc]
  by_cases hwf : (s.log.wf_flag && decide (m.level ≤ s.log.wf_level)) = true
  · have hon : s.log.wf_flag = true := (Bool.and_eq_true_iff.mp hwf).1
    obtain ⟨wf_file, -, hwf_open, -⟩ := (h.serving.wf hon).2.current
    rw [if_pos hwf, put_of_open (by rw [Posix.file_append]; exact hwf_open)]
    refine ⟨_, _, ⟨serving_append_wf hserving hapart hon (line.take m.wf_writev), h.wf_flag_eq, hbytes,
      fun hopen => ?_, h.limit_le, h.length_le, h.wf_length_le⟩, rfl, rfl⟩
    rw [Archive.bytes_log, h.wf_bytes_eq hopen, List.append_assoc]
  · rw [if_neg hwf]
    exact ⟨_, _, ⟨hserving, h.wf_flag_eq, hbytes, h.wf_bytes_eq, h.limit_le, h.length_le,
      h.wf_length_le⟩, rfl, rfl⟩

theorem archived_rotate (fmt : Option FileName) {tm : Tm} {suffix : FileName}
    (h : Archived before open_wf bound s name a w) (hsuffix : fmt.getD (stamp tm) = suffix)
    (hlength : (old_name name suffix).length < 256)
    (hnodup : (old_name name suffix :: old_wf_name name suffix :: name :: wf_name name ::
      (a.names ++ w.names)).Nodup) :
    ∃ l' k' a' w', s.log.rotate_log s.kernel none fmt tm ⟨false, false⟩ = some (l', k') ∧
      Archived before open_wf bound { s with log := l', kernel := k' } name a' w' ∧
      a'.names = a.names ++ [old_name name suffix] ∧
      w'.names = w.names ++ if open_wf then [old_wf_name name suffix] else [] := by
  obtain ⟨l', k', hrotate, hserving, hindex, hflag⟩ := serving_rotate h.serving hsuffix hlength hnodup
  refine ⟨l', k', _, _, hrotate, ⟨hserving, hflag.trans h.wf_flag_eq, ?_, fun hon => ?_, ?_, ?_, ?_⟩,
    Archive.names_close .., ?_⟩
  · rw [Archive.bytes_close, h.bytes_eq]
  · rw [if_pos (h.wf_flag_eq.trans hon), Archive.bytes_close, h.wf_bytes_eq hon]
  · exact hindex ▸ h.limit_le
  · exact Archive.length_listed_close h.length_le h.limit_le
  · split
    · exact Archive.length_listed_close h.wf_length_le h.limit_le
    · exact h.wf_length_le
  · rw [h.wf_flag_eq]
    cases open_wf with
    | true => exact Archive.names_close ..
    | false => exact (List.append_nil _).symm

-- The call that gives a new logger its name.
def opening (filename : FileName) (flag open_wf : Bool) : Op :=
  .set_file_name filename flag open_wf ⟨false, false⟩

-- The names that are in use and those that are still to come.
def Distinct (name : FileName) (a w : Archive FileName) (coming : List FileName) : Prop :=
  (name :: wf_name name :: (a.names ++ w.names ++ coming)).Nodup

variable {coming : List FileName}

theorem Distinct.apart (h : Distinct name a w coming) :
    (name :: wf_name name :: (a.names ++ w.names)).Nodup :=
  h.sublist (.cons_cons _ (.cons_cons _ (List.sublist_append_left ..)))

-- A rotation takes names that nothing has.
theorem Distinct.now {suf : FileName} {sufs : List FileName}
    (h : Distinct name a w (sufs.flatMap (old_names name) ++ coming)) (hmem : suf ∈ sufs) :
    (old_names name suf ++ name :: wf_name name :: (a.names ++ w.names)).Nodup := by
  have hsub : (old_names name suf).Sublist (sufs.flatMap (old_names name)) := by
    rw [List.flatMap_def]
    exact List.sublist_flatten_of_mem (List.mem_map_of_mem hmem)
  have hnodup := h.sublist (.cons_cons _ (.cons_cons _ ((List.Sublist.refl _).append
    (hsub.trans (List.sublist_append_left _ coming)))))
  have hperm : (name :: wf_name name :: (a.names ++ w.names) ++ old_names name suf).Perm
      (old_names name suf ++ name :: wf_name name :: (a.names ++ w.names)) := List.perm_append_comm
  exact hperm.nodup hnodup

-- The names that an archive of the log and one of the wf log have got from a few suffixes.
structure Named (name : FileName) (open_wf : Bool) (sufs : List FileName)
    (a w a' w' : Archive FileName) : Prop where
  names : a'.names = a.names ++ sufs.map (old_name name)
  wf_names : w'.names = w.names ++ if open_wf then sufs.map (old_wf_name name) else []

theorem Named.of_eq {a' w' : Archive FileName} (ha : a'.names = a.names) (hw : w'.names = w.names) :
    Named name open_wf [] a w a' w' := by
  refine ⟨?_, ?_⟩
  · rw [ha]
    exact (List.append_nil _).symm
  · rw [hw]
    cases open_wf <;> exact (List.append_nil _).symm

theorem Named.trans {a₁ w₁ a₂ w₂ : Archive FileName} {sufs more : List FileName}
    (h : Named name open_wf sufs a w a₁ w₁) (hmore : Named name open_wf more a₁ w₁ a₂ w₂) :
    Named name open_wf (sufs ++ more) a w a₂ w₂ := by
  refine ⟨?_, ?_⟩
  · rw [hmore.names, h.names, List.map_append, List.append_assoc]
  · rw [hmore.wf_names, h.wf_names]
    cases open_wf with
    | true => simp
    | false => simp

theorem perm_old_names (name : FileName) (sufs : List FileName) :
    (sufs.flatMap (old_names name)).Perm
      (sufs.map (old_name name) ++ sufs.map (old_wf_name name)) := by
  have hperm := List.flatMap_append_perm sufs (fun suf => [old_name name suf])
    fun suf => [old_wf_name name suf]
  rw [← List.map_eq_flatMap, ← List.map_eq_flatMap] at hperm
  exact hperm.symm

theorem Distinct.named {a' w' : Archive FileName} {sufs : List FileName}
    (h : Distinct name a w (sufs.flatMap (old_names name) ++ coming))
    (hnamed : Named name open_wf sufs a w a' w') : Distinct name a' w' coming := by
  have hwf : w'.names.Sublist (w.names ++ sufs.map (old_wf_name name)) := by
    rw [hnamed.wf_names]
    cases open_wf with
    | true => exact List.Sublist.refl _
    | false =>
        rw [if_neg Bool.false_ne_true, List.append_nil]
        exact List.sublist_append_left ..
  have hsub : (name :: wf_name name :: (a'.names ++ w'.names ++ coming)).Sublist
      (name :: wf_name name :: (a.names ++ sufs.map (old_name name) ++
        (w.names ++ sufs.map (old_wf_name name)) ++ coming)) := by
    rw [hnamed.names]
    exact .cons_cons _ (.cons_cons _ (((List.Sublist.refl _).append hwf).append (List.Sublist.refl _)))
  refine List.Nodup.sublist hsub (List.Perm.nodup ?_ h)
  refine (List.Perm.cons _ (List.Perm.cons _ ?_))
  rw [List.perm_iff_count]
  intro n
  have hcount := (perm_old_names name sufs).count_eq n
  simp only [List.count_append] at hcount ⊢
  omega

theorem rotate_full_eq (s : Logging) (m : Message) :
    rotate_full s m = if full s then
        (s.log.rotate_log s.kernel none none m.rotate_tm m.rotate_faults).bind fun (l, k) =>
          some { s with log := l, kernel := k }
      else some s := by
  unfold rotate_full full
  by_cases hsize : s.log.maxFileSize = 0
  · rw [if_neg (not_not.mpr hsize)]
    simp [hsize]
  · rw [if_pos hsize]
    cases hoffset : s.kernel.size s.log.fd with
    | none => simp
    | some offset => by_cases hfull : s.log.maxFileSize ≤ offset <;> simp [hsize, hfull]

theorem archived_log_message (h : Archived before open_wf bound s name a w)
    (hline : (line_of m).isSome = true) (hfaults : m.rotate_faults = ⟨false, false⟩)
    (hlength : rotates s (.log_message m) = true →
      (old_name name (stamp m.rotate_tm)).length < 256)
    (hapart : (name :: wf_name name :: (a.names ++ w.names)).Nodup)
    (hnodup : rotates s (.log_message m) = true → (old_names name (stamp m.rotate_tm) ++
      name :: wf_name name :: (a.names ++ w.names)).Nodup) :
    ∃ s' a' w', log_message s m = some s' ∧ Archived before open_wf bound s' name a' w' ∧
      Named name open_wf (if rotates s (.log_message m) then [stamp m.rotate_tm] else []) a w a' w' := by
  obtain ⟨line, hline⟩ := Option.isSome_iff_exists.mp hline
  have hcheck : check_first s m = some s := by
    unfold check_first
    split
    · rw [check_file_of_serving h.serving]
      rfl
    · rfl
  obtain ⟨a₁, w₁, hwritten, ha₁, hw₁⟩ := archived_write_line (m := m) h hapart line
  have hrotates : rotates s (.log_message m) =
      (decide (m.level ≤ s.log.level) && full (write_line s m line)) := by
    rw [rotates, hcheck, hline]
    change (_ && some (full (write_line s m line)) == some true) = _
    cases full (write_line s m line) <;> rfl
  unfold log_message
  by_cases hlevel : s.log.level < m.level
  · rw [if_pos hlevel, hrotates, decide_eq_false (by omega), Bool.false_and,
      if_neg Bool.false_ne_true]
    exact ⟨s, a, w, rfl, h, .of_eq rfl rfl⟩
  · rw [hrotates, decide_eq_true (by omega), Bool.true_and] at hlength hnodup ⊢
    rw [if_neg hlevel, hcheck, hline]
    change ∃ s' a' w', rotate_full (write_line s m line) m = some s' ∧ _
    rw [rotate_full_eq]
    by_cases hfull : full (write_line s m line) = true
    · obtain ⟨l', k', a', w', hrotate, harchived, ha', hw'⟩ :=
        archived_rotate none hwritten rfl (hlength hfull) (by rw [ha₁, hw₁]; exact hnodup hfull)
      rw [if_pos hfull, if_pos hfull, hfaults, hrotate]
      refine ⟨_, a', w', rfl, harchived, ?_, ?_⟩
      · rw [ha', ha₁]
        rfl
      · rw [hw', hw₁]
        rfl
    · rw [if_neg hfull, if_neg hfull]
      exact ⟨_, a₁, w₁, rfl, hwritten, .of_eq ha₁ hw₁⟩

theorem Archived.settings (h : Archived before open_wf bound s name a w)
    (hserving : Serving l s.kernel name a w) (hflag : l.wf_flag = s.log.wf_flag)
    (hlimit : l.maxFileIndex ≤ bound) : Archived before open_wf bound { s with log := l } name a w :=
  ⟨hserving, hflag.trans h.wf_flag_eq, h.bytes_eq, h.wf_bytes_eq, hlimit, h.length_le,
    h.wf_length_le⟩

-- Every steady call keeps the two logs whole.
theorem archived_step {op : Op} (h : Archived before open_wf bound s name a w) (hsteady : steady op = true)
    (hlimit : limit op ≤ bound)
    (hlength : ∀ suf ∈ if rotates s op then (suffix op).toList else [],
      (old_name name suf).length < 256)
    (hapart : (name :: wf_name name :: (a.names ++ w.names)).Nodup)
    (hnodup : ∀ suf ∈ if rotates s op then (suffix op).toList else [],
      (old_names name suf ++ name :: wf_name name :: (a.names ++ w.names)).Nodup) :
    ∃ s' a' w', step s op = some s' ∧ Archived before open_wf bound s' name a' w' ∧
      Named name open_wf (if rotates s op then (suffix op).toList else []) a w a' w' := by
  cases op with
  | set_log_level level wf_level =>
      obtain ⟨v, wf_v, hset⟩ := set_log_level_eq s.log level wf_level
      have hstep : step s (.set_log_level level wf_level) =
          some { s with log := { s.log with level := v, wf_level := wf_v } } := by
        rw [step, hset]
      exact ⟨_, a, w, hstep,
        h.settings (h.serving.congr rfl rfl rfl rfl rfl rfl rfl) rfl h.limit_le, .of_eq rfl rfl⟩
  | set_check v =>
      exact ⟨_, a, w, rfl,
        h.settings (h.serving.congr rfl rfl rfl rfl rfl rfl rfl) rfl h.limit_le, .of_eq rfl rfl⟩
  | set_max_file_size v =>
      exact ⟨_, a, w, rfl,
        h.settings (h.serving.congr rfl rfl rfl rfl rfl rfl rfl) rfl h.limit_le, .of_eq rfl rfl⟩
  | set_max_file_index v =>
      exact ⟨_, a, w, rfl,
        h.settings (h.serving.congr rfl rfl rfl rfl rfl rfl rfl) rfl hlimit, .of_eq rfl rfl⟩
  | set_file_name filename flag open_wf faults => cases hsteady
  | check_file stat fault =>
      refine ⟨s, a, w, ?_, h, .of_eq rfl rfl⟩
      rw [step, check_file_of_serving h.serving]
      rfl
  | rotate_log filename fmt tm faults =>
      obtain ⟨hnone, hfaults⟩ := Bool.and_eq_true_iff.mp hsteady
      rw [beq_iff_eq] at hnone hfaults
      obtain ⟨l', k', a', w', hrotate, harchived, ha', hw'⟩ :=
        archived_rotate fmt h rfl (hlength _ List.mem_cons_self) (hnodup _ List.mem_cons_self)
      refine ⟨_, a', w', ?_, harchived, ha', hw'⟩
      rw [step, hnone, hfaults, hrotate]
      rfl
  | log_message m =>
      obtain ⟨hline, hfaults⟩ := Bool.and_eq_true_iff.mp hsteady
      rw [beq_iff_eq] at hfaults
      refine archived_log_message h hline hfaults (fun hrotates => hlength _ ?_) hapart
        (fun hrotates => hnodup _ ?_)
      · rw [if_pos hrotates]
        exact List.mem_cons_self
      · rw [if_pos hrotates]
        exact List.mem_cons_self

theorem archived_run {ops : List Op} (h : Archived before open_wf bound s name a w)
    (hsteady : ∀ op ∈ ops, steady op = true) (hlimit : ∀ op ∈ ops, limit op ≤ bound)
    (hlength : ∀ suf ∈ suffixes s ops, (old_name name suf).length < 256)
    (hnodup : Distinct name a w ((suffixes s ops).flatMap (old_names name))) :
    ∃ s' a' w', exec step s ops = some s' ∧ Archived before open_wf bound s' name a' w' ∧
      Named name open_wf (suffixes s ops) a w a' w' := by
  induction ops generalizing s a w with
  | nil => exact ⟨s, a, w, rfl, h, .of_eq rfl rfl⟩
  | cons op rest ih =>
      rw [List.forall_mem_cons] at hsteady hlimit
      rw [suffixes] at hlength hnodup ⊢
      rw [List.flatMap_append] at hnodup
      rw [List.forall_mem_append] at hlength
      obtain ⟨s₁, a₁, w₁, hstep, harchived, hnamed⟩ :=
        archived_step h hsteady.1 hlimit.1 hlength.1 hnodup.apart fun suf hmem => hnodup.now hmem
      have hrest := hnodup.named hnamed
      rw [hstep] at hlength hrest ⊢
      obtain ⟨s', a', w', hrun, hend, hmore⟩ := ih harchived hsteady.2 hlimit.2 hlength.2 hrest
      exact ⟨s', a', w', exec_cons_eq_some.mpr ⟨s₁, hstep, hrun⟩, hend, hnamed.trans hmore⟩

def named (filename : FileName) (flag open_wf : Bool) (fd : Int) : Logger :=
  { new with name := some (c_str filename), flag := flag, wf_flag := open_wf, fd := fd }

-- The first part of set_file_name, on a logger that has no name yet.
theorem name_new (hstd : Standard k) (filename : FileName) (flag open_wf : Bool) :
    ∃ k' fd file, new.set_file_name k filename flag open_wf ⟨false, false⟩ =
        (if open_wf then
          let (k, wf_fd) := k'.open_file (wf_name (c_str filename)) true false
          ({ named filename flag open_wf fd with wf_fd := wf_fd }, k)
        else (named filename flag open_wf fd, k')) ∧
      (if flag then 3 ≤ fd else fd = 2) ∧ Standard k' ∧ k'.dir (c_str filename) = some file ∧
      k'.file fd = some file ∧ k'.contents file = k.text (c_str filename) ∧
      Posix.Keeps [c_str filename] k k' := by
  obtain ⟨k₁, fd, file, hopen, hthree, -, hfile, hdir, hkeeps, hcontents⟩ :=
    open_log hstd (c_str filename)
  have hstd₁ : Standard k₁ := hstd.opened hfile
  have htwo : (2 : Int) ≠ fd := by omega
  unfold set_file_name
  dsimp only
  rw [hopen]
  dsimp only
  cases flag with
  | true => exact ⟨k₁, fd, file, rfl, hthree, hstd₁, hdir, by rw [hfile, if_pos rfl], hcontents, hkeeps⟩
  | false =>
      obtain ⟨l, k₂, hreopen, -, -, -, hstd₂, hdir₂, hcontents₂, hfile₂, -⟩ :=
        reopen_spec (l := new) hstd₁ rfl hthree (by rw [hfile, if_pos rfl]) htwo
      obtain ⟨rfl, rfl⟩ := Prod.mk.inj hreopen
      have htake : take { new with name := some (c_str filename), flag := false } k₁ fd
          new.name.isSome = ({ new with name := some (c_str filename), flag := false },
            ((new.redirect k₁ fd).close fd).1) := by
        change (_, if fd ≠ 2 then _ else _) = _
        rw [if_pos (Ne.symm htwo)]
        rfl
      refine ⟨_, 2, file, ?_, rfl, hstd₂, ?_, hfile₂, ?_, ?_⟩
      · dsimp only at htake
        rw [htake]
        rfl
      · rw [hdir₂, hdir]
      · rw [hcontents₂, hcontents]
      · exact (hkeeps.trans (Posix.keeps_of_eq hdir₂ hcontents₂)).mono (by simp)

theorem archived_new (bound : Nat) (hstd : Standard k) {filename : FileName} (flag open_wf : Bool)
    (hne : c_str filename ≠ wf_name (c_str filename)) :
    ∃ s a w, step ⟨new, k, [], []⟩ (.set_file_name filename flag open_wf ⟨false, false⟩) = some s ∧
      Archived k open_wf bound s (c_str filename) a w ∧ a.names = [] ∧ w.names = [] := by
  obtain ⟨k₁, fd, file, hset, hown, hstd₁, hdir, hopen, hcontents, hkeeps⟩ :=
    name_new hstd filename flag open_wf
  have hnone : ∀ k' : Posix FileName, Stores k' [] := fun k' v hv => absurd hv List.not_mem_nil
  have hmain : Journal k₁ (c_str filename) fd [] ⟨[], k.text (c_str filename)⟩ :=
    ⟨⟨file, hdir, hopen, hcontents⟩, hnone k₁, rfl, List.Pairwise.nil⟩
  rw [step, hset]
  cases open_wf with
  | false =>
      refine ⟨_, ⟨[], k.text (c_str filename)⟩, ⟨[], []⟩, rfl, ⟨⟨rfl, hstd₁, hown, hmain, ?_⟩, rfl,
        ?_, ?_, Nat.zero_le _, Nat.zero_le _, Nat.zero_le _⟩, rfl, rfl⟩
      · exact fun hon => absurd hon Bool.false_ne_true
      · exact (List.append_nil _).symm
      · exact fun hon => absurd hon Bool.false_ne_true
  | true =>
      obtain ⟨k₂, wf_fd, wf_file, hopen₂, hthree, hfree, hfile₂, hdir₂, hkeeps₂, hcontents₂⟩ :=
        open_log hstd₁ (wf_name (c_str filename))
      rw [if_pos rfl, hopen₂]
      dsimp only
      have hother : fd ≠ wf_fd := by
        intro heq
        rw [← heq, hopen] at hfree
        cases hfree
      refine ⟨_, ⟨[], k.text (c_str filename)⟩, ⟨[], k.text (wf_name (c_str filename))⟩, rfl,
        ⟨⟨rfl, ?_, hown, ?_, fun _ => ⟨hthree, ⟨wf_file, hdir₂, ?_, ?_⟩, hnone _, rfl,
        List.Pairwise.nil⟩⟩, rfl, ?_, fun _ => ?_, Nat.zero_le _, Nat.zero_le _, Nat.zero_le _⟩,
        rfl, rfl⟩
      · exact hstd₁.opened hfile₂
      · apply hmain.keeps hkeeps₂
        · intro n hn hmem
          rw [List.mem_singleton] at hmem
          rcases List.mem_cons.mp hn with hn | hn
          · exact hne (hn.symm.trans hmem)
          · exact absurd hn List.not_mem_nil
        · rw [hfile₂, if_neg hother]
      · change k₂.file wf_fd = some wf_file
        rw [hfile₂, if_pos rfl]
      · rw [hcontents₂, hkeeps.text_eq (by simpa using Ne.symm hne)]
      · exact (List.append_nil _).symm
      · exact (List.append_nil _).symm

theorem archived_opened (filename : FileName) (flag : Bool) {ops : List Op} (hstd : Standard k)
    (hsteady : ∀ op ∈ ops, steady op = true) (hlimit : ∀ op ∈ ops, limit op ≤ bound)
    (hlength : ∀ suf ∈ suffixes ⟨new, k, [], []⟩ (opening filename flag open_wf :: ops),
      (old_name (c_str filename) suf).length < 256)
    (hnodup : (c_str filename :: wf_name (c_str filename) ::
      (suffixes ⟨new, k, [], []⟩ (opening filename flag open_wf :: ops)).flatMap
        (old_names (c_str filename))).Nodup) :
    ∃ s a w, exec step ⟨new, k, [], []⟩ (opening filename flag open_wf :: ops) = some s ∧
      Archived k open_wf bound s (c_str filename) a w ∧
      Named (c_str filename) open_wf
        (suffixes ⟨new, k, [], []⟩ (opening filename flag open_wf :: ops)) ⟨[], []⟩ ⟨[], []⟩ a w := by
  have hne : c_str filename ≠ wf_name (c_str filename) := by
    intro heq
    rw [← heq] at hnodup
    exact (List.nodup_cons.mp hnodup).1 List.mem_cons_self
  obtain ⟨s₁, a₁, w₁, hstep, harchived, ha, hw⟩ :=
    archived_new bound hstd flag open_wf hne
  have hsuffixes : suffixes ⟨new, k, [], []⟩ (opening filename flag open_wf :: ops) =
      suffixes s₁ ops := by
    rw [suffixes, opening, hstep]
    rfl
  rw [hsuffixes] at hlength hnodup ⊢
  obtain ⟨s, a, w, hrun, hend, hnamed⟩ := archived_run harchived hsteady hlimit hlength (by
    rw [Distinct, ha, hw]
    exact hnodup)
  refine ⟨s, a, w, exec_cons_eq_some.mpr ⟨s₁, hstep, hrun⟩, hend, ?_, ?_⟩
  · rw [hnamed.names, ha]
    rfl
  · rw [hnamed.wf_names, hw]
    rfl

end

def hello (sec : Int) : Message :=
  ⟨0, ⟨[109, 46, 99], 7, [109], 1⟩, [104, 105, 10], ⟨2024, 2, 29, 23, 59, sec⟩, 5, 999, 2,
    false, false, ⟨2024, 2, 29, 23, 59, sec⟩, ⟨false, false⟩⟩

end IgLibs.Logger
