import IgLibs.Descriptors
import IgLibs.Logger
import IgLibs.Machine

namespace IgLibs.Logger

open CString Machine

-- A process with a logger. The rest of it opens and closes descriptors of its own, each kept
-- here with its file.
structure Process where
  logging : Logging
  others : List (Int × Nat)

inductive Call
  | logger (op : Op)
  | opens (name : FileName) (creat fault : Bool)
  | closes (fd : Int)

def call (p : Process) : Call → Option Process
  | .logger op => (step p.logging op).map fun s => { p with logging := s }
  | .opens name creat fault =>
      let (k, fd) := p.logging.kernel.open_file name creat fault
      some ⟨{ p.logging with kernel := k }, match k.file fd with
        | none => p.others
        | some file => (fd, file) :: p.others⟩
  | .closes fd =>
      if fd ∈ p.others.map Prod.fst then
        some ⟨{ p.logging with kernel := (p.logging.kernel.close fd).1 },
          p.others.filter fun other => other.1 ≠ fd⟩
      else none

-- What a logger holds open.
def held (l : Logger) : List Int := slot l.fd ++ if l.wf_flag then slot l.wf_fd else []

-- Which descriptors a logger has, when each set_file_name gets the same flag.
structure Settled (mode : Bool) (l : Logger) : Prop where
  unnamed : l.name = none → l.flag = false ∧ l.wf_flag = false
  flag_eq : l.name ≠ none → l.flag = mode
  fd : if l.flag then l.fd < 0 ∨ 3 ≤ l.fd else l.fd = 2
  wf_fd : l.wf_flag = true → l.wf_fd < 0 ∨ 3 ≤ l.wf_fd

section

variable {mode : Bool} {l l' : Logger} {k k' : Posix FileName} {others : List (Int × Nat)}
  {rest : List Int} {fd : Int} {s s' : Logging}

theorem slot_two : slot 2 = [] := rfl

theorem accounted_redirect (h : Accounted k others rest) (hfd : l.fd = 2) (fd : Int) :
    Accounted (l.redirect k fd) others rest := by
  unfold redirect
  rw [hfd, if_neg fun h => h rfl]
  exact (h.dup2 fd (by omega)).dup2 fd (by omega)

theorem accounted_reopen (hsettled : Settled mode l) (hfd : fd < 0 ∨ 3 ≤ fd)
    (h : Accounted k others (slot fd ++ (slot l.fd ++ rest))) :
    ∃ l' k', l.reopen k fd = (l', k') ∧ l' = { l with fd := l'.fd } ∧ Settled mode l' ∧
      Accounted k' others (slot l'.fd ++ rest) := by
  have hown := hsettled.fd
  unfold reopen
  rcases Bool.eq_false_or_eq_true l.flag with hflag | hflag
  · rw [hflag, if_pos rfl] at hown
    refine ⟨{ l with fd := fd }, (k.close l.fd).1, ?_, rfl, ⟨hsettled.unnamed, hsettled.flag_eq, ?_,
      hsettled.wf_fd⟩, ?_⟩
    · rw [if_neg (by rw [hflag]; decide), if_pos (by omega)]
    · rw [if_pos hflag]
      exact hfd
    · apply Accounted.close_slot _ hown
      apply h.perm
      rw [← List.append_assoc, ← List.append_assoc]
      exact List.perm_append_comm.append_right rest
  · rw [hflag, if_neg Bool.false_ne_true] at hown
    refine ⟨l, ((l.redirect k fd).close fd).1, if_pos (by rw [hflag]; rfl), rfl, hsettled, ?_⟩
    rw [hown, slot_two, List.nil_append] at h ⊢
    exact (accounted_redirect h hown fd).close_slot hfd

theorem Settled.lists (h : Settled mode l) (list wf_list : List FileName) :
    Settled mode { l with fileList := list, wf_file_list := wf_list } :=
  ⟨h.unnamed, h.flag_eq, h.fd, h.wf_fd⟩

theorem file_retire (limit : Nat) (list : List FileName) (k : Posix FileName) (old : FileName)
    (i : Int) : (retire limit list k old).2.file i = k.file i := by
  unfold retire
  split
  · split
    · cases list <;> rfl
    · rfl
  · rfl

-- The files are renamed and removed behind the descriptors.
theorem rename_logs_frame {filename suffix : FileName}
    (h : l.rename_logs k filename suffix = some (l', k')) :
    (∃ list wf_list, l' = { l with fileList := list, wf_file_list := wf_list }) ∧
      ∀ i, k'.file i = k.file i := by
  unfold rename_logs at h
  dsimp only at h
  split at h
  · cases h
  · obtain ⟨rfl, rfl⟩ := Prod.mk.inj (Option.some.inj h)
    refine ⟨⟨_, _, rfl⟩, fun i => ?_⟩
    rw [Posix.file_rename]
    split
    · rw [file_retire, Posix.file_rename, file_retire]
    · rw [Posix.file_rename, file_retire]

theorem file_put (k : Posix FileName) (fd : Int) (line : List UInt8) (writev : Nat) (i : Int) :
    (put k fd line writev).1.file i = k.file i := by
  unfold put
  split
  · rfl
  · exact Posix.file_append ..

-- A process that keeps its books on the descriptors of a logger.
structure InOrder (mode : Bool) (others : List (Int × Nat)) (l : Logger) (k : Posix FileName) : Prop where
  settled : Settled mode l
  accounted : Accounted k others (held l)

theorem InOrder.congr (h : InOrder mode others l k) (hname : l'.name = l.name) (hfd : l'.fd = l.fd)
    (hflag : l'.flag = l.flag) (hwf_flag : l'.wf_flag = l.wf_flag) (hwf_fd : l'.wf_fd = l.wf_fd)
    (hfile : ∀ i, k'.file i = k.file i) : InOrder mode others l' k' := by
  refine ⟨⟨?_, ?_, ?_, ?_⟩, ?_⟩
  · rw [hname, hflag, hwf_flag]
    exact h.settled.unnamed
  · rw [hname, hflag]
    exact h.settled.flag_eq
  · rw [hflag, hfd]
    exact h.settled.fd
  · rw [hwf_flag, hwf_fd]
    exact h.settled.wf_fd
  · rw [held, hfd, hwf_flag, hwf_fd]
    exact h.accounted.congr hfile

-- Another file for the log, as rotate_log and check_file open it.
theorem inOrder_reopen (h : InOrder mode others l k) (name : FileName) (creat fault : Bool) :
    ∃ l' k', (let (k, fd) := k.open_file name creat fault; l.reopen k fd) = (l', k') ∧
      l' = { l with fd := l'.fd } ∧ InOrder mode others l' k' := by
  obtain ⟨k₁, fd, hopen, hfd, haccounted⟩ := h.accounted.opens name creat fault
  obtain ⟨l', k', hreopen, hl', hsettled, hend⟩ := accounted_reopen h.settled hfd haccounted
  refine ⟨l', k', ?_, hl', hsettled, ?_⟩
  · rw [hopen]
    exact hreopen
  · rw [held, hl']
    exact hend

theorem inOrder_check_file {stat fault : Bool} (h : InOrder mode others l k)
    (hcheck : l.check_file k stat fault = some (l', k')) : InOrder mode others l' k' := by
  have hreopens : ∀ name, some (let (k, fd) := k.open_file name true fault; l.reopen k fd) =
      some (l', k') → InOrder mode others l' k' := by
    intro name heq
    obtain ⟨l₁, k₁, hreopen, -, hend⟩ := inOrder_reopen h name true fault
    rw [hreopen] at heq
    obtain ⟨rfl, rfl⟩ := Prod.mk.inj (Option.some.inj heq)
    exact hend
  have hsame : some (l, k) = some (l', k') → InOrder mode others l' k' := by
    intro heq
    obtain ⟨rfl, rfl⟩ := Prod.mk.inj (Option.some.inj heq)
    exact h
  unfold check_file at hcheck
  split at hcheck
  · exact hsame hcheck
  · split at hcheck
    · exact hsame hcheck
    · split at hcheck
      · exact hreopens _ hcheck
      · cases hcheck
      · split at hcheck
        · exact hreopens _ hcheck
        · exact hsame hcheck

theorem move_away_frame {filename : FileName} {fmt : Option FileName} {tm : Tm}
    (h : l.move_away k filename fmt tm = some (l', k')) :
    (∃ list wf_list, l' = { l with fileList := list, wf_file_list := wf_list }) ∧
      ∀ i, k'.file i = k.file i := by
  unfold move_away at h
  split at h
  · obtain ⟨rfl, rfl⟩ := Prod.mk.inj (Option.some.inj h)
    exact ⟨⟨_, _, rfl⟩, fun _ => rfl⟩
  · split at h
    · split at h
      · cases h
      · exact rename_logs_frame h
    · exact rename_logs_frame h

theorem inOrder_rotate_log {filename fmt : Option FileName} {tm : Tm} {faults : OpenAnswers}
    (h : InOrder mode others l k) (hrotate : l.rotate_log k filename fmt tm faults = some (l', k')) :
    InOrder mode others l' k' := by
  unfold rotate_log at hrotate
  split at hrotate
  · -- Without a name there is no file to go to, and dup2 and close get -1.
    split at hrotate
    · cases hrotate
    · obtain ⟨l₁, k₁, hreopen, hl₁, hsettled, haccounted⟩ :=
        accounted_reopen h.settled (.inl (by decide : (-1 : Int) < 0)) h.accounted
      rw [hreopen] at hrotate
      obtain ⟨rfl, rfl⟩ := Prod.mk.inj (Option.some.inj hrotate)
      refine ⟨hsettled, ?_⟩
      rw [held, hl₁]
      exact haccounted
  · rename_i name hname
    obtain ⟨⟨l₁, k₁⟩, hmove, hrotate⟩ := Option.bind_eq_some_iff.mp hrotate
    obtain ⟨⟨list, wf_list, rfl⟩, hfile⟩ := move_away_frame hmove
    have h₁ : InOrder mode others { l with fileList := list, wf_file_list := wf_list } k₁ :=
      h.congr rfl rfl rfl rfl rfl hfile
    obtain ⟨l₂, k₂, hreopen, hl₂, h₂⟩ := inOrder_reopen h₁ name true faults.main
    dsimp only at hrotate hreopen
    rw [hreopen] at hrotate
    dsimp only at hrotate
    split at hrotate
    · rename_i hflag
      have hwf := h₂.settled.wf_fd hflag
      have hheld := h₂.accounted
      rw [held, if_pos hflag] at hheld
      obtain ⟨k₃, fd, hopen, hfd, h₃⟩ := hheld.opens (wf_name name) true faults.wf
      rw [hopen] at hrotate
      dsimp only at hrotate
      rw [if_pos (by omega)] at hrotate
      obtain ⟨rfl, rfl⟩ := Prod.mk.inj (Option.some.inj hrotate)
      refine ⟨⟨h₂.settled.unnamed, h₂.settled.flag_eq, h₂.settled.fd, fun _ => hfd⟩, ?_⟩
      rw [held, if_pos hflag]
      apply Accounted.close_slot _ hwf
      apply h₃.perm
      rw [List.perm_iff_count]
      intro i
      simp only [List.count_append]
      omega
    · obtain ⟨rfl, rfl⟩ := Prod.mk.inj (Option.some.inj hrotate)
      exact h₂

theorem accounted_take {need_closing : Bool} (hown : if l.flag then
      if need_closing then l.fd < 0 ∨ 3 ≤ l.fd else l.fd = 2 else l.fd = 2)
    (hfd : fd < 0 ∨ 3 ≤ fd) (h : Accounted k others (slot fd ++ (slot l.fd ++ rest))) :
    ∃ l' k', l.take k fd need_closing = (l', k') ∧ l' = { l with fd := l'.fd } ∧
      (if l.flag then l'.fd < 0 ∨ 3 ≤ l'.fd else l'.fd = 2) ∧
      Accounted k' others (slot l'.fd ++ rest) := by
  unfold take
  rcases Bool.eq_false_or_eq_true l.flag with hflag | hflag
  · rw [if_pos hflag] at hown
    refine ⟨{ l with fd := fd }, if need_closing then (k.close l.fd).1 else k,
      if_neg (by rw [hflag]; decide), rfl, by rw [if_pos hflag]; exact hfd, ?_⟩
    cases need_closing with
    | false =>
        rw [if_neg Bool.false_ne_true] at hown ⊢
        rwa [hown, slot_two, List.nil_append] at h
    | true =>
        rw [if_pos rfl] at hown ⊢
        apply Accounted.close_slot _ hown
        apply h.perm
        rw [← List.append_assoc, ← List.append_assoc]
        exact List.perm_append_comm.append_right rest
  · rw [hflag, if_neg Bool.false_ne_true] at hown
    refine ⟨l, ((l.redirect k fd).close fd).1, ?_, rfl, ?_, ?_⟩
    · rw [if_pos (by rw [hflag]; rfl)]
      dsimp only
      rw [if_pos (by omega)]
    · rw [hflag, if_neg Bool.false_ne_true]
      exact hown
    · rw [hown, slot_two, List.nil_append] at h ⊢
      exact (accounted_redirect h hown fd).close_slot hfd

theorem inOrder_set_file_name {filename : FileName} {open_wf : Bool} {faults : OpenAnswers}
    (h : InOrder mode others l k) :
    ∃ l' k', l.set_file_name k filename mode open_wf faults = (l', k') ∧
      InOrder mode others l' k' := by
  obtain ⟨k₁, fd, hopen, hfd, hopened⟩ := h.accounted.opens (c_str filename) true faults.main
  have hown := h.settled.fd
  have hbefore : if mode then if l.name.isSome then l.fd < 0 ∨ 3 ≤ l.fd else l.fd = 2
      else l.fd = 2 := by
    by_cases hname : l.name = none
    · rw [(h.settled.unnamed hname).1, if_neg Bool.false_ne_true] at hown
      rw [hname]
      cases mode <;> exact hown
    · rw [h.settled.flag_eq hname] at hown
      rw [Option.isSome_iff_ne_none.mpr hname]
      cases mode <;> exact hown
  obtain ⟨l₂, k₂, htake, hl₂, hmode, h₂⟩ := accounted_take
    (l := { l with name := some (c_str filename), flag := mode }) hbefore hfd hopened
  -- The old wf file is closed, if there is one.
  obtain ⟨k₃, hk₃, h₃⟩ : ∃ k₃, (if l.wf_flag && l.name.isSome then (k₂.close l.wf_fd).1 else k₂) = k₃ ∧
      Accounted k₃ others (slot l₂.fd) := by
    refine ⟨_, rfl, ?_⟩
    by_cases hflag : l.wf_flag = true
    · have hname : l.name ≠ none := fun hno => by
        rw [(h.settled.unnamed hno).2] at hflag
        exact Bool.false_ne_true hflag
      rw [hflag, Option.isSome_iff_ne_none.mpr hname, Bool.and_true, if_pos rfl]
      rw [if_pos hflag] at h₂
      exact (h₂.perm List.perm_append_comm).close_slot (h.settled.wf_fd hflag)
    · rw [Bool.eq_false_iff.mpr hflag, Bool.false_and, if_neg Bool.false_ne_true]
      rwa [if_neg hflag, List.append_nil] at h₂
  have hwf₂ : l₂.wf_flag = l.wf_flag := by rw [hl₂]
  have hwf_fd₂ : l₂.wf_fd = l.wf_fd := by rw [hl₂]
  have hname₂ : l₂.name = some (c_str filename) := by rw [hl₂]
  have hflag₂ : l₂.flag = mode := by rw [hl₂]
  unfold set_file_name
  dsimp only
  rw [hopen]
  dsimp only
  rw [htake]
  dsimp only
  rw [hwf₂, hwf_fd₂, hk₃]
  cases open_wf with
  | false =>
      refine ⟨_, _, if_neg Bool.false_ne_true, ⟨?_, fun _ => hflag₂, ?_, fun hon => ?_⟩, ?_⟩
      · exact fun hno => by simp [hname₂] at hno
      · rw [hflag₂]
        exact hmode
      · exact absurd hon Bool.false_ne_true
      · rw [held, if_neg Bool.false_ne_true, List.append_nil]
        exact h₃
  | true =>
      obtain ⟨k₄, wf_fd, hopen₄, hwf_fd, h₄⟩ := h₃.opens (wf_name (c_str filename)) true faults.wf
      rw [hopen₄]
      refine ⟨_, _, if_pos rfl, ⟨?_, fun _ => hflag₂, ?_, fun _ => hwf_fd⟩, ?_⟩
      · exact fun hno => by simp [hname₂] at hno
      · rw [hflag₂]
        exact hmode
      · rw [held, if_pos rfl]
        exact h₄.perm List.perm_append_comm

theorem inOrder_log_message {m : Message} (h : InOrder mode others s.log s.kernel)
    (hlog : log_message s m = some s') : InOrder mode others s'.log s'.kernel := by
  unfold log_message at hlog
  split at hlog
  · exact Option.some.inj hlog ▸ h
  · obtain ⟨s₁, hcheck, hlog⟩ := Option.bind_eq_some_iff.mp hlog
    obtain ⟨line, -, hlog⟩ := Option.bind_eq_some_iff.mp hlog
    have h₁ : InOrder mode others s₁.log s₁.kernel := by
      unfold check_first at hcheck
      split at hcheck
      · obtain ⟨⟨l, k⟩, hfile, hsome⟩ := Option.bind_eq_some_iff.mp hcheck
        exact Option.some.inj hsome ▸ inOrder_check_file h hfile
      · exact Option.some.inj hcheck ▸ h
    have h₂ : InOrder mode others (write_line s₁ m line).log (write_line s₁ m line).kernel := by
      unfold write_line
      dsimp only
      split
      · apply h₁.congr rfl rfl rfl rfl rfl
        intro i
        rw [file_put, file_put]
      · apply h₁.congr rfl rfl rfl rfl rfl
        exact fun i => file_put ..
    unfold rotate_full at hlog
    split at hlog
    · split at hlog
      · exact Option.some.inj hlog ▸ h₂
      · split at hlog
        · obtain ⟨⟨l, k⟩, hrotate, hsome⟩ := Option.bind_eq_some_iff.mp hlog
          exact Option.some.inj hsome ▸ inOrder_rotate_log h₂ hrotate
        · exact Option.some.inj hlog ▸ h₂
    · exact Option.some.inj hlog ▸ h₂

theorem inOrder_step {op : Op} (h : InOrder mode others s.log s.kernel)
    (hmode : ∀ filename flag open_wf faults,
      op = .set_file_name filename flag open_wf faults → flag = mode)
    (hstep : step s op = some s') : InOrder mode others s'.log s'.kernel := by
  have hsame : ∀ i, s.kernel.file i = s.kernel.file i := fun _ => rfl
  cases op with
  | set_log_level level wf_level =>
      obtain rfl := Option.some.inj hstep
      obtain ⟨v, wf_v, hset⟩ := set_log_level_eq s.log level wf_level
      dsimp only
      rw [hset]
      exact h.congr rfl rfl rfl rfl rfl hsame
  | set_check v =>
      obtain rfl := Option.some.inj hstep
      exact h.congr rfl rfl rfl rfl rfl hsame
  | set_max_file_size v =>
      obtain rfl := Option.some.inj hstep
      exact h.congr rfl rfl rfl rfl rfl hsame
  | set_max_file_index v =>
      obtain rfl := Option.some.inj hstep
      exact h.congr rfl rfl rfl rfl rfl hsame
  | set_file_name filename flag open_wf faults =>
      obtain rfl := hmode _ _ _ _ rfl
      obtain ⟨l', k', hset, hend⟩ := inOrder_set_file_name h
      rw [step, hset] at hstep
      exact Option.some.inj hstep ▸ hend
  | check_file stat fault =>
      obtain ⟨⟨l', k'⟩, hcheck, hsome⟩ := Option.bind_eq_some_iff.mp hstep
      exact Option.some.inj hsome ▸ inOrder_check_file h hcheck
  | rotate_log filename fmt tm faults =>
      obtain ⟨⟨l', k'⟩, hrotate, hsome⟩ := Option.bind_eq_some_iff.mp hstep
      exact Option.some.inj hsome ▸ inOrder_rotate_log h hrotate
  | log_message m => exact inOrder_log_message h hstep

theorem inOrder_call {p p' : Process} {c : Call}
    (h : InOrder mode p.others p.logging.log p.logging.kernel)
    (hmode : ∀ filename flag open_wf faults,
      c = .logger (.set_file_name filename flag open_wf faults) → flag = mode)
    (hcall : call p c = some p') : InOrder mode p'.others p'.logging.log p'.logging.kernel := by
  cases c with
  | logger op =>
      obtain ⟨s, hstep, rfl⟩ := Option.map_eq_some_iff.mp hcall
      refine inOrder_step h (fun filename flag open_wf faults hop => ?_) hstep
      exact hmode filename flag open_wf faults (congrArg _ hop)
  | opens name creat fault =>
      obtain ⟨k', fd, hopen, hfd, haccounted⟩ := h.accounted.opens name creat fault
      rw [call, hopen] at hcall
      obtain rfl := Option.some.inj hcall
      refine ⟨h.settled, ?_⟩
      dsimp only
      rw [slot] at haccounted
      rcases hfd with hneg | hthree
      · rw [if_neg (by omega), List.nil_append] at haccounted
        rw [Posix.file_of_neg hneg]
        exact haccounted
      · rw [if_pos hthree] at haccounted
        have hopened : k'.file fd ≠ none :=
          (haccounted.open_iff fd hthree).mpr (.inr List.mem_cons_self)
        obtain ⟨file, hfile⟩ := Option.ne_none_iff_exists'.mp hopened
        rw [hfile]
        exact haccounted.hand_over hfile
  | closes fd =>
      unfold call at hcall
      dsimp only at hcall
      split at hcall
      · rename_i hmem
        obtain rfl := Option.some.inj hcall
        exact ⟨h.settled, h.accounted.close_other hmem⟩
      · cases hcall

end

-- What the destructor leaves: the descriptors of others and, unless the log was stderr, the
-- three standard ones.
theorem accounted_destroy {mode : Bool} {others : List (Int × Nat)} {l : Logger} {k : Posix FileName}
    (h : InOrder mode others l k) :
    (∀ fd, 3 ≤ fd → ((destroy l k).2.file fd ≠ none ↔ fd ∈ others.map Prod.fst)) ∧
      ((destroy l k).2.file 2 = none ↔ mode = false ∧ l.name ≠ none) := by
  have hown := h.settled.fd
  have hheld := h.accounted
  rw [held] at hheld
  have hempty : ∀ {k' : Posix FileName}, Accounted k' others [] →
      (∀ fd, 3 ≤ fd → (k'.file fd ≠ none ↔ fd ∈ others.map Prod.fst)) ∧ k'.file 2 ≠ none := by
    intro k' h'
    refine ⟨fun fd hfd => ?_, h'.standard 2 (by omega)⟩
    rw [h'.open_iff fd hfd]
    exact or_iff_left List.not_mem_nil
  -- The wf log can be closed first.
  have hwf : ∀ {k' : Posix FileName}, Accounted k' others (if l.wf_flag then slot l.wf_fd else []) →
      Accounted (if l.wf_flag then (k'.close l.wf_fd).1 else k') others [] := by
    intro k' h'
    by_cases hflag : l.wf_flag = true
    · rw [if_pos hflag] at h' ⊢
      exact Accounted.close_slot (by rwa [List.append_nil]) (h.settled.wf_fd hflag)
    · rwa [if_neg hflag] at h' ⊢
  by_cases hname : l.name = none
  · obtain ⟨hflag, hwf_flag⟩ := h.settled.unnamed hname
    rw [hflag, if_neg Bool.false_ne_true] at hown
    rw [hown, hwf_flag, slot_two] at hheld
    obtain ⟨hothers, htwo⟩ := hempty hheld
    have hsame : destroy l k = (l, k) := by rw [destroy, hname]; rfl
    rw [hsame]
    exact ⟨hothers, iff_of_false htwo fun hno => hno.2 hname⟩
  · have hdestroy : (destroy l k).2 =
        if l.wf_flag then ((k.close l.fd).1.close l.wf_fd).1 else (k.close l.fd).1 := by
      unfold destroy
      rw [if_pos (Option.isSome_iff_ne_none.mpr hname)]
    rw [hdestroy]
    rw [h.settled.flag_eq hname] at hown
    cases mode with
    | true =>
        rw [if_pos rfl] at hown
        obtain ⟨hothers, htwo⟩ := hempty (hwf (hheld.close_slot hown))
        exact ⟨hothers, iff_of_false htwo fun hno => Bool.noConfusion hno.1⟩
    | false =>
        rw [if_neg Bool.false_ne_true] at hown
        rw [hown, slot_two, List.nil_append] at hheld
        obtain ⟨hothers, -⟩ := hempty (hwf hheld)
        rw [hown]
        refine ⟨fun fd hfd => ?_, iff_of_true ?_ ⟨rfl, hname⟩⟩
        · rw [← hothers fd hfd]
          split
          · rw [Posix.file_close, Posix.file_close, Posix.file_close, if_neg (by omega : ¬fd = 2)]
          · rw [Posix.file_close, if_neg (by omega : ¬fd = 2)]
        · split <;> simp only [Posix.file_close, if_true, ite_self]

-- In a process whose set_file_names agree on their flag, whatever calls come and whichever opens
-- fail, each descriptor of others stays open on its file, stdin, stdout and stderr stay open, and
-- behind them the logger has nothing open but its one or two files.
theorem descriptors_of_run {mode : Bool} {k : Posix FileName} {others : List (Int × Nat)}
    {calls : List Call} {p : Process} (hstart : Accounted k others [])
    (hmode : ∀ filename flag open_wf faults,
      .logger (.set_file_name filename flag open_wf faults) ∈ calls → flag = mode)
    (hrun : exec call ⟨⟨new, k, [], []⟩, others⟩ calls = some p) :
    Accounted p.logging.kernel p.others (held p.logging.log) ∧
      (∀ fd, 3 ≤ fd → ((destroy p.logging.log p.logging.kernel).2.file fd ≠ none ↔
        fd ∈ p.others.map Prod.fst)) ∧
      ((destroy p.logging.log p.logging.kernel).2.file 2 = none ↔
        mode = false ∧ p.logging.log.name ≠ none) := by
  have hnew : InOrder mode others new k :=
    ⟨⟨fun _ => ⟨rfl, rfl⟩, fun hno => absurd rfl hno, rfl, fun hno => absurd hno Bool.false_ne_true⟩,
      hstart⟩
  have hend : InOrder mode p.others p.logging.log p.logging.kernel := by
    refine exec_invariant_of_meets
      (fun p => InOrder mode p.others p.logging.log p.logging.kernel)
      (fun p c p' h hok hcall => inOrder_call h hok hcall) hnew (meets_of_forall ?_ _) hrun
    rintro c hc _ filename flag open_wf faults rfl
    exact hmode filename flag open_wf faults hc
  exact ⟨hend.accounted, accounted_destroy hend⟩

def console_calls : List Call :=
  [.logger (.set_file_name [97] true true ⟨false, false⟩), .opens [98] true false,
    .logger (.rotate_log none none ⟨2024, 2, 29, 23, 59, 59⟩ ⟨true, false⟩),
    .logger (.set_file_name [99] true false ⟨false, false⟩)]

def console_end : Process :=
  (exec call ⟨⟨new, console, [], []⟩, []⟩ console_calls).get (by decide)

theorem descriptors_of_console :
    Accounted console_end.logging.kernel console_end.others (held console_end.logging.log) ∧
      (∀ fd, 3 ≤ fd →
        ((destroy console_end.logging.log console_end.logging.kernel).2.file fd ≠ none ↔
          fd ∈ console_end.others.map Prod.fst)) ∧
      ((destroy console_end.logging.log console_end.logging.kernel).2.file 2 = none ↔
        true = false ∧ console_end.logging.log.name ≠ none) :=
  descriptors_of_run Accounted.of_console
    (by
      intro filename flag open_wf faults hmem
      simp only [console_calls, List.mem_cons, Call.logger.injEq, Op.set_file_name.injEq, reduceCtorEq,
        List.not_mem_nil, or_false, false_or] at hmem
      rcases hmem with ⟨-, rfl, -⟩ | ⟨-, rfl, -⟩ <;> rfl)
    (Option.some_get _).symm

end IgLibs.Logger
