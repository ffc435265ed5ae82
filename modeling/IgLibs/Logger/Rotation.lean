import IgLibs.Logger.Journal

namespace IgLibs.Logger

open Printf

-- Which descriptor the log has: stderr, or one of its own.
def OwnDescriptor (l : Logger) : Prop := if l.flag then 3 ≤ l.fd else l.fd = 2

-- A logger with a name writes to the files that have its names.
structure Serving (l : Logger) (k : Posix FileName) (name : FileName) (a w : Archive FileName) :
    Prop where
  name_eq : l.name = some name
  standard : Standard k
  own : OwnDescriptor l
  main : Journal k name l.fd l.fileList a
  wf : l.wf_flag = true → 3 ≤ l.wf_fd ∧ Journal k (wf_name name) l.wf_fd l.wf_file_list w

section

variable {l l' : Logger} {k k' : Posix FileName} {name : FileName} {fd : Int} {file : Nat}
  {a w : Archive FileName}

-- dup2 over stdout and stderr leaves them open.
theorem standard_redirect (hstd : Standard k) (hfd : l.fd = 2) (hopen : k.file fd = some file)
    (hthree : 3 ≤ fd) : Standard (l.redirect k fd) ∧
      ∀ i, (l.redirect k fd).file i = if i = 1 ∨ i = 2 then some file else k.file i := by
  have hfile : ∀ i, (l.redirect k fd).file i = if i = 1 ∨ i = 2 then some file else k.file i := by
    intro i
    have hne : fd ≠ 2 := by omega
    rw [redirect, hfd, if_neg (fun h => h rfl), Posix.file_dup2, Posix.file_dup2, Posix.file_dup2]
    simp only [hopen, ne_eq, reduceCtorEq, not_false_eq_true, true_and, hne, and_false, if_false]
    have hone : (0 : Int) ≤ 1 := by omega
    have htwo : (0 : Int) ≤ 2 := by omega
    simp only [hone, htwo, true_and]
    split_ifs <;> first | rfl | omega
  refine ⟨fun i hi => ?_, hfile⟩
  rw [hfile]
  split
  · exact Option.some_ne_none _
  · exact hstd i hi

theorem reopen_spec (hstd : Standard k) (hown : OwnDescriptor l) (hthree : 3 ≤ fd)
    (hopen : k.file fd = some file) (hne : l.fd ≠ fd) :
    ∃ l' k', l.reopen k fd = (l', k') ∧ l' = { l with fd := l'.fd } ∧
      (l'.fd = l.fd ∨ l'.fd = fd) ∧ OwnDescriptor l' ∧
      Standard k' ∧ k'.dir = k.dir ∧ k'.contents = k.contents ∧ k'.file l'.fd = some file ∧
      ∀ i, 3 ≤ i → i ≠ l.fd → i ≠ fd → k'.file i = k.file i := by
  unfold OwnDescriptor at hown
  unfold reopen
  rcases Bool.eq_false_or_eq_true l.flag with hflag | hflag
  · rw [if_pos hflag] at hown
    have hnottwo : l.fd ≠ 2 := by omega
    refine ⟨{ l with fd := fd }, (k.close l.fd).1, ?_, rfl, .inr rfl, ?_, ?_, Posix.dir_close ..,
      Posix.contents_close .., ?_, ?_⟩
    · rw [if_neg (by rw [hflag]; decide), if_pos hnottwo]
    · rw [OwnDescriptor, if_pos hflag]
      exact hthree
    · apply hstd.congr
      intro i hi hkept
      rw [Posix.file_close, if_neg (by omega)]
      exact hkept
    · rw [Posix.file_close, if_neg (Ne.symm hne), hopen]
    · intro i _ hi _
      rw [Posix.file_close, if_neg hi]
  · rw [hflag, if_neg Bool.false_ne_true] at hown
    obtain ⟨hstd', hfile⟩ := standard_redirect hstd hown hopen hthree
    refine ⟨l, ((l.redirect k fd).close fd).1, if_pos (by rw [hflag]; rfl), rfl, .inl rfl, ?_, ?_,
      ?_, ?_, ?_, ?_⟩
    · rw [OwnDescriptor, hflag, if_neg Bool.false_ne_true, hown]
    · apply hstd'.congr
      intro i hi hkept
      rw [Posix.file_close, if_neg (by omega)]
      exact hkept
    · rw [Posix.dir_close, redirect]
      split <;> simp only [Posix.dir_dup2]
    · rw [Posix.contents_close, redirect]
      split <;> simp only [Posix.contents_dup2]
    · rw [Posix.file_close, if_neg hne, hfile, hown, if_pos (.inr rfl)]
    · intro i hi _ hother
      rw [Posix.file_close, if_neg hother, hfile, if_neg (by omega)]

theorem rename_logs_spec {suffix : FileName} (h : Serving l k name a w)
    (hlength : (old_name name suffix).length < 256)
    (hnodup : (old_name name suffix :: old_wf_name name suffix :: name :: wf_name name ::
      (a.names ++ w.names)).Nodup) :
    ∃ list wf_list k', l.rename_logs k name suffix =
        some ({ l with fileList := list, wf_file_list := wf_list }, k') ∧
      (∀ i, k'.file i = k.file i) ∧ k'.dir name = none ∧
      Stores k' (a.close l.maxFileIndex (old_name name suffix)).past ∧
      list = Archive.listed (a.close l.maxFileIndex (old_name name suffix)).past ∧
      (l.wf_flag = true → k'.dir (wf_name name) = none ∧
        Stores k' (w.close l.maxFileIndex (old_wf_name name suffix)).past ∧
        wf_list = Archive.listed (w.close l.maxFileIndex (old_wf_name name suffix)).past) := by
  unfold rename_logs
  dsimp only
  rw [if_neg (Nat.not_le.mpr hlength)]
  generalize old_name name suffix = old at hnodup
  generalize old_wf_name name suffix = old_wf at hnodup
  simp only [List.nodup_cons, List.mem_cons, List.mem_append, not_or, List.nodup_append] at hnodup
  obtain ⟨⟨hold_wf, hold_name, hold_wfn, hold_a, hold_w⟩, ⟨hwf_name, hwf_wfn, hwf_a, hwf_w⟩,
    ⟨hname_wfn, hname_a, hname_w⟩, ⟨hwfn_a, hwfn_w⟩, ha, hw, hdisjoint⟩ := hnodup
  have hmain : (old :: name :: a.names).Nodup := by
    simp only [List.nodup_cons, List.mem_cons, not_or]
    exact ⟨⟨hold_name, hold_a⟩, hname_a, ha⟩
  obtain ⟨list, k₁, hretire, hlist, hstores, hgone, hkeeps, hfile⟩ :=
    close_journal h.main l.maxFileIndex hmain
  rw [hretire]
  dsimp only
  -- Whatever happens to the wf log, the names of the log are not touched.
  have hframe : ∀ {k₂ : Posix FileName} {names : List FileName},
      Posix.Keeps names (k₁.rename name old) k₂ → names ⊆ old_wf :: wf_name name :: w.names →
      k₂.dir name = none ∧ Stores k₂ (a.close l.maxFileIndex old).past := by
    intro k₂ names hk₂ hsub
    have hapart : ∀ n ∈ old :: name :: a.names, n ∉ names := by
      intro n hn hmem
      have hin := hsub hmem
      simp only [List.mem_cons] at hn hin
      rcases hn with rfl | rfl | hn
      · rcases hin with hin | hin | hin
        · exact hold_wf hin
        · exact hold_wfn hin
        · exact hold_w hin
      · rcases hin with hin | hin | hin
        · exact hwf_name hin.symm
        · exact hname_wfn hin
        · exact hname_w hin
      · rcases hin with rfl | rfl | hin
        · exact hwf_a hn
        · exact hwfn_a hn
        · exact hdisjoint n hn n hin rfl
    refine ⟨(hk₂ name (hapart name (by simp))).1.trans hgone, ?_⟩
    apply stores_of_keeps hstores hk₂
    intro n hn
    have hnames := Archive.names_close a l.maxFileIndex old
    rw [Archive.names] at hnames
    rw [hnames, List.mem_append, List.mem_singleton] at hn
    rcases hn with hn | rfl
    · exact hapart n (by simp [hn])
    · exact hapart n (by simp)
  by_cases hflag : l.wf_flag = true
  · have hwf : (old_wf :: wf_name name :: w.names).Nodup := by
      simp only [List.nodup_cons, List.mem_cons, not_or]
      exact ⟨⟨hwf_wfn, hwf_w⟩, hwfn_w, hw⟩
    have hjournal := (h.wf hflag).2.keeps hkeeps (by
      intro n hn hmem
      simp only [List.mem_cons] at hn hmem
      rcases hn with rfl | hn
      · rcases hmem with hmem | hmem | hmem
        · exact hold_wfn hmem.symm
        · exact hname_wfn hmem.symm
        · exact hwfn_a hmem
      · rcases hmem with rfl | rfl | hmem
        · exact hold_w hn
        · exact hname_w hn
        · exact hdisjoint n hmem n hn rfl) (hfile _)
    obtain ⟨wf_list, k₂, hretire₂, hlist₂, hstores₂, hgone₂, hkeeps₂, hfile₂⟩ :=
      close_journal hjournal l.maxFileIndex hwf
    rw [if_pos hflag, hretire₂]
    obtain ⟨hgone', hstores'⟩ := hframe hkeeps₂ (List.Subset.refl _)
    exact ⟨list, wf_list, _, rfl, fun i => (hfile₂ i).trans (hfile i), hgone', hstores', hlist,
      fun _ => ⟨hgone₂, hstores₂, hlist₂⟩⟩
  · rw [if_neg hflag]
    obtain ⟨hgone', hstores'⟩ := hframe (Posix.keeps_rename _ (wf_name name) old_wf) (by
      intro n hn
      rcases List.mem_pair.mp hn with rfl | rfl <;> simp)
    refine ⟨list, _, _, rfl, fun i => ?_, hgone', hstores', hlist, fun hno => absurd hno hflag⟩
    rw [Posix.file_rename, hfile]

theorem rotate_log_eq {fmt : Option FileName} {tm : Tm} {suffix : FileName} (hname : l.name = some name)
    (hthere : k.dir name ≠ none) (hsuffix : fmt.getD (stamp tm) = suffix)
    (hlength : (old_name name suffix).length < 256) (faults : OpenAnswers) :
    l.rotate_log k none fmt tm faults = (l.rename_logs k name suffix).bind fun (l, k) =>
      let (k, fd) := k.open_file name true faults.main
      let (l, k) := l.reopen k fd
      if l.wf_flag then
        let (k, fd) := k.open_file (wf_name name) true faults.wf
        let k := if l.wf_fd ≠ 2 then (k.close l.wf_fd).1 else k
        some ({ l with wf_fd := fd }, k)
      else some (l, k) := by
  have hfits : suffix.length < 256 := by
    rw [old_name, List.length_append, List.length_cons] at hlength
    omega
  have hmove : l.move_away k name fmt tm = l.rename_logs k name suffix := by
    unfold move_away
    rw [if_neg hthere]
    cases fmt with
    | none =>
        obtain rfl : stamp tm = suffix := hsuffix
        rfl
    | some tmptime =>
        obtain rfl : tmptime = suffix := hsuffix
        exact if_neg (Nat.not_le.mpr hfits)
  unfold rotate_log
  rw [hname]
  dsimp only
  rw [hmove]
  rfl

-- A rotation closes the volumes of both logs and goes on with new ones.
theorem serving_rotate {fmt : Option FileName} {tm : Tm} {suffix : FileName}
    (h : Serving l k name a w) (hsuffix : fmt.getD (stamp tm) = suffix)
    (hlength : (old_name name suffix).length < 256)
    (hnodup : (old_name name suffix :: old_wf_name name suffix :: name :: wf_name name ::
      (a.names ++ w.names)).Nodup) :
    ∃ l' k', l.rotate_log k none fmt tm ⟨false, false⟩ = some (l', k') ∧
      Serving l' k' name (a.close l.maxFileIndex (old_name name suffix))
        (if l.wf_flag then w.close l.maxFileIndex (old_wf_name name suffix) else w) ∧
      l'.maxFileIndex = l.maxFileIndex ∧ l'.wf_flag = l.wf_flag := by
  have hthere : k.dir name ≠ none := by
    obtain ⟨file, hfile, -⟩ := h.main.current
    rw [hfile]
    exact Option.some_ne_none _
  rw [rotate_log_eq h.name_eq hthere hsuffix hlength]
  obtain ⟨list, wf_list, k₁, hrename, hfile₁, hgone, hstores, hlist, hwf⟩ :=
    rename_logs_spec h hlength hnodup
  have hstd₁ : Standard k₁ := h.standard.congr fun i _ hi => by rwa [hfile₁]
  obtain ⟨k₂, fd, file, hopen, hthree, hfree, hfile₂, hdir₂, hkeeps₂, hcontents₂⟩ :=
    open_log hstd₁ name
  have hown₁ : OwnDescriptor { l with fileList := list, wf_file_list := wf_list } := h.own
  have hstd₂ : Standard k₂ := hstd₁.opened hfile₂
  have hlfd : l.fd ≠ fd := by
    rintro rfl
    obtain ⟨old, -, hold, -⟩ := h.main.current
    rw [hfile₁, hold] at hfree
    cases hfree
  obtain ⟨l₃, k₃, hreopen, hl₃, hfd₃, hown₃, hstd₃, hdir₃, hcontents₃, hfile₃, hothers₃⟩ :=
    reopen_spec hstd₂ hown₁ hthree (by rw [hfile₂, if_pos rfl]) hlfd
  have hnames := Archive.names_close a l.maxFileIndex (old_name name suffix)
  simp only [List.nodup_cons, List.mem_cons, List.mem_append, not_or, List.nodup_append] at hnodup
  obtain ⟨⟨hold_wf, hold_name, hold_wfn, hold_a, hold_w⟩, ⟨hwf_name, hwf_wfn, hwf_a, hwf_w⟩,
    ⟨hname_wfn, hname_a, hname_w⟩, ⟨hwfn_a, hwfn_w⟩, ha, hw, hdisjoint⟩ := hnodup
  have hkeeps₃ : Posix.Keeps [name] k₁ k₃ :=
    (hkeeps₂.trans (Posix.keeps_of_eq hdir₃ hcontents₃)).mono (by simp)
  -- The log goes on with an empty file.
  have hmain : Journal k₃ name l₃.fd list (a.close l.maxFileIndex (old_name name suffix)) := by
    refine ⟨⟨file, ?_, hfile₃, ?_⟩, ?_, hlist, Archive.ordered_close h.main.ordered⟩
    · rw [hdir₃, hdir₂]
    · rw [hcontents₃, hcontents₂, Posix.text_of_none hgone]
      rfl
    · apply stores_of_keeps hstores hkeeps₃
      intro n hn hmem
      rw [List.mem_singleton] at hmem
      change n ∈ Archive.names _ at hn
      rw [hnames, hmem, List.mem_append, List.mem_singleton] at hn
      rcases hn with hn | hn
      · exact hname_a hn
      · exact hold_name hn.symm
  rw [hrename, Option.bind_some]
  dsimp only
  rw [hopen]
  dsimp only
  rw [hreopen]
  dsimp only
  have hflag₃ : l₃.wf_flag = l.wf_flag := by rw [hl₃]
  have hindex₃ : l₃.maxFileIndex = l.maxFileIndex := by rw [hl₃]
  have hlist₃ : l₃.fileList = list := by rw [hl₃]
  have hwf_list₃ : l₃.wf_file_list = wf_list := by rw [hl₃]
  have hwf_fd₃ : l₃.wf_fd = l.wf_fd := by rw [hl₃]
  have hname₃ : l₃.name = some name := by rw [hl₃, ← h.name_eq]
  by_cases hflag : l.wf_flag = true
  · obtain ⟨hwf_gone, hwf_stores, hwf_list⟩ := hwf hflag
    obtain ⟨hwf_three, hwf_journal⟩ := h.wf hflag
    obtain ⟨k₄, wf_fd, wf_file, hopen₄, hthree₄, hfree₄, hfile₄, hdir₄, hkeeps₄, hcontents₄⟩ :=
      open_log hstd₃ (wf_name name)
    obtain ⟨main_file, hmain_name, hmain_open, -⟩ := h.main.current
    obtain ⟨old_file, hold_dir, hold_open, -⟩ := hwf_journal.current
    have hwf_fd : l.wf_fd ≠ l.fd := by
      intro heq
      rw [heq, hmain_open] at hold_open
      obtain rfl := Option.some.inj hold_open
      exact hname_wfn (k.no_links _ _ _ hmain_name hold_dir)
    have hwf_fd' : l.wf_fd ≠ fd := by
      intro heq
      rw [← heq, hfile₁, hold_open] at hfree
      cases hfree
    have hnew : l₃.fd ≠ wf_fd := by
      intro heq
      rw [← heq, hfile₃] at hfree₄
      cases hfree₄
    have hclosed : l₃.fd ≠ l.wf_fd := by
      rcases hfd₃ with hfd₃ | hfd₃ <;> rw [hfd₃]
      · exact Ne.symm hwf_fd
      · exact Ne.symm hwf_fd'
    have hfresh : wf_fd ≠ l.wf_fd := by
      intro heq
      rw [heq, hothers₃ _ hwf_three hwf_fd hwf_fd', hfile₂, if_neg hwf_fd', hfile₁,
        hold_open] at hfree₄
      cases hfree₄
    have hkeeps₅ : Posix.Keeps [wf_name name] k₃ (k₄.close l.wf_fd).1 :=
      (hkeeps₄.trans (Posix.keeps_of_eq (Posix.dir_close ..) (Posix.contents_close ..))).mono
        (by simp)
    rw [if_pos (by rw [hflag₃]; exact hflag), if_pos hflag, hopen₄]
    dsimp only
    rw [hwf_fd₃, if_pos (by omega)]
    refine ⟨{ l₃ with wf_fd := wf_fd }, (k₄.close l.wf_fd).1, rfl,
      ⟨hname₃, ?_, hown₃, ?_, fun _ => ⟨hthree₄, ?_⟩⟩, hindex₃, hflag₃⟩
    · apply (hstd₃.opened hfile₄).congr
      intro i _ hi
      rw [Posix.file_close, if_neg (by omega)]
      exact hi
    · change Journal _ name l₃.fd l₃.fileList _
      rw [hlist₃]
      apply hmain.keeps hkeeps₅
      · intro n hn hmem
        rw [List.mem_singleton] at hmem
        rw [hnames, hmem, List.mem_cons, List.mem_append, List.mem_singleton] at hn
        rcases hn with hn | hn | hn
        · exact hname_wfn hn.symm
        · exact hwfn_a hn
        · exact hold_wfn hn.symm
      · rw [Posix.file_close, if_neg hclosed, hfile₄, if_neg hnew]
    · change Journal _ (wf_name name) wf_fd l₃.wf_file_list _
      rw [hwf_list₃]
      have hwf_names := Archive.names_close w l.maxFileIndex (old_wf_name name suffix)
      refine ⟨⟨wf_file, ?_, ?_, ?_⟩, ?_, hwf_list, Archive.ordered_close hwf_journal.ordered⟩
      · rw [Posix.dir_close, hdir₄]
      · rw [Posix.file_close, if_neg hfresh, hfile₄, if_pos rfl]
      · rw [Posix.contents_close, hcontents₄, hkeeps₃.text_eq (by simpa using Ne.symm hname_wfn),
          Posix.text_of_none hwf_gone]
        rfl
      · apply stores_of_keeps hwf_stores (hkeeps₃.trans hkeeps₅)
        intro n hn hmem
        change n ∈ Archive.names _ at hn
        rw [hwf_names, List.mem_append, List.mem_singleton] at hn
        rcases List.mem_pair.mp hmem with rfl | rfl
        · rcases hn with hn | hn
          · exact hname_w hn
          · exact hwf_name hn.symm
        · rcases hn with hn | hn
          · exact hwfn_w hn
          · exact hwf_wfn hn.symm
  · rw [if_neg (by rw [hflag₃]; exact hflag), if_neg hflag]
    refine ⟨l₃, k₃, rfl, ⟨hname₃, hstd₃, hown₃, hlist₃ ▸ hmain, ?_⟩, hindex₃, hflag₃⟩
    exact fun hon => absurd (hflag₃ ▸ hon) hflag

end

end IgLibs.Logger
