import IgLibs.FsUtils
import IgLibs.StringUtils.Theorems

namespace IgLibs.BossCommon

open FileSystem CString

-- The directory string after some rounds of the loop.
def joined (dir : List UInt8) (subdirs : List (List UInt8)) : List UInt8 :=
  dir ++ subdirs.flatMap fun subdir => 47 :: subdir

-- The directory strings that the loop may begin with.
def Base (dir : List UInt8) : Prop := dir = [] ∨ dir = [46] ∨ dir = [46, 46]

-- What one round adds for mkdir(2), which sees the string up to its first NUL.
def added (dir subdir : List UInt8) : List (Step (List UInt8)) :=
  if 0 ∈ dir then [] else (component (c_str subdir)).toList

def rounds : List UInt8 → List (List UInt8) → List (List (Step (List UInt8)))
  | _, [] => []
  | dir, subdir :: rest => added dir subdir :: rounds (dir ++ 47 :: subdir) rest

-- Where the paths of the loop start.
def origin (fs : Tree) (dir : List UInt8) : List (List UInt8) :=
  if dir.head?.all (· = 47) then [] else fs.cwd

-- A path, up to its first NUL, leads to a location, and a directory is there.
def NamesDirectory (fs : Tree) (path : List UInt8) (loc : List (List UInt8)) : Prop :=
  path ≠ [] ∧ fs.lookup (start fs path) (steps path) = .ok loc ∧ fs.node loc = some .directory

section

variable {fs next : Tree} {dir subdir path first : List UInt8} {subdirs rest : List (List UInt8)}

@[simp] theorem joined_nil (dir : List UInt8) : joined dir [] = dir := by simp [joined]

theorem joined_cons (dir subdir : List UInt8) (rest : List (List UInt8)) :
    joined dir (subdir :: rest) = joined (dir ++ 47 :: subdir) rest := by
  simp [joined]

theorem c_str_append (dir s : List UInt8) :
    c_str (dir ++ s) = if 0 ∈ dir then c_str dir else dir ++ c_str s := by
  split_ifs with hnul
  · obtain ⟨before, after, rfl, hbefore⟩ := List.eq_append_cons_of_mem hnul
    have hstop (tail : List UInt8) : c_str (before ++ 0 :: tail) = before := by
      have hall : ∀ b ∈ before, decide (b ≠ 0) = true :=
        fun b hb => decide_eq_true fun heq => hbefore (heq ▸ hb)
      rw [c_str, List.takeWhile_append_of_pos hall]
      simp
    rw [List.append_assoc, List.cons_append, hstop, hstop]
  · exact List.takeWhile_append_of_pos fun b hb => decide_eq_true fun heq => hnul (heq ▸ hb)

theorem steps_append (first second : List UInt8) :
    steps (first ++ 47 :: second) = steps first ++ steps second := by
  rw [steps, List.splitOn_append_cons_self, List.filterMap_append]
  rfl

theorem steps_item {item : List UInt8} (hitem : 47 ∉ item) :
    steps item = (component item).toList := by
  rw [steps, List.splitOn_eq_singleton hitem]
  cases hcomponent : component item <;> simp [hcomponent]

theorem notMem_c_str {b : UInt8} {s : List UInt8} (h : b ∉ s) : b ∉ c_str s :=
  fun hmem => h ((List.takeWhile_sublist _).mem hmem)

-- One round makes a path with at most one component more.
theorem steps_child (hsub : 47 ∉ subdir) :
    steps (c_str (dir ++ 47 :: subdir)) = steps (c_str dir) ++ added dir subdir := by
  rw [c_str_append, added]
  split_ifs with hnul
  · simp
  · have hslash : c_str (47 :: subdir) = 47 :: c_str subdir := by simp [c_str]
    rw [hslash, steps_append, steps_item (notMem_c_str hsub), c_str_of_notMem hnul]

theorem length_added_le : (added dir subdir).length ≤ 1 := by
  unfold added
  split_ifs
  · simp
  · cases component (c_str subdir) <;> simp

theorem length_rounds (dir : List UInt8) (subdirs : List (List UInt8)) :
    (rounds dir subdirs).length = subdirs.length := by
  induction subdirs generalizing dir with
  | nil => rfl
  | cons subdir rest ih => rw [rounds, List.length_cons, ih, List.length_cons]

theorem length_le_of_mem_rounds {more : List (Step (List UInt8))} (h : more ∈ rounds dir subdirs) :
    more.length ≤ 1 := by
  induction subdirs generalizing dir with
  | nil => cases h
  | cons subdir rest ih =>
      rcases List.mem_cons.mp h with rfl | h
      · exact length_added_le
      · exact ih h

theorem steps_joined (hsubs : ∀ subdir ∈ subdirs, 47 ∉ subdir) :
    steps (c_str (joined dir subdirs)) = steps (c_str dir) ++ (rounds dir subdirs).flatten := by
  induction subdirs generalizing dir with
  | nil => simp [rounds]
  | cons subdir rest ih =>
      rw [List.forall_mem_cons] at hsubs
      rw [joined_cons, ih hsubs.2, steps_child hsubs.1, rounds, List.flatten_cons, List.append_assoc]

theorem take_rounds (dir : List UInt8) (subdirs : List (List UInt8)) (k : Nat) :
    (rounds dir subdirs).take k = rounds dir (subdirs.take k) := by
  induction subdirs generalizing dir k with
  | nil => simp [rounds]
  | cons subdir rest ih =>
      cases k with
      | zero => simp [rounds]
      | succ k => rw [rounds, List.take_succ_cons, ih, List.take_succ_cons, rounds]

theorem head_c_str {b : UInt8} {s : List UInt8} (hhead : s.head? = some b) (hb : b ≠ 0) :
    (c_str s).head? = some b := by
  cases s with
  | nil => cases hhead
  | cons c s =>
      obtain rfl := Option.some.inj hhead
      simp [c_str, hb]

theorem origin_child (fs : Tree) (dir subdir : List UInt8) :
    origin fs (dir ++ 47 :: subdir) = origin fs dir := by
  cases dir with
  | nil => simp [origin]
  | cons b dir => simp [origin]

theorem origin_cwd (hcwd : next.cwd = fs.cwd) : origin next dir = origin fs dir := by
  rw [origin, origin, hcwd]

theorem head_child (hdir : dir.head? ≠ some 0) (subdir : List UInt8) :
    ∃ b ≠ 0, (dir ++ 47 :: subdir).head? = some b := by
  cases dir with
  | nil => exact ⟨47, by decide, rfl⟩
  | cons b dir => exact ⟨b, fun heq => hdir (by rw [heq]; rfl), rfl⟩

-- The strings that are handed to mkdir(2) are no empty paths, and all start at one place.
theorem start_child (hdir : dir.head? ≠ some 0) (subdir : List UInt8) :
    c_str (dir ++ 47 :: subdir) ≠ [] ∧ start fs (c_str (dir ++ 47 :: subdir)) = origin fs dir := by
  obtain ⟨b, hb, hhead⟩ := head_child hdir subdir
  have hc := head_c_str hhead hb
  rw [← origin_child fs dir subdir]
  refine ⟨?_, by simp [start, origin, hc, hhead]⟩
  intro hnil
  rw [hnil] at hc
  cases hc

theorem start_joined (hdir : dir.head? ≠ some 0) (hne : subdirs ≠ []) :
    c_str (joined dir subdirs) ≠ [] ∧ start fs (c_str (joined dir subdirs)) = origin fs dir := by
  obtain ⟨init, last, rfl⟩ := List.eq_nil_or_concat subdirs |>.resolve_left hne
  have hsplit : joined dir (init.concat last) = joined dir init ++ 47 :: last := by
    simp [joined]
  rw [hsplit]
  have horigin (subdirs : List (List UInt8)) (dir : List UInt8) (hdir : dir.head? ≠ some 0) :
      (joined dir subdirs).head? ≠ some 0 ∧ origin fs (joined dir subdirs) = origin fs dir := by
    induction subdirs generalizing dir with
    | nil => simpa using hdir
    | cons subdir rest ih =>
        obtain ⟨b, hb, hhead⟩ := head_child hdir subdir
        rw [joined_cons, ← origin_child fs dir subdir]
        exact ih _ (by rw [hhead]; simpa using hb)
  obtain ⟨hhead, horigin⟩ := horigin init dir hdir
  rw [← horigin]
  exact start_child hhead last

-- The loop over strings is the loop over components.
theorem makedir_loop_eq (hdir : dir.head? ≠ some 0) (hsubs : ∀ subdir ∈ subdirs, 47 ∉ subdir)
    (faults : Nat → Bool) :
    makedir_loop fs dir subdirs faults =
      fs.mkdirs (origin fs dir) (steps (c_str dir)) (rounds dir subdirs) faults := by
  induction subdirs generalizing fs dir faults with
  | nil => rfl
  | cons subdir rest ih =>
      rw [List.forall_mem_cons] at hsubs
      obtain ⟨hne, hstart⟩ := @start_child fs dir hdir subdir
      obtain ⟨b, hb, hhead⟩ := head_child hdir subdir
      have hdir' : (dir ++ 47 :: subdir).head? ≠ some 0 := by
        rw [hhead]
        simpa using hb
      have hcall : mkdir fs (c_str (dir ++ 47 :: subdir)) (faults 0) =
          FileSystem.mkdir fs (origin fs dir) (steps (c_str dir) ++ added dir subdir) (faults 0) := by
        rw [mkdir, if_neg hne, hstart, steps_child hsubs.1]
      have hrest (fs' : Tree) (hcwd : fs'.cwd = fs.cwd) :
          makedir_loop fs' (dir ++ 47 :: subdir) rest (fun call => faults (call + 1)) =
            fs'.mkdirs (origin fs dir) (steps (c_str dir) ++ added dir subdir)
              (rounds (dir ++ 47 :: subdir) rest) fun call => faults (call + 1) := by
        rw [ih hdir' hsubs.2, origin_child, steps_child hsubs.1, origin_cwd hcwd]
      simp only [makedir_loop, rounds, mkdirs, hcall]
      cases hmkdir : FileSystem.mkdir fs (origin fs dir) (steps (c_str dir) ++ added dir subdir)
          (faults 0) with
      | ok next => exact hrest next (mkdir_cwd hmkdir)
      | error e =>
          dsimp only
          rw [hrest fs rfl]

theorem node_origin (fs : Tree) (dir : List UInt8) : fs.node (origin fs dir) = some .directory := by
  unfold origin
  split_ifs
  · exact fs.root_dir
  · exact fs.cwd_dir

-- The first component, when it is taken as it is, leads to a directory.
theorem base_there (hdir : Base dir) :
    fs.Open (origin fs dir) (steps (c_str dir)) ∧
      fs.node (walk (origin fs dir) (steps (c_str dir))) ≠ none := by
  have hnode := node_origin fs dir
  rcases hdir with rfl | rfl | rfl
  · exact ⟨open_nil, by rw [show steps (c_str []) = [] from rfl, walk_nil, hnode]; simp⟩
  · rw [show steps (c_str [46]) = [.here] from rfl]
    refine ⟨open_cons_iff.mpr ⟨hnode, open_nil⟩, ?_⟩
    rw [walk_cons, walk_nil, enter, hnode]
    simp
  · rw [show steps (c_str [46, 46]) = [.up] from rfl]
    refine ⟨open_cons_iff.mpr ⟨hnode, open_nil⟩, ?_⟩
    rw [walk_cons, walk_nil, enter, parent_of_directory hnode]
    simp

-- What makedir owes for a path whose mkdir(2) calls are numbered.
structure Made (fs : Tree) (path : List UInt8) (calls : Nat) (faults : Nat → Bool)
    (result : Tree × Bool) : Prop where
  grown : Grown fs result.1 fun l => ∃ p, p <+: path ∧ NamesDirectory result.1 (c_str p) l
  returns : result.2 = true ↔ (∀ i < calls, faults i = false) ∧
    ¬fs.Blocked (start fs (c_str path)) (steps (c_str path))
  there : result.2 = true → result.1.Open (start fs (c_str path)) (steps (c_str path)) ∧
    result.1.node (walk (start fs (c_str path)) (steps (c_str path))) ≠ none

theorem makedir_loop_result (hdir : Base dir)
    (hsubs : ∀ subdir ∈ subdirs, 47 ∉ subdir) (faults : Nat → Bool) :
    Result fs (origin fs dir) (steps (c_str dir)) (rounds dir subdirs) faults
      (makedir_loop fs dir subdirs faults) := by
  have hhead : dir.head? ≠ some 0 := by
    rcases hdir with rfl | rfl | rfl <;> decide
  rw [makedir_loop_eq hhead hsubs]
  exact mkdirs_result (node_origin fs dir) (base_there hdir).1 (base_there hdir).2
    (fun _ => length_le_of_mem_rounds) faults

-- A directory that has come is named by the string of the round that made it.
theorem stage_names (hdir : Base dir)
    (hsubs : ∀ subdir ∈ subdirs, 47 ∉ subdir) (hcwd : next.cwd = fs.cwd) {l : List (List UInt8)}
    (hnode : next.node l = some .directory)
    (hstage : Stage next (origin fs dir) (steps (c_str dir)) (rounds dir subdirs) l) :
    ∃ k < subdirs.length, NamesDirectory next (c_str (joined dir (subdirs.take (k + 1)))) l := by
  have hhead : dir.head? ≠ some 0 := by
    rcases hdir with rfl | rfl | rfl <;> decide
  obtain ⟨k, hk, hl, hopen⟩ := hstage
  rw [length_rounds] at hk
  have hsteps : steps (c_str (joined dir (subdirs.take (k + 1)))) =
      steps (c_str dir) ++ ((rounds dir subdirs).take (k + 1)).flatten := by
    rw [take_rounds]
    exact steps_joined fun subdir hmem => hsubs subdir (List.mem_of_mem_take hmem)
  have hne : subdirs.take (k + 1) ≠ [] := by
    rw [Ne, List.take_eq_nil_iff]
    rintro (hzero | rfl)
    · cases hzero
    · cases hk
  obtain ⟨hpath, hstart⟩ := @start_joined next dir _ hhead hne
  rw [← hsteps] at hl hopen
  refine ⟨k, hk, hpath, ?_, hnode⟩
  rw [hstart, origin_cwd hcwd]
  exact lookup_eq_ok_iff.mpr ⟨hopen, hl⟩

theorem joined_take (dir : List UInt8) (subdirs : List (List UInt8)) (k : Nat) :
    joined dir (subdirs.take k) <+: joined dir subdirs := by
  refine ⟨(subdirs.drop k).flatMap fun subdir => 47 :: subdir, ?_⟩
  rw [joined, List.append_assoc, ← List.flatMap_append, List.take_append_drop]
  rfl

-- A slash at the end adds no component.
theorem steps_c_str_tail {tail : List UInt8} (htail : tail = [] ∨ tail = [47]) (s : List UInt8) :
    steps (c_str (s ++ tail)) = steps (c_str s) := by
  rcases htail with rfl | rfl
  · rw [List.append_nil]
  · rw [steps_child (by simp)]
    simp [added, component, show c_str [] = [] from rfl]

theorem start_path (hdir : Base dir) {tail : List UInt8}
    (htail : tail = [] ∨ tail = [47]) (hpath : joined dir subdirs ++ tail ≠ []) :
    start fs (c_str (joined dir subdirs ++ tail)) = origin fs dir := by
  rcases hdir with rfl | rfl | rfl
  · have hhead : (joined [] subdirs ++ tail).head? = some 47 := by
      cases subdirs with
      | nil =>
          rcases htail with rfl | rfl
          · exact absurd rfl hpath
          · rfl
      | cons subdir rest => rfl
    rw [start, head_c_str hhead (by decide)]
    rfl
  · rw [start, @head_c_str 46 (joined [46] subdirs ++ tail) rfl (by decide)]
    rfl
  · rw [start, @head_c_str 46 (joined [46, 46] subdirs ++ tail) rfl (by decide)]
    rfl

theorem makedir_made_direct (hdir : Base dir)
    (hsubs : ∀ subdir ∈ subdirs, 47 ∉ subdir) {tail : List UInt8}
    (htail : tail = [] ∨ tail = [47]) (hpath : joined dir subdirs ++ tail ≠ [])
    (faults : Nat → Bool) :
    Made fs (joined dir subdirs ++ tail) subdirs.length faults
      (makedir_loop fs dir subdirs faults) := by
  have hresult := @makedir_loop_result fs dir subdirs hdir hsubs faults
  have hsteps : steps (c_str (joined dir subdirs ++ tail)) =
      steps (c_str dir) ++ (rounds dir subdirs).flatten := by
    rw [steps_c_str_tail htail, steps_joined hsubs]
  have hstart := @start_path fs dir subdirs hdir tail htail hpath
  have hreturns := hresult.returns
  rw [length_rounds] at hreturns
  constructor
  · refine hresult.grown.imp fun l hne hstage => ?_
    obtain ⟨k, -, hnames⟩ := stage_names hdir hsubs hresult.grown.cwd (hresult.grown.made l hne).1 hstage
    exact ⟨_, (joined_take dir subdirs (k + 1)).trans (List.prefix_append _ _), hnames⟩
  · rw [hsteps, hstart]
    exact hreturns
  · rw [hsteps, hstart]
    exact hresult.there

-- A first component that is a name is put behind the current directory.
theorem steps_c_str_dot (s : List UInt8) : steps (c_str (46 :: 47 :: s)) = .here :: steps (c_str s) := by
  have hc : c_str (46 :: 47 :: s) = [46] ++ 47 :: c_str s := by simp [c_str]
  rw [hc, steps_append]
  rfl

theorem start_relative {s : List UInt8} (hhead : s.head? ≠ some 47) :
    start fs (c_str s) = fs.cwd := by
  rw [start, if_neg]
  intro h
  cases s with
  | nil => cases h
  | cons b s =>
      by_cases hb : b = 0
      · simp [c_str, hb] at h
      · rw [@head_c_str b (b :: s) rfl hb] at h
        exact hhead h

-- A path that starts with a name is below the working directory, with ./ in front or not.
theorem joined_dot (first : List UInt8) (subdirs : List (List UInt8)) :
    joined [46] (first :: subdirs) = 46 :: 47 :: joined first subdirs := by
  simp [joined]

theorem head_joined_ne (hfirst : 47 ∉ first) (hne : first ≠ []) (subdirs : List (List UInt8))
    (s : List UInt8) : (joined first subdirs ++ s).head? ≠ some 47 := by
  cases first with
  | nil => exact absurd rfl hne
  | cons b first =>
      simp only [joined, List.cons_append, List.head?_cons, ne_eq, Option.some.injEq]
      exact fun hb => hfirst (by simp [hb])

theorem makedir_made_plain (hfirst : 47 ∉ first) (hne : first ≠ [])
    (hrest : ∀ subdir ∈ rest, 47 ∉ subdir) {tail : List UInt8}
    (htail : tail = [] ∨ tail = [47]) (faults : Nat → Bool) :
    Made fs (joined first rest ++ tail) (first :: rest).length faults
      (makedir_loop fs [46] (first :: rest) faults) := by
  have hsubs : ∀ subdir ∈ first :: rest, 47 ∉ subdir := List.forall_mem_cons.mpr ⟨hfirst, hrest⟩
  have hdir : Base [46] := .inr (.inl rfl)
  have hresult := @makedir_loop_result fs [46] (first :: rest) hdir hsubs faults
  have hsteps : steps (c_str [46]) ++ (rounds [46] (first :: rest)).flatten =
      .here :: steps (c_str (joined first rest ++ tail)) := by
    rw [steps_c_str_tail htail, ← steps_joined hsubs, joined_dot, steps_c_str_dot]
  have hstart : start fs (c_str (joined first rest ++ tail)) = fs.cwd :=
    start_relative (head_joined_ne hfirst hne rest tail)
  have horigin : origin fs [46] = fs.cwd := rfl
  have hcwd := hresult.grown.cwd
  have hreturns := hresult.returns
  have hthere := hresult.there
  rw [length_rounds, hsteps, blocked_cons_iff, horigin, fs.cwd_dir] at hreturns
  rw [hsteps, open_cons_iff, walk_cons, horigin] at hthere
  constructor
  · refine hresult.grown.imp fun l hchanged hstage => ?_
    have hnode := (hresult.grown.made l hchanged).1
    obtain ⟨k, -, hpath, hlookup, -⟩ := stage_names hdir hsubs hcwd hnode hstage
    generalize (makedir_loop fs [46] (first :: rest) faults).1 = made at *
    rw [List.take_succ_cons, joined_dot, steps_c_str_dot, start_relative (by simp), lookup,
      made.cwd_dir] at hlookup
    refine ⟨joined first (rest.take k),
      (joined_take first rest k).trans (List.prefix_append _ _), ?_, ?_, hnode⟩
    · intro hnil
      rw [hnil] at hlookup
      obtain rfl : fs.cwd = l := by rw [← hcwd]; exact Except.ok.inj hlookup
      rw [hnode, fs.cwd_dir] at hchanged
      exact hchanged rfl
    · have hhead' := head_joined_ne hfirst hne (rest.take k) []
      rw [List.append_nil] at hhead'
      rw [start_relative hhead']
      exact hlookup
  · rw [hstart]
    simpa [enter] using hreturns
  · rw [hstart]
    exact fun hok => ⟨(hthere hok).1.2, (hthere hok).2⟩

theorem intercalate_eq_joined (first : List UInt8) (rest : List (List UInt8)) :
    [47].intercalate (first :: rest) = joined first rest := by
  induction rest generalizing first with
  | nil => simp [joined]
  | cons second rest ih =>
      rw [List.intercalate_cons_cons, ih, joined, joined]
      simp

-- A path is its split components, with a slash behind them or not.
theorem split_path (hpath : path ≠ []) :
    ∃ first rest tail, split path 47 = first :: rest ∧ 47 ∉ first ∧
      (∀ subdir ∈ rest, 47 ∉ subdir) ∧ (tail = [] ∨ tail = [47]) ∧
      path = joined first rest ++ tail := by
  have hpieces := splitOn_eq_split 47 path
  have hback := @List.intercalate_splitOn UInt8 path _ _ 47
  have hpiece : ∀ piece ∈ path.splitOn 47, 47 ∉ piece := fun _ => notMem_of_mem_splitOn
  generalize path.getLast?.all (· = 47) = slash at hpieces
  cases hsplit : split path 47 with
  | nil =>
      rw [hsplit, List.nil_append] at hpieces
      rw [hpieces] at hback
      cases slash <;> exact absurd hback.symm hpath
  | cons first rest =>
      rw [hsplit, List.cons_append] at hpieces
      rw [hpieces] at hpiece
      rw [hpieces, intercalate_eq_joined] at hback
      rw [List.forall_mem_cons, List.forall_mem_append] at hpiece
      refine ⟨first, rest, if slash then [47] else [], rfl, hpiece.1, hpiece.2.1, ?_, ?_⟩
      · cases slash
        · exact .inl rfl
        · exact .inr rfl
      · rw [← hback]
        cases slash <;> simp [joined]

def calls (path : List UInt8) : Nat := (first_dir (split path 47)).2.length

theorem makedir_made (hpath : path ≠ []) (faults : Nat → Bool) :
    Made fs path (calls path) faults (makedir fs path faults) := by
  obtain ⟨first, rest, tail, hsplit, hfirst, hrest, htail, rfl⟩ := split_path hpath
  have hsome : ¬(first :: rest).length ≤ 0 := by simp
  rw [makedir, calls, hsplit, if_neg hsome, first_dir]
  by_cases hroot : first = []
  · simp only [if_pos hroot]
    subst hroot
    exact makedir_made_direct (.inl rfl) hrest htail hpath faults
  simp only [if_neg hroot]
  by_cases hhere : first = [46]
  · simp only [if_pos hhere]
    subst hhere
    exact makedir_made_direct (.inr (.inl rfl)) hrest htail hpath faults
  simp only [if_neg hhere]
  by_cases hup : first = [46, 46]
  · simp only [if_pos hup]
    subst hup
    exact makedir_made_direct (.inr (.inr rfl)) hrest htail hpath faults
  · simp only [if_neg hup]
    exact makedir_made_plain hfirst hroot hrest htail faults

end

-- makedir does what it says: true stands for a directory at the path, nothing that was there
-- has changed, and what has come is directories on the way.
def DoesMakedir (fs : Tree) (path : List UInt8) (result : Tree × Bool) : Prop :=
  (result.2 = true → ∃ loc, NamesDirectory result.1 (c_str path) loc) ∧
    (∀ loc kind, fs.node loc = some kind → result.1.node loc = some kind) ∧
    ∀ loc, result.1.node loc ≠ fs.node loc → result.1.node loc = some .directory ∧
      ∃ p, p <+: path ∧ NamesDirectory result.1 (c_str p) loc

-- The components of the path lead to a regular file, by way of none.
def NamesRegular (fs : Tree) (path : List UInt8) : Prop :=
  fs.node (walk (start fs path) (steps path)) = some .regular ∧
    ¬fs.Blocked (start fs path) (steps path)

theorem makedir_names_iff (fs : Tree) {path : List UInt8} (hpath : path ≠ [])
    (faults : Nat → Bool) :
    DoesMakedir fs path (makedir fs path faults) ↔
      (c_str path = [] ∨ NamesRegular fs (c_str path) → ∃ i < calls path, faults i = true) := by
  obtain ⟨hgrown, hreturns, hthere⟩ := makedir_made hpath faults
  generalize makedir fs path faults = result at *
  have hstart : start result.1 (c_str path) = start fs (c_str path) := by
    rw [start, start, hgrown.cwd]
  have hkept : (∀ loc kind, fs.node loc = some kind → result.1.node loc = some kind) ∧
      ∀ loc, result.1.node loc ≠ fs.node loc → result.1.node loc = some .directory ∧
        ∃ p, p <+: path ∧ NamesDirectory result.1 (c_str p) loc := ⟨hgrown.kept, hgrown.made⟩
  rw [DoesMakedir, and_iff_left hkept]
  constructor
  · intro hnames hbad
    by_contra hfaults
    push Not at hfaults
    have hclear : ∀ i < calls path, faults i = false := fun i hi => by simpa using hfaults i hi
    have hopen : ¬fs.Blocked (start fs (c_str path)) (steps (c_str path)) := by
      rcases hbad with hnil | hregular
      · rw [hnil]
        exact not_blocked_of_open open_nil
      · exact hregular.2
    obtain ⟨loc, hne, hlookup, hdir⟩ := hnames (hreturns.mpr ⟨hclear, hopen⟩)
    rcases hbad with hnil | hregular
    · exact hne hnil
    · rw [hstart] at hlookup
      obtain rfl := (lookup_eq_ok_iff.mp hlookup).2
      rw [hgrown.regular_iff.mpr hregular.1] at hdir
      cases hdir
  · intro hcond hok
    obtain ⟨hclear, hnot⟩ := hreturns.mp hok
    obtain ⟨hopen, hnode⟩ := hthere hok
    have hgood : ¬(c_str path = [] ∨ NamesRegular fs (c_str path)) := by
      intro hbad
      obtain ⟨i, hi, hfault⟩ := hcond hbad
      rw [hclear i hi] at hfault
      cases hfault
    obtain ⟨hne, hregular⟩ := not_or.mp hgood
    obtain ⟨kind, hkind⟩ := Option.ne_none_iff_exists'.mp hnode
    refine ⟨walk (start fs (c_str path)) (steps (c_str path)), hne, ?_, ?_⟩
    · rw [hstart]
      exact lookup_eq_ok_iff.mpr ⟨hopen, rfl⟩
    · cases kind with
      | directory => exact hkind
      | regular => exact absurd ⟨hgrown.regular_iff.mp hkind, hnot⟩ hregular

-- The root, which is the current directory, with one regular file in it.
def with_file (name : List UInt8) : Tree where
  node loc := if loc = [] then some .directory else if loc = [name] then some .regular else none
  cwd := []
  root_dir := rfl
  parent_dir child loc h := by
    cases loc with
    | nil => rfl
    | cons parent rest => simp at h
  cwd_dir := rfl

theorem makedir_names_iff_below :
    DoesMakedir (with_file [97]) [98, 47, 99] (makedir (with_file [97]) [98, 47, 99] fun _ => false) := by
  refine (makedir_names_iff (with_file [97]) (by decide) fun _ => false).mpr ?_
  rintro (hnil | ⟨hregular, -⟩)
  · exact absurd hnil (by decide)
  · exact absurd hregular (by decide)

-- makedir("a") is content with a regular file a.
theorem makedir_regular :
    (makedir (with_file [97]) [97] fun _ => false).2 = true ∧
      ¬∃ loc, NamesDirectory (makedir (with_file [97]) [97] fun _ => false).1 [97] loc := by
  refine ⟨rfl, ?_⟩
  rintro ⟨loc, -, hlookup, hdir⟩
  obtain rfl : [[97]] = loc := Except.ok.inj hlookup
  exact absurd hdir (by decide)

end IgLibs.BossCommon
