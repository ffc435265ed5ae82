import Mathlib.Data.List.Basic

namespace IgLibs

-- A tree of directories and regular files, with the current directory of a process. A location
-- is the list of the names that lead to it, the innermost first.
inductive Kind
  | directory
  | regular
deriving DecidableEq

structure FileSystem (α : Type*) where
  node : List α → Option Kind
  cwd : List α
  root_dir : node [] = some .directory
  parent_dir : ∀ name loc, node (name :: loc) ≠ none → node loc = some .directory
  cwd_dir : node cwd = some .directory

namespace FileSystem

inductive Errno
  | EEXIST
  | ENOENT
  | ENOTDIR
  | other
deriving DecidableEq

-- One component of a path.
inductive Step (α : Type*)
  | here
  | up
  | into (name : α)
deriving DecidableEq

variable {α : Type*}

def enter (loc : List α) : Step α → List α
  | .here => loc
  | .up => loc.tail
  | .into name => name :: loc

-- Where a path leads if its components are there. Without links this is a matter of names.
def walk (loc : List α) (steps : List (Step α)) : List α := steps.foldl enter loc

def lookup (fs : FileSystem α) (loc : List α) : List (Step α) → Except Errno (List α)
  | [] => .ok loc
  | step :: rest => match fs.node loc with
    | some .directory => fs.lookup (enter loc step) rest
    | some .regular => .error .ENOTDIR
    | none => .error .ENOENT

-- A directory may be put where its parent is one.
def create [DecidableEq α] (fs : FileSystem α) (loc : List α) : FileSystem α where
  node l := if l = loc ∧ fs.node loc.tail = some .directory then some .directory else fs.node l
  cwd := fs.cwd
  root_dir := by
    split_ifs
    · rfl
    · exact fs.root_dir
  parent_dir name l h := by
    have hparent : fs.node l = some .directory := by
      by_cases hnew : name :: l = loc ∧ fs.node loc.tail = some .directory
      · obtain ⟨rfl, htail⟩ := hnew
        exact htail
      · rw [if_neg hnew] at h
        exact fs.parent_dir name l h
    split_ifs
    · rfl
    · exact hparent
  cwd_dir := by
    split_ifs
    · rfl
    · exact fs.cwd_dir

-- mkdir(2) from a location on. `fault` stands for every error that is not about the path.
def mkdir [DecidableEq α] (fs : FileSystem α) (loc : List α) (steps : List (Step α)) (fault : Bool) :
    Except Errno (FileSystem α) :=
  if fault then .error .other
  else match fs.lookup loc steps with
    | .error e => .error e
    | .ok target => if fs.node target = none then .ok (fs.create target) else .error .EEXIST

-- Makes one path after the other, each by some more components, as long as every call succeeds
-- or finds something there.
def mkdirs [DecidableEq α] (fs : FileSystem α) (loc : List α) (done : List (Step α)) :
    List (List (Step α)) → (Nat → Bool) → FileSystem α × Bool
  | [], _ => (fs, true)
  | more :: rest, faults =>
      match fs.mkdir loc (done ++ more) (faults 0) with
      | .ok next => next.mkdirs loc (done ++ more) rest fun call => faults (call + 1)
      | .error e =>
          if e = .EEXIST then fs.mkdirs loc (done ++ more) rest fun call => faults (call + 1)
          else (fs, false)

-- All components of a path but the last lead to directories.
def Open (fs : FileSystem α) (loc : List α) (steps : List (Step α)) : Prop :=
  ∀ first step rest, steps = first ++ step :: rest → fs.node (walk loc first) = some .directory

-- Some component of a path but the last leads to a regular file.
def Blocked (fs : FileSystem α) (loc : List α) (steps : List (Step α)) : Prop :=
  ∃ first step rest, steps = first ++ step :: rest ∧ fs.node (walk loc first) = some .regular

-- Nothing that was there has changed, and what has come is directories of a certain kind.
structure Grown (fs next : FileSystem α) (named : List α → Prop) : Prop where
  kept : ∀ l kind, fs.node l = some kind → next.node l = some kind
  made : ∀ l, next.node l ≠ fs.node l → next.node l = some .directory ∧ named l
  cwd : next.cwd = fs.cwd

section

variable {fs middle next : FileSystem α} {loc target : List α} {steps : List (Step α)}
  {named named' : List α → Prop}

@[simp] theorem walk_nil (loc : List α) : walk loc [] = loc := rfl

@[simp] theorem walk_cons (loc : List α) (step : Step α) (rest : List (Step α)) :
    walk loc (step :: rest) = walk (enter loc step) rest := rfl

theorem walk_append (loc : List α) (first rest : List (Step α)) :
    walk loc (first ++ rest) = walk (walk loc first) rest :=
  List.foldl_append

theorem open_nil : fs.Open loc [] := by
  intro first step rest h
  cases first <;> cases h

theorem open_cons_iff {step : Step α} {rest : List (Step α)} :
    fs.Open loc (step :: rest) ↔
      fs.node loc = some .directory ∧ fs.Open (enter loc step) rest := by
  constructor
  · intro h
    refine ⟨h [] step rest rfl, fun first step' rest' heq => ?_⟩
    exact h (step :: first) step' rest' (by rw [heq]; rfl)
  · rintro ⟨hdir, hrest⟩ first step' rest' heq
    cases first with
    | nil => exact hdir
    | cons head tail =>
        obtain ⟨rfl, htail⟩ := List.cons.inj heq
        exact hrest tail step' rest' htail

-- A path with one component more needs a directory to put it in.
theorem open_concat_iff {step : Step α} :
    fs.Open loc (steps ++ [step]) ↔
      fs.Open loc steps ∧ fs.node (walk loc steps) = some .directory := by
  induction steps generalizing loc with
  | nil => simp [open_cons_iff, open_nil]
  | cons head tail ih => rw [List.cons_append, open_cons_iff, ih, open_cons_iff, walk_cons, and_assoc]

theorem lookup_eq_ok_iff :
    fs.lookup loc steps = .ok target ↔ fs.Open loc steps ∧ target = walk loc steps := by
  induction steps generalizing loc with
  | nil => simp [lookup, open_nil, eq_comm]
  | cons step rest ih =>
      rw [lookup, open_cons_iff, walk_cons]
      cases hnode : fs.node loc with
      | none => simp
      | some kind =>
          cases kind with
          | directory => simpa using ih
          | regular => simp

theorem lookup_ne_exists : fs.lookup loc steps ≠ .error .EEXIST := by
  induction steps generalizing loc with
  | nil => simp [lookup]
  | cons step rest ih =>
      rw [lookup]
      cases hnode : fs.node loc with
      | none => simp
      | some kind =>
          cases kind with
          | directory => exact ih
          | regular => simp

theorem blocked_cons_iff {step : Step α} {rest : List (Step α)} :
    fs.Blocked loc (step :: rest) ↔
      fs.node loc = some .regular ∨ fs.Blocked (enter loc step) rest := by
  constructor
  · rintro ⟨first, step', rest', heq, hregular⟩
    cases first with
    | nil => exact .inl hregular
    | cons head tail =>
        obtain ⟨rfl, htail⟩ := List.cons.inj heq
        exact .inr ⟨tail, step', rest', htail, hregular⟩
  · rintro (hregular | ⟨first, step', rest', rfl, hregular⟩)
    · exact ⟨[], step, rest, rfl, hregular⟩
    · exact ⟨step :: first, step', rest', rfl, hregular⟩

-- One component behind a path that is there is refused by a regular file only.
theorem blocked_of_not_open {more : List (Step α)} (hopen : fs.Open loc steps)
    (hthere : fs.node (walk loc steps) ≠ none) (hmore : more.length ≤ 1)
    (hno : ¬fs.Open loc (steps ++ more)) : fs.Blocked loc (steps ++ more) := by
  match more, hmore with
  | [], _ => exact absurd (by simpa using hopen) hno
  | [step], _ =>
      rw [open_concat_iff] at hno
      obtain ⟨kind, hkind⟩ := Option.ne_none_iff_exists'.mp hthere
      cases kind with
      | directory => exact absurd ⟨hopen, hkind⟩ hno
      | regular => exact ⟨steps, step, [], rfl, hkind⟩

theorem parent_of_directory {loc : List α} (h : fs.node loc = some .directory) :
    fs.node loc.tail = some .directory := by
  cases loc with
  | nil => exact h
  | cons name rest => exact fs.parent_dir name rest (by rw [h]; simp)

-- What a path leads to can only be missing in a directory.
theorem parent_of_missing (hloc : fs.node loc = some .directory) (hopen : fs.Open loc steps)
    (hmissing : fs.node (walk loc steps) = none) :
    fs.node (walk loc steps).tail = some .directory := by
  rcases List.eq_nil_or_concat steps with rfl | ⟨init, step, rfl⟩
  · rw [walk_nil, hloc] at hmissing
    cases hmissing
  · rw [List.concat_eq_append] at hopen hmissing ⊢
    have hdir := (open_concat_iff.mp hopen).2
    rw [walk_append] at hmissing ⊢
    cases step with
    | here => exact parent_of_directory hdir
    | up => exact parent_of_directory (parent_of_directory hdir)
    | into name => exact hdir

theorem Grown.refl (fs : FileSystem α) (named : List α → Prop) : Grown fs fs named :=
  ⟨fun _ _ h => h, fun _ h => absurd rfl h, rfl⟩

theorem Grown.open (h : Grown fs next named) (hopen : fs.Open loc steps) : next.Open loc steps :=
  fun first step rest heq => h.kept _ _ (hopen first step rest heq)

theorem Grown.regular_iff (h : Grown fs next named) {l : List α} :
    next.node l = some .regular ↔ fs.node l = some .regular := by
  refine ⟨fun hnext => ?_, h.kept l _⟩
  by_contra hne
  have hmade := (h.made l fun heq => hne (heq ▸ hnext)).1
  rw [hnext] at hmade
  cases hmade

theorem Grown.trans (h : Grown fs middle named) (h' : Grown middle next named')
    (hnamed : ∀ l, named l → named' l) : Grown fs next named' := by
  refine ⟨fun l kind hl => h'.kept l kind (h.kept l kind hl), fun l hne => ?_, h'.cwd.trans h.cwd⟩
  by_cases hmiddle : middle.node l = fs.node l
  · rw [← hmiddle] at hne
    exact h'.made l hne
  · obtain ⟨hdir, hl⟩ := h.made l hmiddle
    exact ⟨h'.kept l _ hdir, hnamed l hl⟩

theorem create_grown [DecidableEq α] (hmissing : fs.node target = none)
    (hparent : fs.node target.tail = some .directory) :
    Grown fs (fs.create target) (· = target) ∧ (fs.create target).node target = some .directory := by
  refine ⟨⟨fun l kind hl => ?_, fun l hne => ?_, rfl⟩, if_pos ⟨rfl, hparent⟩⟩
  · have hne : l ≠ target := by
      rintro rfl
      rw [hmissing] at hl
      cases hl
    exact (if_neg fun h => hne h.1).trans hl
  · by_cases hl : l = target
    · exact ⟨if_pos ⟨hl, hparent⟩, hl⟩
    · exact absurd (if_neg fun h => hl h.1) hne

theorem mkdir_cwd [DecidableEq α] {fault : Bool} (h : fs.mkdir loc steps fault = .ok next) :
    next.cwd = fs.cwd := by
  unfold mkdir at h
  split_ifs at h
  split at h
  · cases h
  · split_ifs at h
    cases h
    rfl

theorem blocked_congr (h : ∀ l, next.node l = some .regular ↔ fs.node l = some .regular) :
    next.Blocked loc steps ↔ fs.Blocked loc steps := by
  unfold Blocked
  simp only [h]

theorem not_blocked_of_open (h : fs.Open loc steps) : ¬fs.Blocked loc steps := by
  rintro ⟨first, step, rest, heq, hregular⟩
  rw [h first step rest heq] at hregular
  cases hregular

theorem Grown.imp (h : Grown fs next named)
    (hnamed : ∀ l, next.node l ≠ fs.node l → named l → named' l) : Grown fs next named' :=
  ⟨h.kept, fun l hne => ⟨(h.made l hne).1, hnamed l hne (h.made l hne).2⟩, h.cwd⟩

-- The locations that the calls of mkdirs are about, when the tree has come to be `next`.
def Stage (next : FileSystem α) (loc : List α) (done : List (Step α)) (mores : List (List (Step α)))
    (l : List α) : Prop :=
  ∃ k < mores.length, l = walk loc (done ++ (mores.take (k + 1)).flatten) ∧
    next.Open loc (done ++ (mores.take (k + 1)).flatten)

theorem Stage.later {done more : List (Step α)} {mores : List (List (Step α))} {l : List α}
    (h : Stage next loc (done ++ more) mores l) : Stage next loc done (more :: mores) l := by
  obtain ⟨k, hk, hl, hopen⟩ := h
  refine ⟨k + 1, by simpa using hk, ?_, ?_⟩
  · simpa using hl
  · simpa using hopen

-- The calls that are left, when what has been done is there.
structure Result (fs : FileSystem α) (loc : List α) (done : List (Step α))
    (mores : List (List (Step α))) (faults : Nat → Bool) (result : FileSystem α × Bool) : Prop where
  grown : Grown fs result.1 (Stage result.1 loc done mores)
  returns : result.2 = true ↔
    (∀ i < mores.length, faults i = false) ∧ ¬fs.Blocked loc (done ++ mores.flatten)
  there : result.2 = true → result.1.Open loc (done ++ mores.flatten) ∧
    result.1.node (walk loc (done ++ mores.flatten)) ≠ none

theorem Result.refused {done more : List (Step α)} {mores : List (List (Step α))}
    {faults : Nat → Bool}
    (h : faults 0 = true ∨ fs.Blocked loc (done ++ more)) :
    Result fs loc done (more :: mores) faults (fs, false) := by
  refine ⟨.refl fs _, ⟨fun hok => absurd hok Bool.false_ne_true, ?_⟩,
    fun hok => absurd hok Bool.false_ne_true⟩
  rintro ⟨hfaults, hclear⟩
  rcases h with hfault | ⟨first, step, rest, heq, hregular⟩
  · rw [hfaults 0 (by simp)] at hfault
    cases hfault
  · refine absurd ⟨first, step, rest ++ mores.flatten, ?_, hregular⟩ hclear
    rw [List.flatten_cons, ← List.append_assoc, heq]
    simp

-- One call that leaves its path there, and the calls behind it.
theorem Result.cons {done more : List (Step α)} {mores : List (List (Step α))}
    {faults : Nat → Bool} {result : FileSystem α × Bool} (hfault : faults 0 = false)
    (hopen : middle.Open loc (done ++ more)) (hgrown : Grown fs middle (· = walk loc (done ++ more)))
    (h : Result middle loc (done ++ more) mores (fun call => faults (call + 1)) result) :
    Result fs loc done (more :: mores) faults result := by
  have hpath : done ++ more ++ mores.flatten = done ++ (more :: mores).flatten := by simp
  have hlater : Grown middle result.1 (Stage result.1 loc done (more :: mores)) :=
    h.grown.imp fun l _ hl => hl.later
  refine ⟨hgrown.trans hlater ?_, ?_, ?_⟩
  · rintro l rfl
    exact ⟨0, by simp, by simp, by simpa using h.grown.open hopen⟩
  · rw [h.returns, blocked_congr fun _ => hgrown.regular_iff, hpath]
    refine and_congr_left fun _ => ⟨fun hall i hi => ?_, fun hall i hi => hall (i + 1) (by simpa)⟩
    cases i with
    | zero => exact hfault
    | succ i => exact hall i (by simpa using hi)
  · rw [← hpath]
    exact h.there

theorem mkdirs_result [DecidableEq α] (hloc : fs.node loc = some .directory) {done : List (Step α)}
    (hopen : fs.Open loc done) (hdone : fs.node (walk loc done) ≠ none)
    {mores : List (List (Step α))} (hmores : ∀ more ∈ mores, more.length ≤ 1)
    (faults : Nat → Bool) : Result fs loc done mores faults (fs.mkdirs loc done mores faults) := by
  induction mores generalizing fs done faults with
  | nil =>
      refine ⟨.refl fs _, ⟨fun _ => ⟨by simp, ?_⟩, fun _ => rfl⟩, fun _ => ?_⟩
      · simpa using not_blocked_of_open hopen
      · simpa using ⟨hopen, hdone⟩
  | cons more mores ih =>
      have hrest : ∀ more ∈ mores, more.length ≤ 1 := fun m hm => hmores m (by simp [hm])
      rw [mkdirs, mkdir]
      by_cases hfault : faults 0 = true
      · rw [if_pos hfault]
        exact .refused (.inl hfault)
      have hfault' : faults 0 = false := by simpa using hfault
      rw [if_neg hfault]
      -- What is there may be a regular file, and then no component can follow it.
      by_cases hnext : fs.Open loc (done ++ more)
      · rw [lookup_eq_ok_iff.mpr ⟨hnext, rfl⟩]
        dsimp only
        by_cases hmissing : fs.node (walk loc (done ++ more)) = none
        · rw [if_pos hmissing]
          obtain ⟨hgrown, hnode⟩ := create_grown hmissing (parent_of_missing hloc hnext hmissing)
          have hopen' := hgrown.open hnext
          refine .cons hfault' hopen' hgrown (ih (hgrown.kept _ _ hloc) hopen' ?_ hrest _)
          rw [hnode]
          simp
        · rw [if_neg hmissing]
          exact .cons hfault' hnext (.refl fs _) (ih hloc hnext hmissing hrest _)
      · cases hlookup : fs.lookup loc (done ++ more) with
        | ok target => exact absurd (lookup_eq_ok_iff.mp hlookup).1 hnext
        | error e =>
            have hne : e ≠ .EEXIST := by
              rintro rfl
              exact lookup_ne_exists hlookup
            dsimp only
            rw [if_neg hne]
            exact .refused (.inr (blocked_of_not_open hopen hdone (hmores more (by simp)) hnext))

end

end FileSystem

end IgLibs
