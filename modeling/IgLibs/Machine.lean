import Mathlib.Data.List.Basic

namespace IgLibs.Machine

variable {σ τ α β : Type*}

-- Runs a partial step function along a list of labels. A step that faults,
-- or that the environment does not offer, has no result and ends the run.
def exec (step : σ → α → Option σ) : σ → List α → Option σ
  | state, [] => some state
  | state, label :: rest => (step state label).bind fun next => exec step next rest

-- Every step that the run takes meets a condition on the state before it and its label.
def Meets (step : σ → α → Option σ) (ok : σ → α → Prop) : σ → List α → Prop
  | _, [] => True
  | state, label :: rest =>
      ok state label ∧ ∀ next, step state label = some next → Meets step ok next rest

variable {step : σ → α → Option σ} {ok : σ → α → Prop}

@[simp] theorem exec_nil (state : σ) : exec step state [] = some state := rfl

@[simp] theorem exec_cons (state : σ) (label : α) (rest : List α) :
    exec step state (label :: rest) =
      (step state label).bind fun next => exec step next rest := rfl

theorem exec_cons_eq_some {state final : σ} {label : α} {rest : List α} :
    exec step state (label :: rest) = some final ↔
      ∃ next, step state label = some next ∧ exec step next rest = some final := by
  simp [Option.bind_eq_some_iff]

theorem exec_append (state : σ) (first second : List α) :
    exec step state (first ++ second) =
      (exec step state first).bind fun middle => exec step middle second := by
  induction first generalizing state with
  | nil => rfl
  | cons label rest ih =>
      simp only [List.cons_append, exec_cons, Option.bind_assoc]
      congr 1
      funext next
      exact ih next

theorem exec_append_eq_some {state final : σ} {first second : List α} :
    exec step state (first ++ second) = some final ↔
      ∃ middle, exec step state first = some middle ∧ exec step middle second = some final := by
  simp [exec_append, Option.bind_eq_some_iff]

theorem meets_append {state : σ} {first second : List α} :
    Meets step ok state (first ++ second) ↔
      Meets step ok state first ∧
        ∀ middle, exec step state first = some middle → Meets step ok middle second := by
  induction first generalizing state with
  | nil => simp [Meets]
  | cons label rest ih =>
      simp only [List.cons_append, Meets, ih, exec_cons_eq_some]
      constructor
      · rintro ⟨hok, hrest⟩
        refine ⟨⟨hok, fun next hnext => (hrest next hnext).1⟩, ?_⟩
        rintro middle ⟨next, hnext, hrun⟩
        exact (hrest next hnext).2 middle hrun
      · rintro ⟨⟨hok, hrest⟩, hsecond⟩
        exact ⟨hok, fun next hnext =>
          ⟨hrest next hnext, fun middle hrun => hsecond middle ⟨next, hnext, hrun⟩⟩⟩

theorem meets_of_forall {labels : List α} (hok : ∀ label ∈ labels, ∀ state, ok state label)
    (state : σ) : Meets step ok state labels := by
  induction labels generalizing state with
  | nil => trivial
  | cons label rest ih =>
      exact ⟨hok label (by simp) state,
        fun next _ => ih (fun other hmem => hok other (by simp [hmem])) next⟩

-- A property kept by every step that meets the condition holds along the whole run.
theorem exec_invariant_of_meets (inv : σ → Prop)
    (hstep : ∀ state label next, inv state → ok state label → step state label = some next → inv next)
    {state final : σ} {labels : List α} (hinv : inv state) (hok : Meets step ok state labels)
    (hrun : exec step state labels = some final) : inv final := by
  induction labels generalizing state with
  | nil => exact Option.some.inj hrun ▸ hinv
  | cons label rest ih =>
      obtain ⟨next, hnext, hrest⟩ := exec_cons_eq_some.mp hrun
      exact ih (hstep state label next hinv hok.1 hnext) (hok.2 next hnext) hrest

theorem exec_invariant (inv : σ → Prop)
    (hstep : ∀ state label next, inv state → step state label = some next → inv next)
    {state final : σ} {labels : List α} (hinv : inv state)
    (hrun : exec step state labels = some final) : inv final := by
  have hok : Meets step (fun _ _ => True) state labels :=
    meets_of_forall (fun _ _ _ => trivial) state
  apply exec_invariant_of_meets inv _ hinv hok hrun
  intro before label next hbefore _ hnext
  exact hstep before label next hbefore hnext

-- A flag that some labels raise and no step takes down.
theorem exec_flag_iff (inv flag : σ → Prop) (raises : α → Prop)
    (hinv : ∀ state label next, inv state → step state label = some next → inv next)
    (hflag : ∀ state label next, inv state → step state label = some next →
      (flag next ↔ flag state ∨ raises label))
    {state final : σ} {labels : List α} (hi : inv state)
    (hrun : exec step state labels = some final) :
    flag final ↔ flag state ∨ ∃ label ∈ labels, raises label := by
  induction labels generalizing state with
  | nil =>
      obtain rfl := Option.some.inj hrun
      simp
  | cons label rest ih =>
      obtain ⟨next, hnext, hrest⟩ := exec_cons_eq_some.mp hrun
      rw [ih (hinv state label next hi hnext) hrest, hflag state label next hi hnext]
      simp only [List.mem_cons, exists_eq_or_imp, or_assoc]

-- A step that breaks the condition dooms the state, and what is doomed stays so.
-- Then the last state alone tells whether every step met the condition.
theorem good_or_doomed (inv good doomed : σ → Prop)
    (hinv : ∀ state label next, inv state → step state label = some next → inv next)
    (hgood : ∀ state label next, inv state → good state → ok state label →
      step state label = some next → good next)
    (hbad : ∀ state label next, inv state → good state → ¬ok state label →
      step state label = some next → doomed next)
    (hdoomed : ∀ state label next, inv state → doomed state →
      step state label = some next → doomed next)
    {state final : σ} {labels : List α} (hi : inv state) (hg : good state)
    (hrun : exec step state labels = some final) :
    (Meets step ok state labels → good final) ∧ (¬Meets step ok state labels → doomed final) := by
  induction labels generalizing state with
  | nil =>
      obtain rfl := Option.some.inj hrun
      exact ⟨fun _ => hg, fun hno => absurd trivial hno⟩
  | cons label rest ih =>
      obtain ⟨next, hnext, hrest⟩ := exec_cons_eq_some.mp hrun
      have hi' := hinv state label next hi hnext
      by_cases hok : ok state label
      · obtain ⟨hmeets, hfails⟩ := ih hi' (hgood state label next hi hg hok hnext) hrest
        refine ⟨fun h => hmeets (h.2 next hnext), fun hno => hfails fun h => hno ⟨hok, ?_⟩⟩
        intro other hother
        exact Option.some.inj (hnext.symm.trans hother) ▸ h
      · refine ⟨fun h => absurd h.1 hok, fun _ => ?_⟩
        have hend : inv final ∧ doomed final :=
          exec_invariant (fun s => inv s ∧ doomed s)
            (fun s l s' hs hstep => ⟨hinv s l s' hs.1 hstep, hdoomed s l s' hs.1 hs.2 hstep⟩)
            ⟨hi', hbad state label next hi hg hok hnext⟩ hrest
        exact hend.2

-- When each step is good exactly if it meets the condition, a run meets the condition
-- exactly if all the states it reaches are good.
theorem meets_iff_forall_prefix (inv good : σ → Prop)
    (hinv : ∀ state label next, inv state → step state label = some next → inv next)
    (hgood : ∀ state label next, inv state → good state → step state label = some next →
      (good next ↔ ok state label))
    (hnone : ∀ state label, step state label = none → ok state label)
    {state : σ} {labels : List α} (hi : inv state) (hg : good state) :
    Meets step ok state labels ↔
      ∀ first final, first <+: labels → exec step state first = some final → good final := by
  induction labels generalizing state with
  | nil =>
      refine ⟨fun _ first final hfirst hrun => ?_, fun _ => trivial⟩
      obtain rfl := List.prefix_nil.mp hfirst
      exact Option.some.inj hrun ▸ hg
  | cons label rest ih =>
      constructor
      · rintro ⟨hok, hmeets⟩ first final hfirst hrun
        cases first with
        | nil => exact Option.some.inj hrun ▸ hg
        | cons head tail =>
            obtain ⟨rfl, htail⟩ := List.cons_prefix_cons.mp hfirst
            obtain ⟨next, hnext, hrest⟩ := exec_cons_eq_some.mp hrun
            have hg' := (hgood state head next hi hg hnext).mpr hok
            exact (ih (hinv state head next hi hnext) hg').mp (hmeets next hnext) tail final htail hrest
      · intro hall
        cases hstep : step state label with
        | none => exact ⟨hnone state label hstep, fun next hnext => by simp [hstep] at hnext⟩
        | some next =>
            have hg' : good next := by
              refine hall [label] next (List.cons_prefix_cons.mpr ⟨rfl, List.nil_prefix⟩) ?_
              exact exec_cons_eq_some.mpr ⟨next, hstep, rfl⟩
            refine ⟨(hgood state label next hi hg hstep).mp hg', ?_⟩
            intro other hother
            obtain rfl := Option.some.inj (hstep.symm.trans hother)
            refine (ih (hinv state label next hi hstep) hg').mpr fun first final hfirst hrun => ?_
            refine hall (label :: first) final (List.cons_prefix_cons.mpr ⟨rfl, hfirst⟩) ?_
            exact exec_cons_eq_some.mpr ⟨next, hstep, hrun⟩

-- An abstract machine that follows another one, and refuses exactly the steps behind which the
-- state is not good, accepts exactly the runs on which all the states are good.
theorem accepts_iff_forall_prefix {ρ : Type*} {abs : ρ → α → Option ρ} (follows : ρ → σ → Prop)
    (good : σ → Prop)
    (hstep : ∀ phase state label next, follows phase state → step state label = some next →
      (∃ phase', abs phase label = some phase' ∧ follows phase' next ∧ good next) ∨
        abs phase label = none ∧ ¬good next)
    {phase : ρ} {state final : σ} {labels : List α} (hf : follows phase state) (hg : good state)
    (hrun : exec step state labels = some final) :
    (∃ last, exec abs phase labels = some last) ↔
      ∀ first middle, first <+: labels → exec step state first = some middle → good middle := by
  induction labels generalizing phase state with
  | nil =>
      refine iff_of_true ⟨phase, rfl⟩ fun first middle hfirst hmiddle => ?_
      obtain rfl := List.prefix_nil.mp hfirst
      exact Option.some.inj hmiddle ▸ hg
  | cons label rest ih =>
      obtain ⟨next, hnext, hrest⟩ := exec_cons_eq_some.mp hrun
      rcases hstep phase state label next hf hnext with ⟨phase', hphase, hf', hg'⟩ | ⟨hnone, hbad⟩
      · rw [exec_cons, hphase, Option.bind_some, ih hf' hg' hrest]
        constructor
        · intro hall first middle hfirst hmiddle
          cases first with
          | nil => exact Option.some.inj hmiddle ▸ hg
          | cons head tail =>
              obtain ⟨rfl, htail⟩ := List.cons_prefix_cons.mp hfirst
              obtain ⟨other, hother, hmiddle⟩ := exec_cons_eq_some.mp hmiddle
              obtain rfl := Option.some.inj (hnext.symm.trans hother)
              exact hall tail middle htail hmiddle
        · intro hall first middle hfirst hmiddle
          exact hall (label :: first) middle (List.cons_prefix_cons.mpr ⟨rfl, hfirst⟩)
            (exec_cons_eq_some.mpr ⟨next, hnext, hmiddle⟩)
      · refine iff_of_false ?_ fun hall => hbad (hall [label] next ?_ ?_)
        · rintro ⟨last, hlast⟩
          rw [exec_cons, hnone] at hlast
          cases hlast
        · exact List.cons_prefix_cons.mpr ⟨rfl, List.nil_prefix⟩
        · exact exec_cons_eq_some.mpr ⟨next, hnext, rfl⟩

-- No step that meets the condition faults, so a run that meets it reaches its end.
theorem exec_total_of_meets (inv : σ → Prop)
    (hstep : ∀ state label, inv state → ok state label →
      ∃ next, step state label = some next ∧ inv next)
    {state : σ} {labels : List α} (hinv : inv state) (hok : Meets step ok state labels) :
    ∃ final, exec step state labels = some final ∧ inv final := by
  induction labels generalizing state with
  | nil => exact ⟨state, rfl, hinv⟩
  | cons label rest ih =>
      obtain ⟨next, hnext, hi⟩ := hstep state label hinv hok.1
      obtain ⟨final, hf, hi⟩ := ih hi (hok.2 next hnext)
      exact ⟨final, exec_cons_eq_some.mpr ⟨next, hnext, hf⟩, hi⟩

theorem exec_total (inv : σ → Prop)
    (hstep : ∀ state label, inv state → ∃ next, step state label = some next ∧ inv next)
    {state : σ} (labels : List α) (hinv : inv state) :
    ∃ final, exec step state labels = some final ∧ inv final :=
  exec_total_of_meets inv (fun state label hi _ => hstep state label hi) hinv
    (@meets_of_forall _ _ step (fun _ _ => True) labels (fun _ _ _ => trivial) state)

-- The number of labels that meet a condition in their turn, along a run whose steps all have
-- a result.
def tally (step : σ → α → σ) (ok : σ → α → Bool) : σ → List α → Nat
  | _, [] => 0
  | state, label :: rest =>
      (if ok state label then 1 else 0) + tally step ok (step state label) rest

section

variable (step : σ → α → σ) (ok : σ → α → Bool)

theorem tally_le_length (state : σ) (labels : List α) :
    tally step ok state labels ≤ labels.length := by
  induction labels generalizing state with
  | nil => exact Nat.le_refl 0
  | cons label rest ih =>
      have hrest := ih (step state label)
      rw [tally, List.length_cons]
      split <;> omega

-- All labels are counted exactly when each of them meets the condition.
theorem tally_eq_length_iff (state : σ) (labels : List α) :
    tally step ok state labels = labels.length ↔
      Meets (fun s l => some (step s l)) (fun s l => ok s l = true) state labels := by
  induction labels generalizing state with
  | nil => exact iff_of_true rfl trivial
  | cons label rest ih =>
      have hle := tally_le_length step ok (step state label) rest
      rw [tally, Meets, List.length_cons]
      simp only [Option.some.injEq, forall_eq']
      rw [← ih]
      split
      · rename_i hok
        exact ⟨fun h => ⟨hok, by omega⟩, fun h => by omega⟩
      · rename_i hok
        exact ⟨fun h => by omega, fun h => absurd h.1 hok⟩

end

-- What calls that always answer give, one after another.
def outputs (call : σ → α → σ × β) : σ → List α → List β
  | _, [] => []
  | state, label :: rest => (call state label).2 :: outputs call (call state label).1 rest

-- Two machines answer alike if related states do, and stay related.
theorem outputs_eq {ρ : Type*} {call : σ → α → σ × β} {abs : ρ → α → ρ × β} (follows : ρ → σ → Prop)
    (hcall : ∀ r s label, follows r s →
      (abs r label).2 = (call s label).2 ∧ follows (abs r label).1 (call s label).1)
    {r : ρ} {s : σ} (labels : List α) (h : follows r s) :
    outputs call s labels = outputs abs r labels := by
  induction labels generalizing r s with
  | nil => rfl
  | cons label rest ih =>
      obtain ⟨hanswer, hnext⟩ := hcall r s label h
      rw [outputs, outputs, hanswer, ih hnext]

-- A loop without labels: the same step over and over. A state at the end steps to itself.
def iter (step : σ → Option σ) : Nat → σ → Option σ
  | 0, state => some state
  | k + 1, state => (step state).bind (iter step k)

section

variable {step : σ → Option σ}

theorem iter_succ_eq_some {state final : σ} {k : Nat} :
    iter step (k + 1) state = some final ↔
      ∃ next, step state = some next ∧ iter step k next = some final := by
  rw [iter, Option.bind_eq_some_iff]

theorem iter_succ (k : Nat) (state : σ) :
    iter step (k + 1) state = (iter step k state).bind step := by
  induction k generalizing state with
  | zero => simp [iter]
  | succ k ih =>
      rw [iter, iter, Option.bind_assoc]
      congr 1
      funext next
      exact ih next

theorem iter_succ_of {state next : σ} {k : Nat} (hrun : iter step k state = some next) :
    iter step (k + 1) state = step next := by
  rw [iter_succ, hrun, Option.bind_some]

theorem iter_invariant (inv : σ → Prop)
    (hstep : ∀ state next, inv state → step state = some next → inv next)
    {state final : σ} {k : Nat} (hinv : inv state) (hrun : iter step k state = some final) :
    inv final := by
  induction k generalizing state with
  | zero => exact Option.some.inj hrun ▸ hinv
  | succ k ih =>
      obtain ⟨next, hnext, hrest⟩ := iter_succ_eq_some.mp hrun
      exact ih (hstep state next hinv hnext) hrest

variable (step) in
-- A loop whose steps lower a rank until they reach the end comes to its end.
theorem iter_reaches {ρ : Type*} {lower : ρ → ρ → Prop} (hlower : WellFounded lower)
    (inv : σ → ρ → Prop) (done : σ → Prop) {start : σ} {rank : ρ}
    (hstep : ∀ k state rank, iter step k start = some state → inv state rank → ¬done state →
      ∃ next rank', step state = some next ∧ inv next rank' ∧ lower rank' rank)
    (hinv : inv start rank) :
    ∃ k final rank', iter step k start = some final ∧ done final ∧ inv final rank' := by
  have hreach : ∀ rank k state, iter step k start = some state → inv state rank →
      ∃ k final rank', iter step k start = some final ∧ done final ∧ inv final rank' := by
    intro rank
    induction rank using hlower.induction with
    | _ rank ih =>
        intro k state hrun hinv
        by_cases hdone : done state
        · exact ⟨k, state, rank, hrun, hdone, hinv⟩
        · obtain ⟨next, rank', hnext, hinv', hless⟩ := hstep k state rank hrun hinv hdone
          exact ih rank' hless (k + 1) next ((iter_succ_of hrun).trans hnext) hinv'
  exact hreach rank 0 start rfl hinv

theorem iter_of_fixed {state : σ} (hfixed : step state = some state) (k : Nat) :
    iter step k state = some state := by
  induction k with
  | zero => rfl
  | succ k ih => exact iter_succ_eq_some.mpr ⟨state, hfixed, ih⟩

theorem iter_add (first second : Nat) (state : σ) :
    iter step (first + second) state = (iter step first state).bind (iter step second) := by
  induction first generalizing state with
  | zero => rw [Nat.zero_add, iter, Option.bind_some]
  | succ first ih =>
      rw [Nat.succ_add, iter, iter, Option.bind_assoc]
      congr 1
      funext next
      exact ih next

-- Once at the end, the loop stays there.
theorem iter_of_le {state final : σ} {k k' : Nat} (hrun : iter step k state = some final)
    (hfixed : step final = some final) (hle : k ≤ k') : iter step k' state = some final := by
  obtain ⟨more, rfl⟩ := Nat.exists_eq_add_of_le hle
  rw [iter_add, hrun, Option.bind_some, iter_of_fixed hfixed]

theorem iter_ne_none {state final : σ} {k : Nat} (hrun : iter step k state = some final)
    (hfixed : step final = some final) (k' : Nat) : iter step k' state ≠ none := by
  rcases Nat.le_total k k' with hle | hle
  · rw [iter_of_le hrun hfixed hle]
    exact Option.some_ne_none final
  · obtain ⟨more, rfl⟩ := Nat.exists_eq_add_of_le hle
    intro hnone
    rw [iter_add, hnone] at hrun
    cases hrun

end

end IgLibs.Machine
