import IgLibs.Machine
import Mathlib.Logic.Function.Basic

namespace IgLibs.Singleton

open Machine

-- Where a thread stands in GetInstance. A pointer is the number of an allocation, none is NULL.
inductive Stage
  | out | look | lock | look_again | alloc | store (pointer : Option Nat) | unlock | load
  | returned (pointer : Option Nat)
deriving DecidableEq

-- Threads that share m_instance and m_lock, one access at a time and in one order for all.
-- `allocated` counts the objects that new has made.
structure Shared (T : Type*) where
  instance_ : Option Nat
  lock : Option T
  stage : T → Stage
  allocated : Nat

-- `fault` is for the call of new, which gives NULL then.
def step {T : Type*} [DecidableEq T] (s : Shared T) : T × Bool → Option (Shared T)
  | (t, fault) =>
      let turn (s : Shared T) (stage : Stage) : Shared T :=
        { s with stage := Function.update s.stage t stage }
      match s.stage t with
      | .out | .returned _ => some (turn s .look)
      | .look => some (turn s (if s.instance_ = none then .lock else .load))
      | .lock => if s.lock = none then some (turn { s with lock := some t } .look_again) else none
      | .look_again => some (turn s (if s.instance_ = none then .alloc else .unlock))
      | .alloc =>
          if fault then some (turn s (.store none))
          else some (turn { s with allocated := s.allocated + 1 } (.store (some s.allocated)))
      | .store pointer => some (turn { s with instance_ := pointer } .unlock)
      | .unlock => some (turn { s with lock := none } .load)
      | .load => some (turn s (.returned s.instance_))

def start (T : Type*) : Shared T := ⟨none, none, fun _ => .out, 0⟩

-- A thread with the mutex.
def Stage.inside : Stage → Bool
  | .look_again | .alloc | .store _ | .unlock => true
  | _ => false

-- What a thread knows of m_instance at a stage.
def Knows {T : Type*} (s : Shared T) : Stage → Prop
  | .alloc => s.instance_ = none ∧ s.allocated = 0
  | .store none => s.instance_ = none ∧ s.allocated = 0
  | .store (some pointer) => s.instance_ = none ∧ pointer = 0 ∧ s.allocated = 1
  | .returned (some pointer) => s.instance_ = some pointer
  | _ => True

-- No object is made before the last one is stored, and m_instance keeps the first one.
structure Sound {T : Type*} (s : Shared T) : Prop where
  inside : ∀ t, (s.stage t).inside = true ↔ s.lock = some t
  knows : ∀ t, Knows s (s.stage t)
  made : s.allocated = 0 ∨ s.allocated = 1
  first : ∀ pointer, s.instance_ = some pointer → pointer = 0 ∧ s.allocated = 1
  stored : s.instance_ = none → s.allocated = 1 →
    ∃ t, s.lock = some t ∧ s.stage t = .store (some 0)

section

variable {T : Type*} {s s' : Shared T} {t u : T} {stage : Stage}

-- A thread without the mutex knows of m_instance only what it has returned.
theorem knows_outside (hout : stage.inside = false) (hknows : Knows s stage)
    (hkeeps : ∀ pointer, s.instance_ = some pointer → s'.instance_ = some pointer) :
    Knows s' stage := by
  cases stage with
  | alloc | store pointer => cases hout
  | returned pointer =>
      cases pointer with
      | none => trivial
      | some pointer => exact hkeeps pointer hknows
  | _ => trivial

theorem Sound.outside (h : Sound s) (hholds : s.lock = some t) (hu : u ≠ t) :
    (s.stage u).inside = false := by
  by_contra hno
  have hlock := (h.inside u).mp (by simpa using hno)
  exact hu (Option.some.inj (hlock.symm.trans hholds))

variable [DecidableEq T]

-- A step that changes nothing but where its thread stands.
theorem Sound.turn (h : Sound s) (hin : stage.inside = (s.stage t).inside) (hknows : Knows s stage)
    (hstage : s.stage t ≠ .store (some 0)) :
    Sound { s with stage := Function.update s.stage t stage } := by
  refine ⟨fun u => ?_, fun u => ?_, h.made, h.first, fun hnone hmade => ?_⟩
  · change (Function.update s.stage t stage u).inside = true ↔ s.lock = some u
    by_cases hu : u = t
    · rw [hu, Function.update_self, hin, h.inside]
    · rw [Function.update_of_ne hu, h.inside]
  · change Knows s (Function.update s.stage t stage u)
    by_cases hu : u = t
    · rw [hu, Function.update_self]
      exact hknows
    · rw [Function.update_of_ne hu]
      exact h.knows u
  · obtain ⟨u, hholds, hstore⟩ := h.stored hnone hmade
    refine ⟨u, hholds, ?_⟩
    change Function.update s.stage t stage u = _
    rw [Function.update_of_ne, hstore]
    rintro rfl
    exact hstage hstore

-- A step of the thread with the mutex, which it keeps.
theorem Sound.work {made : Nat} {pointer : Option Nat} (h : Sound s)
    (hinside : (s.stage t).inside = true) (hin : stage.inside = true)
    (hkeeps : ∀ p, s.instance_ = some p → pointer = some p)
    (hknows : Knows (⟨pointer, s.lock, s.stage, made⟩ : Shared T) stage)
    (hmade : made = 0 ∨ made = 1) (hfirst : ∀ p, pointer = some p → p = 0 ∧ made = 1)
    (hstored : pointer = none → made = 1 → stage = .store (some 0)) :
    Sound ⟨pointer, s.lock, Function.update s.stage t stage, made⟩ := by
  have hholds := (h.inside t).mp hinside
  refine ⟨fun u => ?_, fun u => ?_, hmade, hfirst, fun hnone hone => ⟨t, hholds, ?_⟩⟩
  · change (Function.update s.stage t stage u).inside = true ↔ s.lock = some u
    by_cases hu : u = t
    · rw [hu, Function.update_self]
      exact iff_of_true hin hholds
    · rw [Function.update_of_ne hu, h.inside]
  · change Knows _ (Function.update s.stage t stage u)
    by_cases hu : u = t
    · rw [hu, Function.update_self]
      exact hknows
    · rw [Function.update_of_ne hu]
      exact knows_outside (h.outside hholds hu) (h.knows u) hkeeps
  · change Function.update s.stage t stage t = _
    rw [Function.update_self, hstored hnone hone]

theorem sound_lock (h : Sound s) (hfree : s.lock = none) (t : T) :
    Sound { s with lock := some t, stage := Function.update s.stage t .look_again } := by
  refine ⟨fun u => ?_, fun u => ?_, h.made, h.first, fun hnone hmade => ?_⟩
  · change (Function.update s.stage t .look_again u).inside = true ↔ some t = some u
    by_cases hu : u = t
    · rw [hu, Function.update_self]
      exact iff_of_true rfl rfl
    · rw [Function.update_of_ne hu, h.inside, hfree]
      exact iff_of_false (Option.some_ne_none u).symm fun heq => hu (Option.some.inj heq).symm
  · change Knows s (Function.update s.stage t .look_again u)
    by_cases hu : u = t
    · rw [hu, Function.update_self]
      trivial
    · rw [Function.update_of_ne hu]
      exact h.knows u
  · obtain ⟨u, hholds, -⟩ := h.stored hnone hmade
    rw [hfree] at hholds
    cases hholds

theorem sound_unlock (h : Sound s) (hstage : s.stage t = .unlock) :
    Sound { s with lock := none, stage := Function.update s.stage t .load } := by
  have hholds := (h.inside t).mp (by rw [hstage]; rfl)
  refine ⟨fun u => ?_, fun u => ?_, h.made, h.first, fun hnone hmade => ?_⟩
  · change (Function.update s.stage t .load u).inside = true ↔ none = some u
    refine iff_of_false ?_ (Option.some_ne_none u).symm
    by_cases hu : u = t
    · rw [hu, Function.update_self]
      exact Bool.false_ne_true
    · rw [Function.update_of_ne hu, h.outside hholds hu]
      exact Bool.false_ne_true
  · change Knows s (Function.update s.stage t .load u)
    by_cases hu : u = t
    · rw [hu, Function.update_self]
      trivial
    · rw [Function.update_of_ne hu]
      exact h.knows u
  · obtain ⟨u, hu, hstore⟩ := h.stored hnone hmade
    obtain rfl := Option.some.inj (hu.symm.trans hholds)
    rw [hstage] at hstore
    cases hstore

theorem sound_step {label : T × Bool} (h : Sound s) (hstep : step s label = some s') : Sound s' := by
  obtain ⟨t, fault⟩ := label
  have hknows := h.knows t
  unfold step at hstep
  dsimp only at hstep
  cases hstage : s.stage t with
  | out | returned pointer =>
      rw [hstage] at hstep
      exact Option.some.inj hstep ▸ h.turn (by rw [hstage]; rfl) trivial (by rw [hstage]; simp)
  | look =>
      rw [hstage] at hstep
      refine Option.some.inj hstep ▸ h.turn ?_ ?_ (by rw [hstage]; simp)
      · rw [hstage]
        split <;> rfl
      · split <;> trivial
  | lock =>
      rw [hstage] at hstep
      dsimp only at hstep
      split at hstep
      · rename_i hfree
        exact Option.some.inj hstep ▸ sound_lock h hfree t
      · cases hstep
  | look_again =>
      rw [hstage] at hstep
      refine Option.some.inj hstep ▸ h.turn ?_ ?_ (by rw [hstage]; simp)
      · rw [hstage]
        split <;> rfl
      · split
        · rename_i hnone
          refine ⟨hnone, h.made.resolve_right fun hone => ?_⟩
          obtain ⟨u, hu, hstore⟩ := h.stored hnone hone
          obtain rfl := Option.some.inj (hu.symm.trans ((h.inside t).mp (by rw [hstage]; rfl)))
          rw [hstage] at hstore
          cases hstore
        · trivial
  | alloc =>
      rw [hstage] at hstep hknows
      obtain ⟨hnone, hzero⟩ := hknows
      have hin : (s.stage t).inside = true := by rw [hstage]; rfl
      dsimp only at hstep
      split at hstep
      · refine Option.some.inj hstep ▸ h.turn (by rw [hin]; rfl) ⟨hnone, hzero⟩ (by rw [hstage]; simp)
      · obtain rfl := Option.some.inj hstep
        refine h.work hin rfl (fun p hp => hp) ⟨hnone, hzero, ?_⟩ ?_ ?_ ?_
        · rw [hzero]
        · rw [hzero]
          exact .inr rfl
        · intro p hp
          rw [hnone] at hp
          cases hp
        · intro _ _
          rw [hzero]
  | store pointer =>
      rw [hstage] at hstep hknows
      obtain rfl := Option.some.inj hstep
      have hin : (s.stage t).inside = true := by rw [hstage]; rfl
      cases pointer with
      | none =>
          obtain ⟨hnone, hzero⟩ := hknows
          refine h.work hin rfl ?_ trivial h.made ?_ fun _ hone => ?_
          · intro p hp
            rw [hnone] at hp
            cases hp
          · rintro p ⟨⟩
          · rw [hzero] at hone
            cases hone
      | some pointer =>
          obtain ⟨hnone, rfl, hone⟩ := hknows
          refine h.work hin rfl ?_ trivial h.made ?_ fun hno => absurd hno (Option.some_ne_none 0)
          · intro p hp
            rw [hnone] at hp
            cases hp
          · intro p hp
            exact ⟨(Option.some.inj hp).symm, hone⟩
  | unlock =>
      rw [hstage] at hstep
      exact Option.some.inj hstep ▸ sound_unlock h hstage
  | load =>
      rw [hstage] at hstep
      refine Option.some.inj hstep ▸ h.turn (by rw [hstage]; rfl) ?_ (by rw [hstage]; simp)
      cases hpointer : s.instance_ with
      | none => trivial
      | some pointer => exact hpointer

-- However many threads call GetInstance, and however their accesses interleave and new fails: at
-- most one object is made, and each call returns NULL or that object.
theorem one_instance {labels : List (T × Bool)} (hrun : exec step (start T) labels = some s) :
    s.allocated ≤ 1 ∧ ∀ t pointer, s.stage t = .returned (some pointer) →
      pointer = 0 ∧ s.instance_ = some 0 ∧ s.allocated = 1 := by
  have hstart : Sound (start T) := by
    refine ⟨fun t => ?_, fun t => trivial, .inl rfl, ?_, fun _ hone => ?_⟩
    · exact iff_of_false Bool.false_ne_true (Option.some_ne_none t).symm
    · rintro p ⟨⟩
    · cases hone
  have hsound : Sound s :=
    exec_invariant Sound (fun s label s' h hstep => sound_step h hstep) hstart hrun
  refine ⟨?_, fun t pointer hreturned => ?_⟩
  · rcases hsound.made with hmade | hmade <;> omega
  · have hknows := hsound.knows t
    rw [hreturned] at hknows
    obtain ⟨rfl, hone⟩ := hsound.first pointer hknows
    exact ⟨rfl, hknows, hone⟩

end

def two_calls : List (Bool × Bool) :=
  [(true, false), (false, false), (true, false), (false, false), (true, false), (true, false),
    (true, false), (true, false), (true, false), (true, false), (false, false), (false, false),
    (false, false), (false, false)]

theorem one_instance_of_two_calls :
    ((exec step (start Bool) two_calls).get (by decide)).allocated ≤ 1 ∧
      ∀ t pointer, ((exec step (start Bool) two_calls).get (by decide)).stage t =
        .returned (some pointer) → pointer = 0 ∧
          ((exec step (start Bool) two_calls).get (by decide)).instance_ = some 0 ∧
          ((exec step (start Bool) two_calls).get (by decide)).allocated = 1 :=
  one_instance (Option.some_get _).symm

end IgLibs.Singleton
