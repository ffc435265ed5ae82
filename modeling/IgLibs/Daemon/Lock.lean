import IgLibs.Machine
import IgLibs.Printf
import Mathlib.Data.List.Induction
import Mathlib.Logic.Function.Basic

namespace IgLibs.Daemon

open Machine CString Printf

-- The loop that writes the digits of the pid into an array of 16 bytes, from its end on.
def pid_digits : Nat → Nat → List UInt8 → List UInt8
  | 0, _, buf => buf
  | room + 1, pid, buf => if 0 < pid then pid_digits room (pid / 10) (digit pid :: buf) else buf

-- Where a process stands in daemon_lock. A code that is not negative is the descriptor.
inductive Stage
  | out | opening | locking (fd : Nat) | truncating (fd : Nat) | writing (fd : Nat)
  | returned (code : Int)
deriving DecidableEq

-- What the processes share: the file, if it is there, and its record lock, which goes with the
-- process that has it.
structure Lockfile (P : Type*) where
  contents : Option (List UInt8)
  owner : Option P
  stage : P → Stage

-- `calls` is daemon_lock, with fpath NULL or not. open gives a descriptor or fails, the fault of
-- `locks` is an error of fcntl other than EACCES and EAGAIN, that of `truncates` any of ftruncate,
-- and write takes `count` bytes, or none. A process may end wherever it stands.
inductive Event
  | calls (null : Bool)
  | opens (fd : Option Nat)
  | locks (fault : Bool)
  | truncates (fault : Bool)
  | writes (count : Nat)
  | exits
deriving DecidableEq

section

variable {P : Type*} [DecidableEq P]

def turn (s : Lockfile P) (p : P) (stage : Stage) : Lockfile P :=
  { s with stage := Function.update s.stage p stage }

def step (pid : P → Nat) (s : Lockfile P) : P × Event → Option (Lockfile P)
  | (p, .calls null) =>
      match s.stage p with
      | .out | .returned _ => some (turn s p (if null then .returned (-1) else .opening))
      | _ => none
  | (p, .opens fd) =>
      match s.stage p, fd with
      | .opening, none => some (turn s p (.returned (-1)))
      | .opening, some fd =>
          some (turn { s with contents := some (s.contents.getD []) } p (.locking fd))
      | _, _ => none
  | (p, .locks fault) =>
      match s.stage p with
      | .locking fd =>
          if fault then some (turn s p (.returned (-2)))
          else if s.owner = none ∨ s.owner = some p then
            some (turn { s with owner := some p } p
              (if 0 < (pid_digits 16 (pid p) []).length then .truncating fd else .returned fd))
          else some (turn s p (.returned (-1)))
      | _ => none
  | (p, .truncates fault) =>
      match s.stage p with
      | .truncating fd =>
          some (turn { s with contents := if fault then s.contents else some [] } p (.writing fd))
      | _ => none
  | (p, .writes count) =>
      match s.stage p with
      | .writing fd =>
          let buf := (pid_digits 16 (pid p) []).take count
          some (turn { s with contents := some (buf ++ (s.contents.getD []).drop buf.length) } p
            (.returned fd))
      | _ => none
  | (p, .exits) =>
      some (turn { s with owner := if s.owner = some p then none else s.owner } p .out)

end

def start (P : Type*) (contents : Option (List UInt8)) : Lockfile P :=
  ⟨contents, none, fun _ => .out⟩

theorem pid_digits_zero (room : Nat) (buf : List UInt8) : pid_digits room 0 buf = buf := by
  cases room <;> rfl

-- The array has room for every pid.
theorem pid_digits_eq {room pid : Nat} {buf : List UInt8} (hpos : 0 < pid) (hroom : pid < 10 ^ room) :
    pid_digits room pid buf = digits pid ++ buf := by
  induction room generalizing pid buf with
  | zero => omega
  | succ room ih =>
      rw [pid_digits, if_pos hpos]
      by_cases hsmall : pid < 10
      · rw [Nat.div_eq_of_lt hsmall, pid_digits_zero, digits_of_lt hsmall]
        rfl
      · have hpow : 10 ^ (room + 1) = 10 ^ room * 10 := Nat.pow_succ ..
        rw [ih (by omega) (Nat.div_lt_of_lt_mul (by omega)), digits_of_le (by omega : 10 ≤ pid),
          List.append_assoc]
        rfl

theorem pid_digits_of_pid {pid : Nat} (hpid : 0 < pid ∧ pid < 2 ^ 31) :
    pid_digits 16 pid [] = digits pid := by
  rw [pid_digits_eq hpid.1 (by omega), List.append_nil]

theorem length_pid_digits_pos {pid : Nat} (hpid : 0 < pid ∧ pid < 2 ^ 31) :
    0 < (pid_digits 16 pid []).length := by
  rw [pid_digits_of_pid hpid]
  exact length_digits_pos pid

theorem owner_unique {P : Type*} {s : Lockfile P} {p : P} (hholds : s.owner = some p) (q : P)
    (hq : q ≠ p) : s.owner ≠ some q := by
  intro hno
  exact hq (Option.some.inj (hno.symm.trans hholds))

-- A process that has been told that it has the lock.
def Stage.Running (stage : Stage) : Prop := ∃ fd : Nat, stage = .returned fd

section

variable {P : Type*} [DecidableEq P]

-- What a process has done in a run.
def own (p : P) (labels : List (P × Event)) : List Event :=
  (labels.filter fun label => label.1 = p).map Prod.snd

theorem own_cons_self (p : P) (event : Event) (labels : List (P × Event)) :
    own p ((p, event) :: labels) = event :: own p labels := by
  simp [own]

theorem own_cons_of_ne {p q : P} (h : q ≠ p) (event : Event) (labels : List (P × Event)) :
    own p ((q, event) :: labels) = own p labels := by
  simp [own, h]

theorem own_concat (p q : P) (event : Event) (labels : List (P × Event)) :
    own p (labels ++ [(q, event)]) = own p labels ++ if q = p then [event] else [] := by
  by_cases h : q = p <;> simp [own, h]

end

-- A process past fcntl has the lock, and what the file holds is what this process has made of it
-- with its last calls, in so far as they have not failed.
structure Guarded {P : Type*} [DecidableEq P] (pid : P → Nat) (labels : List (P × Event))
    (s : Lockfile P) : Prop where
  truncating : ∀ p fd, s.stage p = .truncating fd → s.owner = some p
  writing : ∀ p fd, s.stage p = .writing fd → s.owner = some p ∧
    ∃ before fault, own p labels = before ++ [.truncates fault] ∧
      (fault = false → s.contents = some [])
  running : ∀ p, (s.stage p).Running → s.owner = some p ∧
    ∃ before fault count, own p labels = before ++ [.truncates fault, .writes count] ∧
      (fault = false → s.contents = some ((digits (pid p)).take count))

section

variable {P : Type*} [DecidableEq P] {pid : P → Nat} {s s' : Lockfile P} {p q : P} {stage : Stage}
  {event : Event} {labels : List (P × Event)}

theorem stage_turn (s : Lockfile P) (p q : P) (stage : Stage) :
    (turn s p stage).stage q = if q = p then stage else s.stage q := Function.update_apply ..

-- A step that takes nothing from the others: they keep the lock and find the file as it was.
theorem Guarded.turn {contents : Option (List UInt8)} {owner : Option P}
    (h : Guarded pid labels s) (event : Event)
    (howner : ∀ q, q ≠ p → s.owner = some q → owner = some q)
    (hcontents : ∀ q, q ≠ p → s.owner = some q → s.contents ≠ none → contents = s.contents)
    (htruncating : ∀ fd, stage = .truncating fd → owner = some p)
    (hwriting : ∀ fd, stage = .writing fd → owner = some p ∧
      ∃ before fault, own p labels ++ [event] = before ++ [.truncates fault] ∧
        (fault = false → contents = some []))
    (hrunning : stage.Running → owner = some p ∧
      ∃ before fault count,
        own p labels ++ [event] = before ++ [.truncates fault, .writes count] ∧
          (fault = false → contents = some ((digits (pid p)).take count))) :
    Guarded pid (labels ++ [(p, event)]) (turn ⟨contents, owner, s.stage⟩ p stage) := by
  refine ⟨fun q fd hq => ?_, fun q fd hq => ?_, fun q hq => ?_⟩
  · rw [stage_turn] at hq
    split at hq
    · rename_i hqp
      rw [hqp]
      exact htruncating fd hq
    · rename_i hqp
      exact howner q hqp (h.truncating q fd hq)
  · rw [stage_turn] at hq
    rw [own_concat]
    split at hq
    · rename_i hqp
      rw [hqp, if_pos rfl]
      exact hwriting fd hq
    · rename_i hqp
      obtain ⟨hholds, before, fault, hown, hempty⟩ := h.writing q fd hq
      rw [if_neg (Ne.symm hqp), List.append_nil]
      refine ⟨howner q hqp hholds, before, fault, hown, fun hfault => ?_⟩
      have hempty := hempty hfault
      exact (hcontents q hqp hholds (by simp [hempty])).trans hempty
  · rw [stage_turn] at hq
    rw [own_concat]
    split at hq
    · rename_i hqp
      rw [hqp, if_pos rfl]
      exact hrunning hq
    · rename_i hqp
      obtain ⟨hholds, before, fault, count, hown, htext⟩ := h.running q hq
      rw [if_neg (Ne.symm hqp), List.append_nil]
      refine ⟨howner q hqp hholds, before, fault, count, hown, fun hfault => ?_⟩
      have htext := htext hfault
      exact (hcontents q hqp hholds (by simp [htext])).trans htext

-- A step that only moves its process, to a stage that claims nothing.
theorem Guarded.move (h : Guarded pid labels s) (p : P) (event : Event)
    (hstage : stage = .out ∨ stage = .opening ∨ (∃ fd, stage = .locking fd) ∨
      ∃ code : Int, code < 0 ∧ stage = .returned code) :
    Guarded pid (labels ++ [(p, event)]) (IgLibs.Daemon.turn s p stage) := by
  apply h.turn event (fun q _ hq => hq) (fun q _ _ _ => rfl)
  · rintro fd rfl
    simp at hstage
  · rintro fd rfl
    simp at hstage
  · rintro ⟨fd, rfl⟩
    simp only [reduceCtorEq, exists_false, false_or, Stage.returned.injEq] at hstage
    obtain ⟨code, hneg, heq⟩ := hstage
    omega

theorem guarded_step {label : P × Event} (hpid : ∀ p, 0 < pid p ∧ pid p < 2 ^ 31)
    (h : Guarded pid labels s) (hstep : step pid s label = some s') :
    Guarded pid (labels ++ [label]) s' := by
  obtain ⟨p, event⟩ := label
  unfold step at hstep
  cases event with
  | calls null =>
      have hmove : Guarded pid (labels ++ [(p, .calls null)])
          (IgLibs.Daemon.turn s p (if null then .returned (-1) else .opening)) := by
        cases null with
        | false => exact h.move p _ (.inr (.inl rfl))
        | true => exact h.move p _ (.inr (.inr (.inr ⟨-1, by decide, rfl⟩)))
      dsimp only at hstep
      split at hstep
      · exact Option.some.inj hstep ▸ hmove
      · exact Option.some.inj hstep ▸ hmove
      · cases hstep
  | opens fd =>
      dsimp only at hstep
      split at hstep
      · exact Option.some.inj hstep ▸ h.move p _ (.inr (.inr (.inr ⟨-1, by decide, rfl⟩)))
      · obtain rfl := Option.some.inj hstep
        apply h.turn _ (fun q _ hq => hq)
        · intro q _ _ hthere
          cases hcontents : s.contents with
          | none => exact absurd hcontents hthere
          | some text => rfl
        · rintro fd ⟨⟩
        · rintro fd ⟨⟩
        · rintro ⟨fd, ⟨⟩⟩
      · cases hstep
  | locks fault =>
      dsimp only at hstep
      split at hstep
      · split at hstep
        · exact Option.some.inj hstep ▸ h.move p _ (.inr (.inr (.inr ⟨-2, by decide, rfl⟩)))
        · split at hstep
          · rename_i hfree
            have hother : ∀ q, q ≠ p → s.owner ≠ some q := by
              rcases hfree with hnone | hholds
              · intro q _ hno
                rw [hnone] at hno
                cases hno
              · exact owner_unique hholds
            rw [if_pos (length_pid_digits_pos (hpid p))] at hstep
            obtain rfl := Option.some.inj hstep
            apply h.turn _ (fun q hq hholds => absurd hholds (hother q hq)) (fun q _ _ _ => rfl)
            · exact fun fd _ => rfl
            · rintro fd ⟨⟩
            · rintro ⟨fd, ⟨⟩⟩
          · exact Option.some.inj hstep ▸ h.move p _ (.inr (.inr (.inr ⟨-1, by decide, rfl⟩)))
      · cases hstep
  | truncates fault =>
      dsimp only at hstep
      split at hstep
      · rename_i fd hstage
        have hholds := h.truncating p fd hstage
        obtain rfl := Option.some.inj hstep
        apply h.turn _ (fun q _ hq => hq) (fun q hq hno => absurd hno (owner_unique hholds q hq))
        · exact fun _ _ => hholds
        · refine fun _ _ => ⟨hholds, _, fault, rfl, fun hfault => ?_⟩
          rw [hfault]
          rfl
        · rintro ⟨fd, ⟨⟩⟩
      · cases hstep
  | writes count =>
      dsimp only at hstep
      split at hstep
      · rename_i fd hstage
        obtain ⟨hholds, before, fault, hown, hempty⟩ := h.writing p fd hstage
        obtain rfl := Option.some.inj hstep
        apply h.turn _ (fun q _ hq => hq) (fun q hq hno => absurd hno (owner_unique hholds q hq))
        · rintro fd ⟨⟩
        · rintro fd ⟨⟩
        · refine fun _ => ⟨hholds, before, fault, count, ?_, fun hfault => ?_⟩
          · rw [hown, List.append_assoc]
            rfl
          · rw [hempty hfault, Option.getD_some, List.drop_nil, List.append_nil,
              pid_digits_of_pid (hpid p)]
      · cases hstep
  | exits =>
      obtain rfl := Option.some.inj hstep
      apply h.turn
      · intro q hq hholds
        rw [if_neg, hholds]
        rw [hholds]
        exact fun hno => hq (Option.some.inj hno)
      · exact fun q _ _ _ => rfl
      · rintro fd ⟨⟩
      · rintro fd ⟨⟩
      · rintro ⟨fd, ⟨⟩⟩

theorem guarded_of_run {contents : Option (List UInt8)}
    (hpid : ∀ p, 0 < pid p ∧ pid p < 2 ^ 31)
    (hrun : exec (step pid) (start P contents) labels = some s) : Guarded pid labels s := by
  induction labels using List.reverseRecOn generalizing s with
  | nil =>
      obtain rfl := Option.some.inj hrun
      refine ⟨?_, ?_, ?_⟩
      · rintro p fd ⟨⟩
      · rintro p fd ⟨⟩
      · rintro p ⟨fd, ⟨⟩⟩
  | append_singleton labels label ih =>
      obtain ⟨middle, hmiddle, hlast⟩ := exec_append_eq_some.mp hrun
      obtain ⟨next, hstep, hend⟩ := exec_cons_eq_some.mp hlast
      exact Option.some.inj hend ▸ guarded_step hpid (ih hmiddle) hstep

-- A step moves the process that takes it, and no other.
theorem step_turns (hstep : step pid s (q, event) = some s') :
    ∃ contents owner stage, s' = turn ⟨contents, owner, s.stage⟩ q stage := by
  unfold step at hstep
  cases event with
  | calls null | opens fd | truncates fault | writes count =>
      dsimp only at hstep
      split at hstep
      all_goals first
        | exact ⟨_, _, _, (Option.some.inj hstep).symm⟩
        | cases hstep
  | locks fault =>
      dsimp only at hstep
      split at hstep
      · split_ifs at hstep
        all_goals exact ⟨_, _, _, (Option.some.inj hstep).symm⟩
      · cases hstep
  | exits => exact ⟨_, _, _, (Option.some.inj hstep).symm⟩

-- What is left of a call behind fcntl, and the value that it comes to.
def Leads (code : Int) : Stage → List Event → Prop
  | .truncating fd, [.truncates _, .writes _] => fd = code
  | .writing fd, [.writes _] => fd = code
  | .returned value, [] => value = code
  | _, _ => False

theorem leads_step {code : Int} {label : P × Event}
    (h : Leads code (s.stage p) (own p (label :: labels))) (hstep : step pid s label = some s') :
    Leads code (s'.stage p) (own p labels) := by
  obtain ⟨q, event⟩ := label
  by_cases hq : q = p
  · subst hq
    rw [own_cons_self] at h
    unfold Leads at h
    split at h
    · rename_i fd fault count hstage hown
      obtain ⟨rfl, hrest⟩ := List.cons_eq_cons.mp hown
      simp only [step, hstage, Option.some.injEq] at hstep
      rw [← hstep, stage_turn, if_pos rfl, hrest]
      exact h
    · rename_i fd count hstage hown
      obtain ⟨rfl, hrest⟩ := List.cons_eq_cons.mp hown
      simp only [step, hstage, Option.some.injEq] at hstep
      rw [← hstep, stage_turn, if_pos rfl, hrest]
      exact h
    · rename_i hown
      cases hown
    · exact absurd h id
  · rw [own_cons_of_ne hq] at h
    obtain ⟨contents, owner, stage, rfl⟩ := step_turns hstep
    rw [stage_turn, if_neg (Ne.symm hq)]
    exact h

theorem leads_exec {code : Int} (h : Leads code (s.stage p) (own p labels))
    (hrun : exec (step pid) s labels = some s') : s'.stage p = .returned code := by
  induction labels generalizing s with
  | nil =>
      obtain rfl := Option.some.inj hrun
      unfold Leads at h
      split at h
      · rename_i hown
        cases hown
      · rename_i hown
        cases hown
      · rename_i hstage hown
        rw [hstage, h]
      · exact absurd h id
  | cons label rest ih =>
      obtain ⟨next, hstep, hrest⟩ := exec_cons_eq_some.mp hrun
      exact ih (leads_step h hstep) hrest

-- What fcntl decides, when it does not fail otherwise.
theorem stage_locks {fd : Nat} (hpid : 0 < pid p ∧ pid p < 2 ^ 31)
    (hstage : s.stage p = .locking fd) (hstep : step pid s (p, .locks false) = some s') :
    s'.stage p = if s.owner = none ∨ s.owner = some p then .truncating fd else .returned (-1) := by
  simp only [step, hstage, Bool.false_eq_true, if_false, if_pos (length_pid_digits_pos hpid)] at hstep
  split at hstep
  · rename_i hfree
    rw [← Option.some.inj hstep, stage_turn, if_pos rfl, if_pos hfree]
  · rename_i htaken
    rw [← Option.some.inj hstep, stage_turn, if_pos rfl, if_neg htaken]

-- A call of daemon_lock that has got the lock goes on to its end, whatever fails.
theorem lock_of_lone_call {fd : Nat} (hpid : 0 < pid p ∧ pid p < 2 ^ 31)
    (hfree : s.owner = none ∨ s.owner = some p) (hstage : s.stage p = .locking fd) (fault : Bool)
    (count : Nat) :
    ∃ s', exec (step pid) s [(p, .locks false), (p, .truncates fault), (p, .writes count)] =
      some s' := by
  simp only [exec_cons, exec_nil, step, hstage, Option.bind_some, Bool.false_eq_true, if_false,
    IgLibs.Daemon.turn, Function.update_self, hfree, if_true, length_pid_digits_pos hpid,
    Option.some.injEq, exists_eq']

-- Whatever the processes do and whenever they end, no two of them have been told that they have
-- the lock, and if ftruncate has not failed the file holds as many digits of the pid of the one
-- that has as write took. Whether a process is told so is settled by who has the lock at its
-- fcntl, and neither what the others do then nor its own ftruncate and write change it.
theorem one_daemon {contents : Option (List UInt8)} (hpid : ∀ p, 0 < pid p ∧ pid p < 2 ^ 31)
    (hrun : exec (step pid) (start P contents) labels = some s) :
    (∀ p q, (s.stage p).Running → (s.stage q).Running → p = q) ∧
      (∀ p, (s.stage p).Running → ∃ before fault count text,
        own p labels = before ++ [.truncates fault, .writes count] ∧ decimal text = pid p ∧
          (∀ b ∈ text, isdigit b = true) ∧ (fault = false → s.contents = some (text.take count))) ∧
      (∀ p fd rest s', s.stage p = .locking fd →
        exec (step pid) s ((p, .locks false) :: rest) = some s' →
        if s.owner = none ∨ s.owner = some p then
          ∀ fault count, own p rest = [.truncates fault, .writes count] → s'.stage p = .returned fd
        else own p rest = [] → s'.stage p = .returned (-1)) ∧
      ∀ p fd, s.stage p = .locking fd → s.owner = none ∨ s.owner = some p → ∀ fault count,
        ∃ s', exec (step pid) s [(p, .locks false), (p, .truncates fault), (p, .writes count)] =
          some s' := by
  have hguarded := guarded_of_run hpid hrun
  refine ⟨fun p q hp hq => ?_, fun p hp => ?_, fun p fd rest s' hstage hrest => ?_,
    fun p fd hstage hfree => lock_of_lone_call (hpid p) hfree hstage⟩
  · have hholds := (hguarded.running p hp).1
    exact Option.some.inj (hholds.symm.trans (hguarded.running q hq).1)
  · obtain ⟨-, before, fault, count, hown, htext⟩ := hguarded.running p hp
    refine ⟨before, fault, count, digits (pid p), hown, decimal_digits _, ?_, htext⟩
    exact fun b hb => isdigit_of_mem_digits hb
  · obtain ⟨next, hlocks, hend⟩ := exec_cons_eq_some.mp hrest
    have hnext := stage_locks (hpid p) hstage hlocks
    split
    · rename_i hfree
      rw [if_pos hfree] at hnext
      refine fun fault count hown => leads_exec ?_ hend
      rw [hnext, hown]
      rfl
    · rename_i htaken
      rw [if_neg htaken] at hnext
      refine fun hown => leads_exec ?_ hend
      rw [hnext, hown]
      rfl

end

-- The second process stands before fcntl when the first one, which has the lock, ends.
def two_daemons (fault : Bool) : List (Bool × Event) :=
  [(true, .calls false), (true, .opens (some 3)), (true, .locks false), (true, .truncates false),
    (false, .calls false), (true, .writes 3), (false, .opens (some 4)), (true, .exits),
    (false, .locks false), (true, .calls false), (false, .truncates fault), (true, .opens (some 3)),
    (false, .writes 2), (true, .locks false)]

def pid_of_two (p : Bool) : Nat := if p then 310 else 42

def two_daemons_end : Lockfile Bool :=
  (exec (step pid_of_two) (start Bool none) (two_daemons false)).get (by decide)

theorem one_of_two_daemons :
    (∀ p q, (two_daemons_end.stage p).Running → (two_daemons_end.stage q).Running → p = q) ∧
      two_daemons_end.stage false = .returned 4 ∧
      ∃ before fault count text,
        own false (two_daemons false) = before ++ [.truncates fault, .writes count] ∧
          decimal text = 42 ∧ (∀ b ∈ text, isdigit b = true) ∧
          (fault = false → two_daemons_end.contents = some (text.take count)) := by
  have hstage : two_daemons_end.stage false = .returned 4 := by decide
  have hrun : exec (step pid_of_two) (start Bool none) (two_daemons false) =
      some two_daemons_end := (Option.some_get _).symm
  obtain ⟨hone, htext, -⟩ := one_daemon (by decide) hrun
  exact ⟨hone, hstage, htext false ⟨4, hstage⟩⟩

-- When ftruncate fails, what the file held is left behind the digits: 42 in front of 310.
example : (exec (step pid_of_two) (start Bool none) (two_daemons true)).bind Lockfile.contents =
    some [52, 50, 48] := by
  decide

end IgLibs.Daemon
