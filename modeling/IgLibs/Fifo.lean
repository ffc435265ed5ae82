import IgLibs.Machine

namespace IgLibs.Fifo

variable {α : Type*} [DecidableEq α]

-- A finished call on a bounded queue, with the items it moved. `seen` is the free
-- space or the number of items the call acted on: possibly out of date, never too large.
inductive Effect (α : Type*)
  | push (offered : List α) (seen : Nat) (moved : List α)
  | pop (wanted seen : Nat) (moved : List α)

def Effect.pushed : Effect α → List α
  | .push _ _ moved => moved
  | .pop _ _ _ => []

def Effect.popped : Effect α → List α
  | .push _ _ _ => []
  | .pop _ _ moved => moved

-- The sequential queue. A call moves as many items as were asked for, up to what it saw,
-- always at the front for a pop and always at the back for a push.
def step (cap : Nat) (queue : List α) : Effect α → Option (List α)
  | .push offered seen moved =>
      if queue.length + seen ≤ cap ∧ moved = offered.take seen then some (queue ++ moved) else none
  | .pop wanted seen moved =>
      if seen ≤ queue.length ∧ moved = queue.take (min wanted seen) then
        some (queue.drop moved.length)
      else none

theorem step_push_eq_some {cap seen : Nat} {queue next offered moved : List α} :
    step cap queue (.push offered seen moved) = some next ↔
      queue.length + seen ≤ cap ∧ moved = offered.take seen ∧ next = queue ++ moved := by
  simp only [step, Option.ite_none_right_eq_some, Option.some.injEq, and_assoc]
  simp only [eq_comm]

theorem step_pop_eq_some {cap wanted seen : Nat} {queue next moved : List α} :
    step cap queue (.pop wanted seen moved) = some next ↔
      seen ≤ queue.length ∧ moved = queue.take (min wanted seen) ∧
        next = queue.drop moved.length := by
  simp only [step, Option.ite_none_right_eq_some, Option.some.injEq, and_assoc]
  simp only [eq_comm]

-- What a call pushes and pops accounts for the change of the queue, in order.
theorem step_balance {cap : Nat} {queue next : List α} {effect : Effect α}
    (hstep : step cap queue effect = some next) :
    queue ++ effect.pushed = effect.popped ++ next := by
  cases effect with
  | push offered seen moved =>
      obtain ⟨_, _, rfl⟩ := step_push_eq_some.mp hstep
      simp [Effect.pushed, Effect.popped]
  | pop wanted seen moved =>
      obtain ⟨hseen, rfl, rfl⟩ := step_pop_eq_some.mp hstep
      have hlen : (queue.take (min wanted seen)).length = min wanted seen := by
        rw [List.length_take]; omega
      simp only [Effect.pushed, Effect.popped, List.append_nil, hlen, List.take_append_drop]

-- Nothing is lost, duplicated or reordered over a whole run of calls.
theorem exec_balance {cap : Nat} {queue final : List α} {effects : List (Effect α)}
    (hrun : Machine.exec (step cap) queue effects = some final) :
    queue ++ effects.flatMap Effect.pushed = effects.flatMap Effect.popped ++ final := by
  induction effects generalizing queue with
  | nil => simpa using hrun
  | cons effect rest ih =>
      obtain ⟨next, hnext, hrest⟩ := Machine.exec_cons_eq_some.mp hrun
      calc
        queue ++ (effect :: rest).flatMap Effect.pushed =
            queue ++ effect.pushed ++ rest.flatMap Effect.pushed := by
          simp
        _ = effect.popped ++ (next ++ rest.flatMap Effect.pushed) := by
          rw [step_balance hnext, List.append_assoc]
        _ = effect.popped ++ (rest.flatMap Effect.popped ++ final) := by
          rw [ih hrest]
        _ = (effect :: rest).flatMap Effect.popped ++ final := by
          simp

end IgLibs.Fifo
