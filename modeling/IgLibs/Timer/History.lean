import IgLibs.Timer
import IgLibs.Ledger
import Mathlib.Data.List.Chain
import Mathlib.Data.List.Induction

namespace IgLibs

variable {C A : Type*}

namespace TimerEvent

def SameTriple (lhs rhs : TimerEvent C A) : Prop :=
  lhs.m_interval = rhs.m_interval ∧ lhs.m_callback = rhs.m_callback ∧
    lhs.m_callback_arg = rhs.m_callback_arg

theorem SameTriple.is_valid {lhs rhs : TimerEvent C A} (h : lhs.SameTriple rhs) :
    lhs.is_valid = rhs.is_valid := by
  rw [TimerEvent.is_valid, TimerEvent.is_valid, h.1, h.2.1]

variable [DecidableEq C] [DecidableEq A]

-- Between valid events the comparison is by their triples.
theorem equal_iff {lhs : TimerEvent C A} (hvalid : lhs.is_valid = true) (rhs : TimerEvent C A) :
    lhs.equal rhs = true ↔ lhs.SameTriple rhs := by
  rw [equal, hvalid]
  exact decide_eq_true_iff

end TimerEvent

namespace TimerEntry

-- What an entry leaves of the timer with a number, which may not exist.
def replay [DecidableEq C] [DecidableEq A] (n : Nat) (current : Option (TimerEvent C A)) :
    TimerEntry C A → Option (TimerEvent C A)
  | .added number event => if number = n then some event else current
  | .fired number now ret =>
      if number = n then
        if ret = 1 then none else current.map fun e => { e with m_last_event_time := now }
      else current
  | .removed te => current.filter fun e => !e.equal te
  | .cleared => none

def Mentions (n : Nat) : TimerEntry C A → Prop
  | .added number _ => number = n
  | .fired number _ _ => number = n
  | _ => False

-- The entries after which a timer with the triple of `e` is gone.
def Ends (n : Nat) (e : TimerEvent C A) : TimerEntry C A → Prop
  | .fired number _ ret => number = n ∧ ret = 1
  | .removed te => e.SameTriple te
  | .cleared => True
  | .added _ _ => False

def firing (n : Nat) : TimerEntry C A → Option Time
  | .fired number now _ => if number = n then some now else none
  | _ => none

end TimerEntry

namespace TimerManager

open TimerEntry

-- The readings at which a timer fired.
def firings (n : Nat) (history : List (TimerEntry C A)) : List Time := history.filterMap (firing n)

section

variable [DecidableEq C] [DecidableEq A]

-- A timer as its history leaves it, if it is still there.
def status (n : Nat) (history : List (TimerEntry C A)) : Option (TimerEvent C A) :=
  history.foldl (replay n) none

-- A timer is added once, valid and not fired yet, and it fires only while it is there and due.
def Admits (history : List (TimerEntry C A)) : TimerEntry C A → Prop
  | .added n event => (∀ entry ∈ history, ¬entry.Mentions n) ∧ event.is_valid = true ∧
      event.m_last_event_time = 0
  | .fired n now _ => ∃ event, status n history = some event ∧ event.due now = true
  | _ => True

def Legal (history : List (TimerEntry C A)) : Prop :=
  ∀ before entry after, history = before ++ entry :: after → Admits before entry

variable {history before after : List (TimerEntry C A)} {entry : TimerEntry C A} {n : Nat}
  {e event : TimerEvent C A}

theorem legal_nil : Legal ([] : List (TimerEntry C A)) := Ledger.admitted_nil

theorem Legal.concat (h : Legal history) (hentry : Admits history entry) :
    Legal (history ++ [entry]) :=
  Ledger.admitted_concat.mpr ⟨h, hentry⟩

theorem Legal.left (h : Legal (before ++ after)) : Legal before := Ledger.Admitted.left h

theorem Legal.last (h : Legal (history ++ [entry])) : Admits history entry :=
  h history entry [] rfl

theorem status_concat (n : Nat) (history : List (TimerEntry C A)) (entry : TimerEntry C A) :
    status n (history ++ [entry]) = entry.replay n (status n history) := by
  rw [status, List.foldl_append]
  rfl

omit [DecidableEq C] [DecidableEq A] in
theorem firings_concat (n : Nat) (history : List (TimerEntry C A)) (entry : TimerEntry C A) :
    firings n (history ++ [entry]) = firings n history ++ (entry.firing n).toList := by
  rw [firings, List.filterMap_append]
  cases hfiring : entry.firing n <;> simp [firings, hfiring]

theorem replay_of_not_mentions (hentry : ¬entry.Mentions n) (current : Option (TimerEvent C A))
    (hnone : current = none) : entry.replay n current = none := by
  subst hnone
  cases entry with
  | added number event => exact if_neg hentry
  | fired number now ret => exact if_neg hentry
  | removed te => rfl
  | cleared => rfl

theorem status_of_not_mentioned (h : ∀ entry ∈ history, ¬entry.Mentions n) :
    status n history = none := by
  induction history using List.reverseRecOn with
  | nil => rfl
  | append_singleton history entry ih =>
      rw [status_concat]
      apply replay_of_not_mentions (h entry (by simp))
      exact ih fun other hmem => h other (by simp [hmem])

omit [DecidableEq C] [DecidableEq A] in
theorem firings_of_not_mentioned (h : ∀ entry ∈ history, ¬entry.Mentions n) :
    firings n history = [] := by
  rw [firings, List.filterMap_eq_nil_iff]
  intro entry hmem
  have hentry := h entry hmem
  cases entry with
  | fired number now ret => exact if_neg hentry
  | added | removed | cleared => rfl

-- Where a timer that is there after an entry comes from.
theorem replay_eq_some {current : Option (TimerEvent C A)}
    (h : entry.replay n current = some event) :
    entry = .added n event ∨
      (∃ e now ret, entry = .fired n now ret ∧ current = some e ∧
        event = { e with m_last_event_time := now }) ∨
      (entry.firing n = none ∧ current = some event) := by
  cases entry with
  | added number te =>
      by_cases hn : number = n
      · rw [replay, if_pos hn] at h
        exact .inl (by rw [hn, Option.some.inj h])
      · rw [replay, if_neg hn] at h
        exact .inr (.inr ⟨rfl, h⟩)
  | fired number now ret =>
      by_cases hn : number = n
      · rw [replay, if_pos hn] at h
        split at h
        · cases h
        · obtain ⟨e, hcurrent, he⟩ := Option.map_eq_some_iff.mp h
          exact .inr (.inl ⟨e, now, ret, by rw [hn], hcurrent, he.symm⟩)
      · rw [replay, if_neg hn] at h
        exact .inr (.inr ⟨if_neg hn, h⟩)
  | removed te => exact .inr (.inr ⟨rfl, (Option.filter_eq_some_iff.mp h).1⟩)
  | cleared => cases h

-- A timer that is there is one that was added, with the reading of its last firing.
theorem Legal.status_spec (h : Legal history) (hstatus : status n history = some event) :
    event.is_valid = true ∧ event.m_last_event_time = (firings n history).getLast?.getD 0 ∧
      ∃ e, .added n e ∈ history ∧ e.SameTriple event := by
  induction history using List.reverseRecOn generalizing event with
  | nil => cases hstatus
  | append_singleton history entry ih =>
      rw [status_concat] at hstatus
      rcases replay_eq_some hstatus with rfl | ⟨e, now, ret, rfl, hcurrent, rfl⟩ | ⟨hfiring, hcurrent⟩
      · obtain ⟨hfresh, hvalid, hlast⟩ := h.last
        refine ⟨hvalid, ?_, event, by simp, rfl, rfl, rfl⟩
        rw [firings_concat, firings_of_not_mentioned hfresh, hlast]
        rfl
      · obtain ⟨hvalid, -, first, hadded, htriple⟩ := ih h.left hcurrent
        refine ⟨hvalid, ?_, first, by simp [hadded], htriple⟩
        rw [firings_concat, firing, if_pos rfl, Option.toList_some, List.getLast?_concat]
        rfl
      · obtain ⟨hvalid, hlast, first, hadded, htriple⟩ := ih h.left hcurrent
        refine ⟨hvalid, ?_, first, by simp [hadded], htriple⟩
        rw [firings_concat, hfiring, Option.toList_none, List.append_nil]
        exact hlast

end

-- No reading in a history is negative.
def Clocked (history : List (TimerEntry C A)) : Prop :=
  ∀ n now ret, .fired n now ret ∈ history → 0 ≤ now.toInt

section

variable {history : List (TimerEntry C A)} {n : Nat} {e : TimerEvent C A}

theorem Clocked.firings (h : Clocked history) : ∀ now ∈ firings n history, 0 ≤ now.toInt := by
  intro now hmem
  obtain ⟨entry, hentry, hfiring⟩ := List.mem_filterMap.mp hmem
  cases entry with
  | fired number reading ret =>
      rw [firing, Option.ite_none_right_eq_some, Option.some.injEq] at hfiring
      exact hfiring.2 ▸ h number reading ret hentry
  | added | removed | cleared => cases hfiring

theorem Clocked.last (h : Clocked history) (n : Nat) :
    0 ≤ ((TimerManager.firings n history).getLast?.getD 0).toInt := by
  cases hlast : (TimerManager.firings n history).getLast? with
  | none => exact Int.le_refl 0
  | some now => exact h.firings now (List.mem_of_getLast? hlast)

variable [DecidableEq C] [DecidableEq A]

end

end TimerManager

end IgLibs
