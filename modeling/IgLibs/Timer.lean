import IgLibs.Machine
import Mathlib.Data.List.Basic

namespace IgLibs

-- time_t, a signed number of seconds.
abbrev Time := BitVec 64

-- `C` stands for the callback objects, `none` being NULL, and `A` for their arguments.
structure TimerEvent (C A : Type*) where
  m_interval : BitVec 32
  m_last_event_time : Time
  m_callback : Option C
  m_callback_arg : A
deriving DecidableEq

-- What happened to timers. Every element that was ever in the list has a number of its own.
inductive TimerEntry (C A : Type*)
  | added (number : Nat) (event : TimerEvent C A)
  | fired (number : Nat) (now : Time) (ret : Int)
  | removed (event : TimerEvent C A)
  | cleared
deriving DecidableEq

structure TimerNode (C A : Type*) where
  number : Nat
  event : TimerEvent C A
deriving DecidableEq

-- The list, the number of the next element, and what happened so far, oldest first.
structure TimerManager (C A : Type*) where
  m_timer_list : List (TimerNode C A)
  number : Nat
  history : List (TimerEntry C A)

variable {C A : Type*}

namespace TimerEvent

def new (interval : BitVec 32) (cb : Option C) (cb_arg : A) : TimerEvent C A :=
  ⟨interval, 0, cb, cb_arg⟩

def is_valid (e : TimerEvent C A) : Bool := e.m_interval != 0 && e.m_callback.isSome

-- operator ==
def equal [DecidableEq C] [DecidableEq A] (lhs rhs : TimerEvent C A) : Bool :=
  if !lhs.is_valid then true
  else decide (lhs.m_interval = rhs.m_interval ∧ lhs.m_callback = rhs.m_callback ∧
    lhs.m_callback_arg = rhs.m_callback_arg)

-- The unsigned interval is converted to the signed 64-bit type of the difference.
def due (e : TimerEvent C A) (now : Time) : Bool :=
  decide ((e.m_interval.toNat : Int) ≤ (now - e.m_last_event_time).toInt)

-- `timer_callback` is what the callback returns when it is called.
def process_timer_event (e : TimerEvent C A) (now : Time) (timer_callback : Int) :
    TimerEvent C A × Int :=
  if e.due now then ({ e with m_last_event_time := now }, timer_callback) else (e, 0)

end TimerEvent

namespace TimerManager

def MAX_TIME_ENVET_COUNT : Nat := 1000

def new : TimerManager C A := ⟨[], 0, []⟩

def record (m : TimerManager C A) (entries : List (TimerEntry C A)) : TimerManager C A :=
  { m with history := m.history ++ entries }

def add_timer (m : TimerManager C A) (itv : BitVec 32) (cb : Option C) (cb_arg : A) :
    TimerManager C A × Int :=
  if MAX_TIME_ENVET_COUNT ≤ m.m_timer_list.length then (m, -1)
  else
    let te := TimerEvent.new itv cb cb_arg
    if !te.is_valid then (m, -1)
    else
      ({ m.record [.added m.number te] with
          m_timer_list := m.m_timer_list ++ [⟨m.number, te⟩], number := m.number + 1 }, 0)

section

variable [DecidableEq C] [DecidableEq A]

-- list::remove compares each element with the argument, in this order.
def remove_timer (m : TimerManager C A) (itv : BitVec 32) (cb : Option C) (cb_arg : A) :
    TimerManager C A × Int :=
  let te := TimerEvent.new itv cb cb_arg
  if !te.is_valid then (m, -1)
  else
    ({ m.record [.removed te] with
        m_timer_list := m.m_timer_list.filter fun node => !node.event.equal te }, 0)

end

def clear (m : TimerManager C A) : TimerManager C A :=
  { m.record [.cleared] with m_timer_list := [] }

-- The loop from one element on: what stays of the list, and the callbacks that were made.
-- `timer_callback` says what they return; each element is fired at most once.
def process_events (now : Time) (timer_callback : Nat → Int) :
    List (TimerNode C A) → List (TimerNode C A) × List (TimerEntry C A)
  | [] => ([], [])
  | node :: rest =>
      let (event, ret) := node.event.process_timer_event now (timer_callback node.number)
      let fired := if node.event.due now then [.fired node.number now ret] else []
      let (rest, entries) := process_events now timer_callback rest
      (if ret = 1 then rest else ⟨node.number, event⟩ :: rest, fired ++ entries)

-- The reading that process_timer goes by; `time` is what time(0) gives.
def reading (now time : Time) : Time := if now = 0 then time else now

def process_timer (m : TimerManager C A) (now time : Time) (timer_callback : Nat → Int) :
    TimerManager C A × Int :=
  let (events, entries) := process_events (reading now time) timer_callback m.m_timer_list
  ({ m.record entries with m_timer_list := events }, 0)

inductive Op (C A : Type*)
  | add_timer (itv : BitVec 32) (cb : Option C) (cb_arg : A)
  | remove_timer (itv : BitVec 32) (cb : Option C) (cb_arg : A)
  | clear
  | process_timer (now time : Time) (timer_callback : Nat → Int)

def step [DecidableEq C] [DecidableEq A] (m : TimerManager C A) : Op C A → Option (TimerManager C A)
  | .add_timer itv cb cb_arg => some (m.add_timer itv cb cb_arg).1
  | .remove_timer itv cb cb_arg => some (m.remove_timer itv cb cb_arg).1
  | .clear => some m.clear
  | .process_timer now time timer_callback => some (m.process_timer now time timer_callback).1

end TimerManager

end IgLibs
