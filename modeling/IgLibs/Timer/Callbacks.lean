import IgLibs.Timer
import IgLibs.Cursor
import IgLibs.Machine

namespace IgLibs

-- An element with the time of its last event.
def TimerNode.stored {C A : Type*} (node : TimerNode C A) (now : Time) : TimerNode C A :=
  { node with event := { node.event with m_last_event_time := now } }

namespace TimerManager

-- What a callback may do to the manager that calls it.
inductive Call (C A : Type*)
  | add_timer (itv : BitVec 32) (cb : Option C) (cb_arg : A)
  | remove_timer (itv : BitVec 32) (cb : Option C) (cb_arg : A)
  | clear
deriving DecidableEq

-- One run of timer_callback: the calls that it makes, in this order, and what it returns.
structure Callback (C A : Type*) where
  calls : List (Call C A)
  ret : Int

-- The loop of process_timer between two elements; `it` is `none` at end().
structure Walk (C A : Type*) where
  manager : TimerManager C A
  it : Option Nat

variable {C A : Type*}

-- The elements of a list, numbered from the front, before anything happened to them.
def of_events (events : List (TimerEvent C A)) : TimerManager C A :=
  ⟨events.mapIdx TimerNode.mk, events.length, []⟩

def begin_walk (m : TimerManager C A) : Walk C A :=
  ⟨m, Cursor.begin TimerNode.number m.m_timer_list⟩

-- The element that the next step calls, if it calls one.
def Walk.calling (now : Time) (w : Walk C A) : Option (TimerNode C A) :=
  (w.it.bind fun n => Cursor.find TimerNode.number n w.manager.m_timer_list).filter
    fun node => node.event.due now

-- What happens to an element behind its callback.
def leave (m : TimerManager C A) (n : Nat) (now : Time) (ret : Int) : TimerManager C A :=
  let events := Cursor.modify TimerNode.number n (fun node => node.stored now) m.m_timer_list
  { m with m_timer_list := if ret = 1 then Cursor.erase TimerNode.number n events else events }

section

variable [DecidableEq C] [DecidableEq A]

def call (m : TimerManager C A) : Call C A → TimerManager C A
  | .add_timer itv cb cb_arg => (m.add_timer itv cb cb_arg).1
  | .remove_timer itv cb cb_arg => (m.remove_timer itv cb cb_arg).1
  | .clear => m.clear

-- The body of the loop. The element is called where it stands in the list; after that its time
-- is stored in it, and `it` is moved on from it, so that it has to be there still.
def walk_step (now : Time) (timer_callback : Nat → Callback C A) (w : Walk C A) :
    Option (Walk C A) :=
  match w.it with
  | none => some w
  | some n =>
      (Cursor.find TimerNode.number n w.manager.m_timer_list).bind fun node =>
        if node.event.due now then
          let callback := timer_callback n
          let m := callback.calls.foldl call (w.manager.record [.fired n now callback.ret])
          (Cursor.find TimerNode.number n m.m_timer_list).map fun _ =>
            ⟨m.leave n now callback.ret, Cursor.next TimerNode.number n m.m_timer_list⟩
        else some ⟨w.manager, Cursor.next TimerNode.number n w.manager.m_timer_list⟩

-- The first `k` steps of process_timer; none if one of them uses an element that is erased.
def walk (now time : Time) (timer_callback : Nat → Callback C A) (m : TimerManager C A) (k : Nat) :
    Option (Walk C A) :=
  Machine.iter (walk_step (reading now time) timer_callback) k (begin_walk m)

-- Whether a call takes an element with this event out of the list.
def Call.removes (event : TimerEvent C A) : Call C A → Bool
  | .add_timer _ _ _ => false
  | .remove_timer itv cb cb_arg =>
      let te := TimerEvent.new itv cb cb_arg
      te.is_valid && event.equal te
  | .clear => true

def Callback.removes (callback : Callback C A) (event : TimerEvent C A) : Bool :=
  callback.calls.any (Call.removes event)

end

-- Whether a call asks for an element that is due as soon as it is in the list.
def Call.adds_due (now : Time) : Call C A → Bool
  | .add_timer itv cb cb_arg =>
      let te := TimerEvent.new itv cb cb_arg
      te.is_valid && te.due now
  | _ => false

-- Whether a callback gives its own element up and asks for one that is due at once.
def Callback.rearms (now : Time) (callback : Callback C A) : Bool :=
  callback.ret == 1 && callback.calls.any (Call.adds_due now)

end TimerManager

end IgLibs
