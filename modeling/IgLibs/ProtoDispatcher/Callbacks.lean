import IgLibs.ProtoDispatcher
import IgLibs.Cursor

namespace IgLibs.ProtoDispatcher

-- An entry of the table. Every entry that was ever there has a number of its own.
structure Node (H : Type*) where
  number : Nat
  proto_id : ProtoId
  handler : Option H

-- How the table is walked after an insertion: the new entry may stand anywhere, and a rehash
-- changes the order of all of them.
structure Order (H : Type*) where
  arrange : List (Node H) → List (Node H)
  perm : ∀ nodes, (arrange nodes).Perm nodes

-- What a callback does to the dispatcher: a call and then the rest. `uninit` is what the
-- handler's uninit() does, if the call comes to it.
inductive Callback (H : Type*)
  | done
  | register_proto (proto_id : ProtoId) (handler : Option H) (init : Int) (order : Order H)
      (uninit rest : Callback H)
  | unregister_proto (proto_id : ProtoId) (uninit rest : Callback H)

-- The dispatcher with its entries told apart, the number of the next one, and the calls made.
structure Tracked (H : Type*) where
  m_handler_mgr : List (Node H)
  number : Nat
  calls : List (Event H)

-- A loop over the table between two entries; `it` is `none` at end().
structure Walk (H : Type*) where
  table : Tracked H
  it : Option Nat

variable {H : Type*}

def track (d : ProtoDispatcher H) : Tracked H :=
  ⟨d.m_handler_mgr.entries.zipIdx.map fun e => ⟨e.2, e.1.1, e.1.2⟩, d.m_handler_mgr.entries.length,
    d.calls⟩

namespace Tracked

def record (t : Tracked H) (events : List (Event H)) : Tracked H :=
  { t with calls := t.calls ++ events }

def find (t : Tracked H) (proto_id : ProtoId) : Option (Node H) :=
  t.m_handler_mgr.find? fun node => node.proto_id = proto_id

def insert (t : Tracked H) (proto_id : ProtoId) (h : H) (order : Order H) : Tracked H :=
  { t with
    m_handler_mgr := order.arrange (⟨t.number, proto_id, some h⟩ :: t.m_handler_mgr)
    number := t.number + 1 }

-- m_handler_mgr.erase(it); none if the entry at the iterator is gone.
def erase (t : Tracked H) (n : Nat) : Option (Tracked H) :=
  (Cursor.find Node.number n t.m_handler_mgr).map fun _ =>
    { t with m_handler_mgr := Cursor.erase Node.number n t.m_handler_mgr }

-- `uninit` is what handler->uninit() does.
def register_proto (t : Tracked H) (proto_id : ProtoId) (handler : Option H) (init : Int)
    (order : Order H) (uninit : Tracked H → Option (Tracked H)) : Option (Tracked H × Int) :=
  match handler with
  | some h =>
      let t := t.record [.init h init]
      if init ≠ 0 then some (t, -1)
      else match t.find proto_id with
        | some _ => (uninit (t.record [.uninit h])).map fun t => (t, 1)
        | none => some (t.insert proto_id h order, 0)
  | none => some (t, -1)

-- The iterator of the entry is used again after uninit().
def unregister_proto (t : Tracked H) (proto_id : ProtoId)
    (uninit : Tracked H → Option (Tracked H)) : Option (Tracked H × Int) :=
  match t.find proto_id with
  | some ⟨n, _, some h⟩ =>
      ((uninit (t.record [.uninit h])).bind fun t => t.erase n).map fun t => (t, 0)
  | _ => some (t, -1)

end Tracked

def Callback.run : Callback H → Tracked H → Option (Tracked H)
  | .done => some
  | .register_proto proto_id handler init order uninit rest => fun t =>
      (t.register_proto proto_id handler init order uninit.run).bind fun result => rest.run result.1
  | .unregister_proto proto_id uninit rest => fun t =>
      (t.unregister_proto proto_id uninit.run).bind fun result => rest.run result.1

-- The entry at `it`, none if it is gone.
def Walk.visiting (w : Walk H) : Option (Node H) :=
  w.it.bind fun n => Cursor.find Node.number n w.table.m_handler_mgr

def begin_walk (t : Tracked H) : Walk H := ⟨t, Cursor.begin Node.number t.m_handler_mgr⟩

-- The body of the loop of timer_event(), which moves `it` on behind the callback.
-- `timer_event` is what the handler does, given all the calls so far.
def timer_step (timer_event : List (Event H) → Callback H) (w : Walk H) : Option (Walk H) :=
  match w.it with
  | none => some w
  | some n =>
      (Cursor.find Node.number n w.table.m_handler_mgr).bind fun node =>
        (match node.handler with
          | some h =>
              let t := w.table.record [.timer_event h node.proto_id]
              (timer_event t.calls).run t
          | none => some w.table).bind fun t =>
            (Cursor.find Node.number n t.m_handler_mgr).map fun _ =>
              ⟨t, Cursor.next Node.number n t.m_handler_mgr⟩

-- The body of the loop of clear_protos(), which moves `it` on before the entry is unregistered.
-- `uninit` is what the handler's uninit() does.
def clear_step (uninit : List (Event H) → Callback H) (w : Walk H) : Option (Walk H) :=
  match w.it with
  | none => some w
  | some n =>
      (Cursor.find Node.number n w.table.m_handler_mgr).bind fun node =>
        let it := Cursor.next Node.number n w.table.m_handler_mgr
        (w.table.unregister_proto node.proto_id (uninit w.table.calls).run).map fun result =>
          ⟨result.1, it⟩

-- The first `k` steps of the loops; none if one of them uses an iterator of an erased entry.
def timer_walk (timer_event : List (Event H) → Callback H) (d : ProtoDispatcher H) (k : Nat) :
    Option (Walk H) :=
  Machine.iter (timer_step timer_event) k (begin_walk d.track)

def clear_walk (uninit : List (Event H) → Callback H) (d : ProtoDispatcher H) (k : Nat) :
    Option (Walk H) :=
  Machine.iter (clear_step uninit) k (begin_walk d.track)

end IgLibs.ProtoDispatcher
