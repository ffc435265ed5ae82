import IgLibs.Table
import IgLibs.Machine

namespace IgLibs

abbrev ProtoId := BitVec 16

def PHR_PRINT_PROTOS : Int := 100

-- What the dispatcher calls on a handler object.
inductive Event (H : Type*)
  | init (handler : H) (ret : Int)
  | uninit (handler : H)
  | process (handler : H) (fd : Int) (buf : List UInt8)
  | timer_event (handler : H) (proto_id : ProtoId)
  | get_proto_name (handler : H)
deriving DecidableEq

def Event.handler {H : Type*} : Event H → H
  | .init h _ | .uninit h | .process h _ _ | .timer_event h _ | .get_proto_name h => h

def Event.IsLifecycle {H : Type*} : Event H → Prop
  | .init _ _ | .uninit _ => True
  | _ => False

-- The table, where `none` is the NULL pointer, and the calls made so far, oldest first.
structure ProtoDispatcher (H : Type*) where
  m_handler_mgr : Table ProtoId (Option H)
  calls : List (Event H)

namespace ProtoDispatcher

variable {H : Type*}

def new : ProtoDispatcher H := ⟨∅, []⟩

def record (d : ProtoDispatcher H) (events : List (Event H)) : ProtoDispatcher H :=
  { d with calls := d.calls ++ events }

-- `init` is what handler->init() returns when it is called.
def register_proto (d : ProtoDispatcher H) (proto_id : ProtoId) (handler : Option H) (init : Int) :
    ProtoDispatcher H × Int :=
  match handler with
  | some h =>
      let d := d.record [.init h init]
      if init ≠ 0 then (d, -1)
      else match d.m_handler_mgr.lookup proto_id with
        | some _ => (d.record [.uninit h], 1)
        | none => ({ d with m_handler_mgr := d.m_handler_mgr.insert proto_id (some h) }, 0)
  | none => (d, -1)

def unregister_proto (d : ProtoDispatcher H) (proto_id : ProtoId) : ProtoDispatcher H × Int :=
  match d.m_handler_mgr.lookup proto_id with
  | some (some h) =>
      let d := d.record [.uninit h]
      ({ d with m_handler_mgr := d.m_handler_mgr.erase proto_id }, 0)
  | _ => (d, -1)

-- DEBUG_LOG looks at the names only at log level 5 and above, as the default one is.
def print_supported_protocols (d : ProtoDispatcher H) : ProtoDispatcher H :=
  d.record (d.m_handler_mgr.entries.filterMap fun e => e.2.map .get_proto_name)

-- `process` is what handler->process() returns when it is called.
def dispatch (d : ProtoDispatcher H) (proto_id : ProtoId) (fd : Int) (buf : List UInt8)
    (process : Int) : ProtoDispatcher H × Int :=
  match d.m_handler_mgr.lookup proto_id with
  | some (some h) =>
      let d := d.record [.process h fd buf]
      (if process = PHR_PRINT_PROTOS then d.print_supported_protocols else d, 0)
  | _ => (d, -1)

-- timer_event() notifies every entry, in the order of the table.
def timer_event (d : ProtoDispatcher H) : ProtoDispatcher H :=
  d.record (d.m_handler_mgr.entries.filterMap fun e => e.2.map fun h => .timer_event h e.1)

-- timer_event(proto_id)
def timer_event_of (d : ProtoDispatcher H) (proto_id : ProtoId) : ProtoDispatcher H :=
  match d.m_handler_mgr.lookup proto_id with
  | some (some h) => d.record [.timer_event h proto_id]
  | _ => d

-- The loop moves its iterator on before it erases, so it visits the keys it started with.
def unregister_all (d : ProtoDispatcher H) : List ProtoId → ProtoDispatcher H
  | [] => d
  | id :: rest => (d.unregister_proto id).1.unregister_all rest

def clear_protos (d : ProtoDispatcher H) : ProtoDispatcher H :=
  { d.unregister_all d.m_handler_mgr.keys with m_handler_mgr := ∅ }

-- `rehash` is not a call: the unordered table may be walked in another order at any time.
inductive Op (H : Type*)
  | register_proto (proto_id : ProtoId) (handler : Option H) (init : Int)
  | unregister_proto (proto_id : ProtoId)
  | clear_protos
  | dispatch (proto_id : ProtoId) (fd : Int) (buf : List UInt8) (process : Int)
  | timer_event
  | timer_event_of (proto_id : ProtoId)
  | rehash (entries : List (Sigma fun _ : ProtoId => Option H))

variable [DecidableEq H]

def step (d : ProtoDispatcher H) : Op H → Option (ProtoDispatcher H)
  | .register_proto proto_id handler init => some (d.register_proto proto_id handler init).1
  | .unregister_proto proto_id => some (d.unregister_proto proto_id).1
  | .clear_protos => some d.clear_protos
  | .dispatch proto_id fd buf process => some (d.dispatch proto_id fd buf process).1
  | .timer_event => some d.timer_event
  | .timer_event_of proto_id => some (d.timer_event_of proto_id)
  | .rehash entries =>
      if h : entries.Perm d.m_handler_mgr.entries then
        some { d with m_handler_mgr := d.m_handler_mgr.reorder entries h }
      else none

end ProtoDispatcher

end IgLibs
