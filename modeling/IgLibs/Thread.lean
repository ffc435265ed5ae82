import Mathlib.Data.List.Basic

namespace IgLibs

-- pthread_t
abbrev ThreadId := BitVec 64

-- What a thread object has made, joined and detached so far.
inductive ThreadCall
  | created (tid : ThreadId)
  | join (tid : ThreadId)
  | detach (tid : ThreadId)
deriving DecidableEq

structure Thread where
  m_tid : ThreadId
  m_joinable : Bool
  calls : List ThreadCall
deriving DecidableEq

namespace Thread

def new : Thread := ⟨0, true, []⟩

def record (t : Thread) (call : ThreadCall) : Thread := { t with calls := t.calls ++ [call] }

-- What pthread_create returns, and what it leaves in m_tid: the new thread, or anything at all
-- if it fails.
structure CreateAnswer where
  ret : Int
  tid : ThreadId
deriving DecidableEq

def run (t : Thread) (thread_pre_run : Int) (create : CreateAnswer) : Thread × Int :=
  if thread_pre_run < 0 then (t, -1)
  else if create.ret ≠ 0 then ({ t with m_tid := create.tid }, -2)
  else ({ t.record (.created create.tid) with m_tid := create.tid }, 0)

-- `ret` is what pthread_detach returns when it is called.
def detach (t : Thread) (ret : Int) : Thread × Int :=
  if !t.m_joinable then (t, -1)
  else
    let t := t.record (.detach t.m_tid)
    if ret = 0 then ({ t with m_joinable := false }, ret) else (t, ret)

-- `ret` is what pthread_join returns when it is called.
def join (t : Thread) (ret : Int) : Thread × Int :=
  if !t.m_joinable then (t, -1) else (t.record (.join t.m_tid), ret)

def entered (tid : ThreadId) (pending : Bool) : ThreadCall → Bool
  | .created other => if other = tid then true else pending
  | .join other => if other = tid then false else pending
  | .detach other => if other = tid then false else pending

-- The thread has been created, and neither joined nor detached since then.
def pending (tid : ThreadId) (calls : List ThreadCall) : Bool := calls.foldl (entered tid) false

inductive Op
  | run (thread_pre_run : Int) (create : CreateAnswer)
  | join (ret : Int)
  | detach (ret : Int)
deriving DecidableEq

-- The id of a new thread is that of no thread that is pending, and joining or detaching a
-- pending thread succeeds. There is no other step.
def step (t : Thread) : Op → Option Thread
  | .run thread_pre_run create =>
      if 0 ≤ thread_pre_run ∧ create.ret = 0 ∧ pending create.tid t.calls then none
      else some (t.run thread_pre_run create).1
  | .join ret =>
      if t.m_joinable ∧ pending t.m_tid t.calls ∧ ret ≠ 0 then none else some (t.join ret).1
  | .detach ret =>
      if t.m_joinable ∧ pending t.m_tid t.calls ∧ ret ≠ 0 then none else some (t.detach ret).1

-- Where the owner of a thread object has got to.
inductive Phase
  | idle
  | running (tid : ThreadId)
  | detached
  | restarted (tid : ThreadId)
deriving DecidableEq

-- What the owner may do. A thread that is running must be joined or detached before the next one
-- is started, and nothing else may be joined or detached; behind a detach both are refused, so
-- that one more thread may be started and is the last one.
def Phase.step : Phase → Op → Option Phase
  | .idle, .run thread_pre_run create =>
      if thread_pre_run < 0 ∨ create.ret ≠ 0 then some .idle else some (.running create.tid)
  | .idle, _ => none
  | .running tid, .run thread_pre_run create =>
      if thread_pre_run < 0 ∨ create.ret ≠ 0 ∧ create.tid = tid then some (.running tid) else none
  | .running _, .join _ => some .idle
  | .running _, .detach _ => some .detached
  | .detached, .run thread_pre_run create =>
      if thread_pre_run < 0 ∨ create.ret ≠ 0 then some .detached else some (.restarted create.tid)
  | .detached, _ => some .detached
  | .restarted tid, .run thread_pre_run create =>
      if thread_pre_run < 0 ∨ create.ret ≠ 0 ∧ create.tid = tid then some (.restarted tid) else none
  | .restarted tid, _ => some (.restarted tid)

end Thread

end IgLibs
