import IgLibs.SharedQueue
import IgLibs.RingBuffer.Concurrent

namespace IgLibs.SharedQueue.Concurrent

open Word CMemory RingBuffer

-- A finished call with the value it returned, and for a read the bytes it delivered.
inductive Call
  | write (src : Span) (ret : Int)
  | read (dst : Span) (ret : Int) (bytes : List UInt8)
deriving DecidableEq

def Call.len : Call → ULong
  | .write src _ => src.len
  | .read dst _ _ => dst.len

def Call.ret : Call → Int
  | .write _ ret => ret
  | .read _ ret _ => ret

-- `writer` and `reader` are the calls that have passed their size check and not returned yet.
structure State where
  ring : RingBuffer.Concurrent.State
  writer : Option Span
  reader : Option Span
  calls : List Call

-- The size checks, and the steps of the two ring operations.
inductive Action
  | checkWrite (src : Span)
  | checkRead (dst : Span)
  | ring (action : RingBuffer.Concurrent.Action)
deriving DecidableEq

def State.shared (s : State) : SharedQueue := { new with m_ring_buffer := s.ring.rb }

-- What read and write make of the length that the ring reports.
def returned (ret : ULong) : Int := if ret = 0 then -1 else ret.toInt

def checkWrite (s : State) (src : Span) : Option State :=
  match s.writer with
  | some _ => none
  | none =>
      if s.shared.get_writeable_size < src.len then
        some { s with calls := s.calls ++ [.write src (-1)] }
      else some { s with writer := some src }

def checkRead (s : State) (dst : Span) : Option State :=
  match s.reader with
  | some _ => none
  | none =>
      if s.shared.get_readable_size < dst.len then
        some { s with calls := s.calls ++ [.read dst (-1) []] }
      else some { s with reader := some dst }

def publishIn (s : State) : Option State :=
  match s.ring.producer with
  | .copying src _ len _ => do
      let ring ← RingBuffer.Concurrent.step s.ring .publishIn
      some { s with ring, writer := none, calls := s.calls ++ [.write src (returned len)] }
  | .idle => none

def publishOut (s : State) : Option State :=
  match s.ring.consumer with
  | .copying dst buffer _ len _ => do
      let ring ← RingBuffer.Concurrent.step s.ring .publishOut
      some { s with ring, reader := none,
                    calls := s.calls ++ [.read dst (returned len) (buffer.take len.toNat)] }
  | .idle => none

-- A thread calls the ring with the buffer and the size that it has checked.
def step (s : State) : Action → Option State
  | .checkWrite src => checkWrite s src
  | .checkRead dst => checkRead s dst
  | .ring (.sampleOut src) =>
      if s.writer = some src then
        (RingBuffer.Concurrent.step s.ring (.sampleOut src)).map fun ring => { s with ring }
      else none
  | .ring (.sampleIn dst) =>
      if s.reader = some dst then
        (RingBuffer.Concurrent.step s.ring (.sampleIn dst)).map fun ring => { s with ring }
      else none
  | .ring .publishIn => publishIn s
  | .ring .publishOut => publishOut s
  | .ring action => (RingBuffer.Concurrent.step s.ring action).map fun ring => { s with ring }

def start (rb : RingBuffer) : State := ⟨RingBuffer.Concurrent.start rb, none, none, []⟩

-- The sequential queue of messages: a call moves all of its bytes if they fit or are there,
-- and otherwise returns -1 and moves none.
def Call.step (cap : Nat) (queue : List UInt8) : Call → Option (List UInt8)
  | .write src ret =>
      if 1 ≤ src.len.toNat ∧ queue.length + src.len.toNat ≤ cap then
        if ret = src.len.toNat then some (queue ++ src.bytes.take src.len.toNat) else none
      else if ret = -1 then some queue else none
  | .read dst ret bytes =>
      if 1 ≤ dst.len.toNat ∧ dst.len.toNat ≤ queue.length then
        if ret = dst.len.toNat ∧ bytes = queue.take dst.len.toNat then
          some (queue.drop dst.len.toNat)
        else none
      else if ret = -1 ∧ bytes = [] then some queue else none

end IgLibs.SharedQueue.Concurrent
