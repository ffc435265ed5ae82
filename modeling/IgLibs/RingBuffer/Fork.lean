import IgLibs.RingBuffer.Concurrent

namespace IgLibs.RingBuffer.Fork

open Word CMemory

-- After fork each process has its own copy of the object. One of the two only calls
-- ring_buffer_write, the other one only ring_buffer_read.
structure State where
  writer : Concurrent.State
  reader : Concurrent.State

def start (rb : RingBuffer) : State := ⟨Concurrent.start rb, Concurrent.start rb⟩

-- The storage is one MAP_SHARED mapping in both processes, but private memory if it comes
-- from posix_memalign. The indices are private in any case.
def share (source target : RingBuffer) : RingBuffer :=
  if source.m_shared then { target with m_buffer := source.m_buffer } else target

def State.wrote (s : State) (writer : Concurrent.State) : State :=
  ⟨writer, { s.reader with rb := share writer.rb s.reader.rb }⟩

def writes : Concurrent.Action → Bool
  | .sampleOut _ | .putByte | .publishIn => true
  | .sampleIn _ | .getByte | .publishOut => false

def step (s : State) (action : Concurrent.Action) : Option State :=
  if writes action then (Concurrent.step s.writer action).map s.wrote
  else (Concurrent.step s.reader action).map fun reader => { s with reader }

def State.accepted (s : State) : List UInt8 := s.writer.log.flatMap Fifo.Effect.pushed

def State.returned (s : State) : List UInt8 := s.reader.log.flatMap Fifo.Effect.popped

-- How many bytes are unread, of those that were in the ring at the fork and the later ones.
def State.remaining (first : List UInt8) (s : State) : Nat :=
  (first ++ s.accepted).length - s.returned.length

def State.Finished (s : State) : Prop := s.writer.producer = .idle ∧ s.reader.consumer = .idle

instance (s : State) : Decidable s.Finished :=
  inferInstanceAs (Decidable (s.writer.producer = .idle ∧ s.reader.consumer = .idle))

end IgLibs.RingBuffer.Fork
