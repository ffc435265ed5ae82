import IgLibs.RingBuffer
import IgLibs.Fifo

namespace IgLibs.RingBuffer.Concurrent

open Word CMemory

-- Where the writing thread stands inside ring_buffer_write: `free` is what it computed
-- from its sample of m_out, `len` the length it fixed, `done` the bytes it has copied.
inductive Producer
  | idle
  | copying (src : Span) (free len : ULong) (done : Nat)
deriving DecidableEq

-- The reading thread inside ring_buffer_read, with the caller's buffer as filled so far.
inductive Consumer
  | idle
  | copying (dst : Span) (buffer : List UInt8) (avail len : ULong) (done : Nat)
deriving DecidableEq

-- `log` lists the finished calls in the order of their index updates.
structure State where
  rb : RingBuffer
  producer : Producer
  consumer : Consumer
  log : List (Fifo.Effect UInt8)

inductive Action
  | sampleOut (src : Span)
  | putByte
  | publishIn
  | sampleIn (dst : Span)
  | getByte
  | publishOut
deriving DecidableEq

-- The slot of the byte a copy of `len` bytes at index `pos` comes to next: the first
-- memcpy ends at the physical end, the second one starts at slot zero.
def copySlot (rb : RingBuffer) (pos len : ULong) (done : Nat) : Nat :=
  let masked := pos &&& (rb.m_size - 1)
  let l := std_min len (rb.m_size - masked)
  if done < l.toNat then masked.toNat + done else done - l.toNat

def State.putSlot (s : State) : Option Nat :=
  match s.producer with
  | .idle => none
  | .copying _ _ len done =>
      if done < len.toNat then some (copySlot s.rb s.rb.m_in len done) else none

def State.getSlot (s : State) : Option Nat :=
  match s.consumer with
  | .idle => none
  | .copying _ _ _ len done =>
      if done < len.toNat then some (copySlot s.rb s.rb.m_out len done) else none

-- The slots between m_out and m_in: written, published and not yet released.
def Published (rb : RingBuffer) (slot : Nat) : Prop :=
  ∃ i < rb.ring_buffer_readable_size.toNat,
    slot = ((rb.m_out + BitVec.ofNat 64 i) &&& (rb.m_size - 1)).toNat

def putByte (s : State) : Option State :=
  match s.producer, s.putSlot, s.rb.m_buffer with
  | .copying src free len done, some slot, some mem => do
      let byte ← src.bytes[done]?
      if slot < mem.length then
        some { s with rb := { s.rb with m_buffer := some (mem.set slot byte) },
                      producer := .copying src free len (done + 1) }
      else none
  | _, _, _ => none

def getByte (s : State) : Option State :=
  match s.consumer, s.getSlot, s.rb.m_buffer with
  | .copying dst buffer avail len done, some slot, some mem => do
      let byte ← mem[slot]?
      if done < buffer.length then
        some { s with consumer := .copying dst (buffer.set done byte) avail len (done + 1) }
      else none
  | _, _, _ => none

-- An action that a thread cannot take at its program point has no result.
def step (s : State) : Action → Option State
  | .sampleOut src =>
      match s.producer with
      | .idle =>
          let free := s.rb.m_size - s.rb.m_in + s.rb.m_out
          some { s with producer := .copying src free (std_min src.len free) 0 }
      | .copying .. => none
  | .putByte => putByte s
  | .publishIn =>
      match s.producer with
      | .copying src free len done =>
          if done = len.toNat then
            some { s with rb := { s.rb with m_in := s.rb.m_in + len }, producer := .idle,
                          log := s.log ++ [.push (src.bytes.take src.len.toNat) free.toNat
                            (src.bytes.take len.toNat)] }
          else none
      | .idle => none
  | .sampleIn dst =>
      match s.consumer with
      | .idle =>
          let avail := s.rb.m_in - s.rb.m_out
          some { s with consumer := .copying dst dst.bytes avail (std_min dst.len avail) 0 }
      | .copying .. => none
  | .getByte => getByte s
  | .publishOut =>
      match s.consumer with
      | .copying dst buffer avail len done =>
          if done = len.toNat then
            some { s with rb := { s.rb with m_out := s.rb.m_out + len }, consumer := .idle,
                          log := s.log ++ [.pop dst.len.toNat avail.toNat
                            (buffer.take len.toNat)] }
          else none
      | .idle => none

def start (rb : RingBuffer) : State := ⟨rb, .idle, .idle, []⟩

end IgLibs.RingBuffer.Concurrent
