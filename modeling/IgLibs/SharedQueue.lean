import IgLibs.RingBuffer

namespace IgLibs

open Word CMemory

structure SharedQueue where
  read_fd : Int
  write_fd : Int
  m_ring_buffer : RingBuffer
deriving DecidableEq

namespace SharedQueue

def new : SharedQueue := ⟨-1, -1, RingBuffer.new⟩

def close_fd (q : SharedQueue) : SharedQueue :=
  { q with read_fd := -1, write_fd := -1 }

def get_size (q : SharedQueue) : ULong := q.m_ring_buffer.ring_buffer_size

def get_readable_size (q : SharedQueue) : ULong := q.m_ring_buffer.ring_buffer_readable_size

def get_writeable_size (q : SharedQueue) : ULong := q.get_size - q.get_readable_size

-- A queue with the kernel's side of it: the bytes in the notification pipe.
structure Polled where
  queue : SharedQueue
  pipe : Nat
deriving DecidableEq

-- `pipe2` and `memory` are the answers of the two system calls.
def init (s : Polled) (size : ULong) (shared : Bool) (pipe2 : Option (Nat × Nat))
    (memory : Option (Nat → UInt8)) : Polled × Int :=
  if 0 ≤ s.queue.read_fd ∨ 0 ≤ s.queue.write_fd then (s, 1)
  else match pipe2 with
    | none => (s, -1)
    | some (rfd, wfd) =>
        let ring := s.queue.m_ring_buffer.set_shared shared
        let (ring, got) := ring.ring_buffer_alloc size memory
        let queue : SharedQueue := ⟨rfd, wfd, ring⟩
        if got = 0 then (⟨queue.close_fd, 0⟩, -2)
        else (⟨queue, 0⟩, 0)

def uninit (s : Polled) : Polled :=
  ⟨{ s.queue.close_fd with m_ring_buffer := s.queue.m_ring_buffer.ring_buffer_free }, 0⟩

-- A one-byte write(2) on the non-blocking pipe of at most `cap` bytes. Its result is ignored.
def notify (cap : Nat) (s : Polled) : Polled :=
  if 0 ≤ s.queue.write_fd ∧ s.pipe < cap then { s with pipe := s.pipe + 1 } else s

-- A one-byte read(2). Its result is ignored as well.
def clear (s : Polled) : Polled :=
  if 0 ≤ s.queue.read_fd then { s with pipe := s.pipe - 1 } else s

def read (s : Polled) (buf : List UInt8) (size : ULong) (clear_notify : Bool) :
    Option (Polled × List UInt8 × Int) :=
  if s.queue.get_readable_size < size then some (s, buf, -1)
  else do
    let (ring, buf, ret) ← s.queue.m_ring_buffer.ring_buffer_read buf size
    let s := { s with queue := { s.queue with m_ring_buffer := ring } }
    if ret = 0 then some (s, buf, -1)
    else some (if clear_notify then clear s else s, buf, ret.toInt)

def write (cap : Nat) (s : Polled) (buf : List UInt8) (size : ULong) (write_notify : Bool) :
    Option (Polled × Int) :=
  if s.queue.get_writeable_size < size then some (s, -1)
  else do
    let (ring, ret) ← s.queue.m_ring_buffer.ring_buffer_write buf size
    let s := { s with queue := { s.queue with m_ring_buffer := ring } }
    if ret = 0 then some (s, -1)
    else some (if write_notify then notify cap s else s, ret.toInt)

end SharedQueue

end IgLibs
