import IgLibs.CMemory

namespace IgLibs

open Word CMemory

structure RingBuffer where
  m_buffer : Block
  m_size : ULong
  m_in : ULong
  m_out : ULong
  m_shared : Bool
deriving DecidableEq

-- utils.h. Zero is not a power of two.
def is_power_of_2 (n : ULong) : Bool :=
  n != 0 && (n &&& (n - 1)) == 0

def roundup_pow_of_two (n : ULong) : ULong :=
  if n = 0 then 0
  else 1#64 <<< (8 * 8#64 - n.clz - 1)

namespace RingBuffer

def new : RingBuffer := ⟨none, 0, 0, 0, false⟩

def ring_buffer_reset (rb : RingBuffer) : RingBuffer :=
  { rb with m_in := 0, m_out := 0 }

def ring_buffer_size (rb : RingBuffer) : ULong := rb.m_size

def ring_buffer_readable_size (rb : RingBuffer) : ULong := rb.m_in - rb.m_out

def get_shared (rb : RingBuffer) : Bool := rb.m_shared

def set_shared (rb : RingBuffer) (shared : Bool) : RingBuffer :=
  if rb.m_buffer.isSome then rb else { rb with m_shared := shared }

-- `memory` is what posix_memalign or mmap hands out, with any old contents;
-- `none` is a failed allocation, after which only m_buffer has changed.
def ring_buffer_alloc (rb : RingBuffer) (size : ULong) (memory : Option (Nat → UInt8)) :
    RingBuffer × ULong :=
  let size := if is_power_of_2 size then size else roundup_pow_of_two size
  if size = 0 then (rb, 0)
  else match memory with
    | none => ({ rb with m_buffer := none }, 0)
    | some contents =>
        let block := (List.range size.toNat).map contents
        (({ rb with m_buffer := some block, m_size := size } : RingBuffer).ring_buffer_reset, size)

-- free() and munmap() differ for the operating system only.
def ring_buffer_free (rb : RingBuffer) : RingBuffer :=
  { rb.ring_buffer_reset with m_buffer := none }

def ring_buffer_write (rb : RingBuffer) (buffer : List UInt8) (len : ULong) :
    Option (RingBuffer × ULong) := do
  let len := std_min len (rb.m_size - rb.m_in + rb.m_out)
  let l := std_min len (rb.m_size - (rb.m_in &&& (rb.m_size - 1)))
  let mem ← memcpy rb.m_buffer (rb.m_in &&& (rb.m_size - 1)) (some buffer) 0 l
  let mem ← memcpy mem 0 (some buffer) l (len - l)
  some ({ rb with m_buffer := mem, m_in := rb.m_in + len }, len)

-- Also returns the caller's buffer after the call.
def ring_buffer_read (rb : RingBuffer) (buffer : List UInt8) (len : ULong) :
    Option (RingBuffer × List UInt8 × ULong) := do
  let len := std_min len (rb.m_in - rb.m_out)
  let l := std_min len (rb.m_size - (rb.m_out &&& (rb.m_size - 1)))
  let dst ← memcpy (some buffer) 0 rb.m_buffer (rb.m_out &&& (rb.m_size - 1)) l
  let dst ← memcpy dst l rb.m_buffer 0 (len - l)
  some ({ rb with m_out := rb.m_out + len }, dst.getD [], len)

end RingBuffer

end IgLibs
