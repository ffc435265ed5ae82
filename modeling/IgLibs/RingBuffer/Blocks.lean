import IgLibs.RingBuffer.Alloc
import IgLibs.Machine

namespace IgLibs

open Word CMemory

-- The calls by which rings and queues get and give back what the kernel hands out. Of a pointer
-- it matters whether it is NULL.
inductive Resource
  | posix_memalign (size : ULong) (ok : Bool)
  | mmap (size : ULong) (ok : Bool)
  | free (block : Bool)
  | munmap (block : Bool) (size : ULong)
  | pipe2 (ret : Option (Nat × Nat))
  | close (fd : Int)

namespace Resource

-- The block behind m_buffer, mapped or not, with its size, and the open descriptors.
structure Held where
  memory : Option (Bool × ULong)
  fds : List Int

def idle : Held := ⟨none, []⟩

-- An allocation overwrites m_buffer, so a block that is there is lost, which has no result.
-- Nor has giving back a block in the wrong way, or a descriptor that is not open.
def step (h : Held) : Resource → Option Held
  | .posix_memalign size ok =>
      if h.memory = none then some { h with memory := if ok then some (false, size) else none }
      else none
  | .mmap size ok =>
      if h.memory = none then some { h with memory := if ok then some (true, size) else none }
      else none
  | .free block =>
      if block then
        match h.memory with
        | some (false, _) => some { h with memory := none }
        | _ => none
      else some h
  | .munmap block size =>
      if block then if h.memory = some (true, size) then some { h with memory := none } else none
      else some h
  | .pipe2 ret =>
      match ret with
      | some (read_fd, write_fd) =>
          if h.fds = [] then some { h with fds := [(read_fd : Int), (write_fd : Int)] } else none
      | none => some h
  | .close fd => if fd ∈ h.fds then some { h with fds := h.fds.erase fd } else none

end Resource

namespace RingBuffer

-- The calls of ring_buffer_alloc and of ring_buffer_free.
def alloc_calls (rb : RingBuffer) (size : ULong) (memory : Option (Nat → UInt8)) : List Resource :=
  let size := if is_power_of_2 size then size else roundup_pow_of_two size
  if size = 0 then []
  else [if rb.m_shared then .mmap size memory.isSome else .posix_memalign size memory.isSome]

def free_calls (rb : RingBuffer) : List Resource :=
  [if rb.m_shared then .munmap rb.m_buffer.isSome rb.m_size else .free rb.m_buffer.isSome]

-- The public functions that change a ring. The destructor is free.
inductive Op
  | set_shared (shared : Bool)
  | alloc (size : ULong) (memory : Option (Nat → UInt8))
  | free
  | reset
  | write (src : Span)
  | read (dst : Span)

-- A ring, with the calls made for it so far.
structure Owned where
  ring : RingBuffer
  calls : List Resource

def Owned.step (o : Owned) : Op → Option Owned
  | .set_shared shared => some { o with ring := o.ring.set_shared shared }
  | .alloc size memory =>
      some ⟨(o.ring.ring_buffer_alloc size memory).1, o.calls ++ o.ring.alloc_calls size memory⟩
  | .free => some ⟨o.ring.ring_buffer_free, o.calls ++ o.ring.free_calls⟩
  | .reset => some { o with ring := o.ring.ring_buffer_reset }
  | .write src => (o.ring.ring_buffer_write src.bytes src.len).map fun result =>
      { o with ring := result.1 }
  | .read dst => (o.ring.ring_buffer_read dst.bytes dst.len).map fun result =>
      { o with ring := result.1 }

-- What the ring holds, going by its fields.
def block (rb : RingBuffer) : Option (Bool × ULong) :=
  if rb.m_buffer.isSome then some (rb.m_shared, rb.m_size) else none

-- An allocation finds no block behind the pointer, or asks for nothing.
def Frees (o : Owned) : Op → Prop
  | .alloc size _ => o.ring.m_buffer = none ∨ size = 0
  | _ => True

section

variable {rb : RingBuffer} {o next : Owned}

theorem alloc_size_eq_zero_iff {size : ULong} :
    (if is_power_of_2 size then size else roundup_pow_of_two size) = 0 ↔ size = 0 := by
  constructor
  · intro h
    by_contra hne
    split_ifs at h
    · exact hne h
    · have hpow := toNat_roundup_pow_of_two hne
      rw [h] at hpow
      exact absurd hpow.symm (Nat.two_pow_pos _).ne'
  · rintro rfl
    rfl

theorem block_set_shared (rb : RingBuffer) (shared : Bool) :
    (rb.set_shared shared).block = rb.block := by
  unfold set_shared block
  split_ifs with hbuf
  · rfl
  · rfl

-- Allocating for an empty pointer leaves what the calls leave.
theorem exec_alloc_calls (hbuf : rb.m_buffer = none) (fds : List Int) (size : ULong)
    (memory : Option (Nat → UInt8)) :
    Machine.exec Resource.step ⟨rb.block, fds⟩ (rb.alloc_calls size memory) =
      some ⟨(rb.ring_buffer_alloc size memory).1.block, fds⟩ := by
  unfold alloc_calls ring_buffer_alloc
  dsimp only
  generalize (if is_power_of_2 size then size else roundup_pow_of_two size) = actual
  by_cases hzero : actual = 0
  · rw [if_pos hzero, if_pos hzero]
    rfl
  · rw [if_neg hzero, if_neg hzero]
    cases rb.m_shared <;> cases memory <;>
      simp [Resource.step, block, ring_buffer_reset, hbuf]

-- A block that is there goes back the way it came.
theorem exec_free_calls (rb : RingBuffer) (fds : List Int) :
    Machine.exec Resource.step ⟨rb.block, fds⟩ rb.free_calls =
      some ⟨rb.ring_buffer_free.block, fds⟩ := by
  unfold free_calls block
  cases rb.m_shared <;> cases rb.m_buffer <;>
    simp [Resource.step, ring_buffer_free]

theorem memcpy_isSome {dst dst' src : Block} {doff soff n : ULong}
    (hcopy : memcpy dst doff src soff n = some dst') : dst'.isSome = dst.isSome := by
  unfold memcpy at hcopy
  by_cases hn : n = 0
  · rw [if_pos hn] at hcopy
    rw [Option.some.inj hcopy]
  · rw [if_neg hn] at hcopy
    cases dst with
    | none => cases hcopy
    | some d =>
        cases src with
        | none => cases hcopy
        | some s =>
            obtain ⟨-, heq⟩ := Option.ite_none_right_eq_some.mp hcopy
            rw [← Option.some.inj heq]
            rfl

-- Transfers leave the block where it is.
theorem block_write {src : List UInt8} {len n : ULong} {rb' : RingBuffer}
    (hcall : rb.ring_buffer_write src len = some (rb', n)) : rb'.block = rb.block := by
  obtain ⟨first, hfirst, hrest⟩ := Option.bind_eq_some_iff.mp hcall
  obtain ⟨second, hsecond, heq⟩ := Option.bind_eq_some_iff.mp hrest
  cases heq
  rw [block, block, (memcpy_isSome hsecond).trans (memcpy_isSome hfirst)]

theorem block_read {dst filled : List UInt8} {len n : ULong} {rb' : RingBuffer}
    (hcall : rb.ring_buffer_read dst len = some (rb', filled, n)) : rb'.block = rb.block := by
  obtain ⟨first, -, hrest⟩ := Option.bind_eq_some_iff.mp hcall
  obtain ⟨second, -, heq⟩ := Option.bind_eq_some_iff.mp hrest
  cases heq
  rfl

-- An allocation that finds a block loses it.
theorem exec_alloc_calls_lost {size : ULong} (hbuf : rb.m_buffer ≠ none) (hsize : size ≠ 0)
    (fds : List Int) (memory : Option (Nat → UInt8)) :
    Machine.exec Resource.step ⟨rb.block, fds⟩ (rb.alloc_calls size memory) = none := by
  have hzero := mt alloc_size_eq_zero_iff.mp hsize
  have hsome : rb.m_buffer.isSome = true := Option.isSome_iff_ne_none.mpr hbuf
  unfold alloc_calls
  dsimp only
  rw [if_neg hzero, block, if_pos hsome]
  cases rb.m_shared <;> simp [Resource.step]

-- The calls so far can be made, and leave what the fields say.
def Owned.Good (o : Owned) : Prop :=
  Machine.exec Resource.step Resource.idle o.calls = some ⟨o.ring.block, []⟩

-- The calls so far cannot be made.
def Owned.Lost (o : Owned) : Prop := Machine.exec Resource.step Resource.idle o.calls = none

theorem Owned.Good.append (h : o.Good) {ring : RingBuffer} {calls : List Resource}
    (hcalls : Machine.exec Resource.step ⟨o.ring.block, []⟩ calls = some ⟨ring.block, []⟩) :
    Owned.Good ⟨ring, o.calls ++ calls⟩ :=
  Machine.exec_append_eq_some.mpr ⟨_, h, hcalls⟩

theorem Owned.Good.congr (h : o.Good) {ring : RingBuffer} (hblock : ring.block = o.ring.block) :
    Owned.Good { o with ring := ring } := by
  unfold Owned.Good
  rw [hblock]
  exact h

theorem Owned.Good.step (h : o.Good) {op : Op} (hop : Frees o op)
    (hstep : o.step op = some next) : next.Good := by
  cases op with
  | set_shared shared => exact Option.some.inj hstep ▸ h.congr (block_set_shared o.ring shared)
  | alloc size memory =>
      obtain rfl := Option.some.inj hstep
      rcases hop with hbuf | rfl
      · exact h.append (exec_alloc_calls hbuf [] size memory)
      · exact h.append rfl
  | free => exact Option.some.inj hstep ▸ h.append (exec_free_calls o.ring [])
  | reset => exact Option.some.inj hstep ▸ h.congr rfl
  | write src =>
      obtain ⟨⟨ring, n⟩, hcall, rfl⟩ := Option.map_eq_some_iff.mp hstep
      exact h.congr (block_write hcall)
  | read dst =>
      obtain ⟨⟨ring, filled, n⟩, hcall, rfl⟩ := Option.map_eq_some_iff.mp hstep
      exact h.congr (block_read hcall)

theorem Owned.Good.lost (h : o.Good) {op : Op} (hop : ¬Frees o op) (hstep : o.step op = some next) :
    next.Lost := by
  cases op with
  | alloc size memory =>
      obtain rfl := Option.some.inj hstep
      obtain ⟨hbuf, hsize⟩ := not_or.mp hop
      unfold Owned.Lost
      rw [Machine.exec_append, h, Option.bind_some]
      exact exec_alloc_calls_lost hbuf hsize [] memory
  | _ => exact absurd trivial hop

-- The calls only ever get more.
theorem Owned.step_calls {op : Op} (hstep : o.step op = some next) :
    ∃ more, next.calls = o.calls ++ more := by
  cases op with
  | set_shared shared => exact ⟨[], by rw [← Option.some.inj hstep, List.append_nil]⟩
  | alloc size memory => exact ⟨_, by rw [← Option.some.inj hstep]⟩
  | free => exact ⟨_, by rw [← Option.some.inj hstep]⟩
  | reset => exact ⟨[], by rw [← Option.some.inj hstep, List.append_nil]⟩
  | write src =>
      obtain ⟨result, -, rfl⟩ := Option.map_eq_some_iff.mp hstep
      exact ⟨[], (List.append_nil _).symm⟩
  | read dst =>
      obtain ⟨result, -, rfl⟩ := Option.map_eq_some_iff.mp hstep
      exact ⟨[], (List.append_nil _).symm⟩

theorem Owned.Lost.step (h : o.Lost) {op : Op} (hstep : o.step op = some next) : next.Lost := by
  obtain ⟨more, hcalls⟩ := Owned.step_calls hstep
  unfold Owned.Lost at h ⊢
  rw [hcalls, Machine.exec_append, h]
  rfl

end

end RingBuffer

end IgLibs
