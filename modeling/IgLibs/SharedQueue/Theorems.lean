import IgLibs.SharedQueue
import IgLibs.RingBuffer.Alloc

namespace IgLibs.SharedQueue

open Word CMemory RingBuffer

variable {s : Polled} {mem queue : List UInt8}

@[simp] theorem notify_queue (cap : Nat) (s : Polled) : (notify cap s).queue = s.queue := by
  unfold notify
  split <;> rfl

@[simp] theorem clear_queue (s : Polled) : (clear s).queue = s.queue := by
  unfold clear
  split <;> rfl

-- No transfer is long enough to be mistaken for the error value.
private theorem toInt_ne_neg_one {n size : ULong} (hn : n.toNat ≤ size.toNat)
    (hsize : ∃ k, size.toNat = 2 ^ k) : n.toInt ≠ -1 := by
  intro he
  obtain ⟨k, hk⟩ := hsize
  have hlt := size.isLt
  rw [hk] at hn hlt
  have hk63 : 2 ^ k ≤ 2 ^ 63 :=
    Nat.pow_le_pow_right (by omega) (by have := (Nat.pow_lt_pow_iff_right (by omega)).mp hlt; omega)
  rw [BitVec.toInt_eq_toNat_cond] at he
  split at he <;> omega

theorem get_writeable_size_eq (q : SharedQueue) (h : Represents q.m_ring_buffer mem queue) :
    q.get_writeable_size.toNat = q.m_ring_buffer.m_size.toNat - queue.length := by
  have hread := h.readable
  have hroom := h.room
  unfold get_writeable_size get_size get_readable_size ring_buffer_size
  rw [BitVec.toNat_sub_of_le (by rw [BitVec.le_def]; omega), hread]

-- A write takes all of its bytes and one token, or it takes nothing.
theorem write_spec (h : Represents s.queue.m_ring_buffer mem queue) (cap : Nat) (src : Span) :
    (src.len.toNat = 0 ∨ s.queue.m_ring_buffer.m_size.toNat - queue.length < src.len.toNat) ∧
      write cap s src.bytes src.len true = some (s, -1) ∨
    0 < src.len.toNat ∧ src.len.toNat ≤ s.queue.m_ring_buffer.m_size.toNat - queue.length ∧
      ∃ ring mem' ret, Represents ring mem' (queue ++ src.bytes.take src.len.toNat) ∧
        ring.m_size = s.queue.m_ring_buffer.m_size ∧ ret ≠ -1 ∧
        write cap s src.bytes src.len true =
          some (notify cap { s with queue := { s.queue with m_ring_buffer := ring } }, ret) := by
  have hfree := get_writeable_size_eq s.queue h
  by_cases hlong : s.queue.get_writeable_size < src.len
  · have hlt := BitVec.lt_def.mp hlong
    exact .inl ⟨.inr (by omega), by simp only [write, hlong, ite_true]⟩
  have hle := BitVec.lt_def.not.mp hlong
  obtain ⟨ring, mem', n, hcall, hn, hsize, hnext⟩ := h.write src
  have hlen : n = src.len := BitVec.eq_of_toNat_eq (by omega)
  subst hlen
  by_cases hzero : src.len = 0
  · refine .inl ⟨.inl (by rw [hzero]; rfl), ?_⟩
    have hsame := h.write_eq src 0 (by
      rw [hzero, std_min, if_neg (by rw [BitVec.lt_def]; exact Nat.not_lt_zero _)])
    have hring : ({ s.queue.m_ring_buffer with
        m_buffer := some (Circular.fill mem s.queue.m_ring_buffer.m_in.toNat
          (src.bytes.take (0 : ULong).toNat)),
        m_in := s.queue.m_ring_buffer.m_in + 0 } : RingBuffer) = s.queue.m_ring_buffer := by
      have hadd : s.queue.m_ring_buffer.m_in + (0 : ULong) = s.queue.m_ring_buffer.m_in :=
        BitVec.add_zero _
      have htake : src.bytes.take (0 : ULong).toNat = [] := rfl
      rw [htake, Circular.fill, hadd, ← h.buffer]
    rw [hring] at hsame
    simp only [write, hlong, ite_false, hsame, Option.bind_eq_bind, Option.bind_some, ite_true]
  · have hpos : 0 < src.len.toNat := by
      have := BitVec.toNat_ne_iff_ne.mpr hzero
      exact Nat.pos_of_ne_zero this
    refine .inr ⟨hpos, by omega, ring, mem', src.len.toInt, hnext, hsize,
      toInt_ne_neg_one (show _ ≤ s.queue.m_ring_buffer.m_size.toNat by omega) h.pow_two, ?_⟩
    simp only [write, hlong, ite_false, hcall, Option.bind_eq_bind, Option.bind_some, hzero,
      ite_true]

-- A read of at least one byte that are all there takes them and one token.
theorem read_spec (h : Represents s.queue.m_ring_buffer mem queue) (dst : Span)
    (hpos : 0 < dst.len.toNat) (hle : dst.len.toNat ≤ queue.length) :
    ∃ ring ret, Represents ring mem (queue.drop dst.len.toNat) ∧ ret ≠ -1 ∧
      read s dst.bytes dst.len true =
        some (clear { s with queue := { s.queue with m_ring_buffer := ring } },
          queue.take dst.len.toNat ++ dst.bytes.drop dst.len.toNat, ret) := by
  have hread := h.readable
  have hroom := h.room
  have hlong : ¬s.queue.get_readable_size < dst.len := by
    rw [BitVec.lt_def, get_readable_size, hread]
    omega
  obtain ⟨ring, n, hcall, hn, hsize, hnext⟩ := h.read dst
  have hlen : n = dst.len := BitVec.eq_of_toNat_eq (by omega)
  subst hlen
  have hzero : dst.len ≠ 0 := by
    intro he
    rw [he] at hpos
    exact Nat.lt_irrefl 0 hpos
  refine ⟨ring, dst.len.toInt, hnext, toInt_ne_neg_one (by omega) h.pow_two, ?_⟩
  simp only [read, hlong, ite_false, hcall, Option.bind_eq_bind, Option.bind_some, hzero, ite_true]

-- A successful init leaves an empty ring, an empty pipe and two open descriptors.
theorem init_spec (s : Polled) (size : ULong) (shared : Bool) (pipe2 : Option (Nat × Nat))
    (memory : Option (Nat → UInt8)) (hok : (init s size shared pipe2 memory).2 = 0) :
    ∃ mem, Represents (init s size shared pipe2 memory).1.queue.m_ring_buffer mem [] ∧
      (init s size shared pipe2 memory).1.pipe = 0 ∧
      0 ≤ (init s size shared pipe2 memory).1.queue.read_fd ∧
      0 ≤ (init s size shared pipe2 memory).1.queue.write_fd := by
  by_cases hopen : 0 ≤ s.queue.read_fd ∨ 0 ≤ s.queue.write_fd
  · simp [init, hopen] at hok
  cases pipe2 with
  | none => simp [init, hopen] at hok
  | some fds =>
      obtain ⟨rfd, wfd⟩ := fds
      simp only [init, hopen, ite_false] at hok ⊢
      by_cases hgot : ((s.queue.m_ring_buffer.set_shared shared).ring_buffer_alloc size memory).2 = 0
      · simp [hgot] at hok
      · simp only [hgot, ite_false] at hok ⊢
        obtain ⟨mem, hrep, -⟩ := ring_buffer_alloc_represents _ size memory hgot
        exact ⟨mem, hrep, trivial, by omega, by omega⟩

end IgLibs.SharedQueue
