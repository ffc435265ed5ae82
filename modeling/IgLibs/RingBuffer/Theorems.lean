import IgLibs.RingBuffer
import IgLibs.Machine

namespace IgLibs.RingBuffer

open Word CMemory

-- The bytes accepted and not yet read stand in the masked slots from m_out on.
structure Represents (rb : RingBuffer) (mem queue : List UInt8) : Prop where
  buffer : rb.m_buffer = some mem
  length : mem.length = rb.m_size.toNat
  pow_two : ∃ k, rb.m_size.toNat = 2 ^ k
  readable : rb.ring_buffer_readable_size.toNat = queue.length
  room : queue.length ≤ rb.m_size.toNat
  holds : Circular.Holds mem rb.m_out.toNat queue

theorem represents_empty (rb : RingBuffer) (mem : List UInt8) (hmem : rb.m_buffer = some mem)
    (hlen : mem.length = rb.m_size.toNat) (hsize : ∃ k, rb.m_size.toNat = 2 ^ k)
    (hempty : rb.m_in = rb.m_out) : Represents rb mem [] where
  buffer := hmem
  length := hlen
  pow_two := hsize
  readable := by simp [ring_buffer_readable_size, hempty]
  room := Nat.zero_le _
  holds := Circular.holds_nil mem _

theorem represents_fetch (rb : RingBuffer) (mem : List UInt8) (hmem : rb.m_buffer = some mem)
    (hlen : mem.length = rb.m_size.toNat) (hsize : ∃ k, rb.m_size.toNat = 2 ^ k)
    (hroom : rb.ring_buffer_readable_size.toNat ≤ rb.m_size.toNat) :
    Represents rb mem
      (Circular.fetch mem rb.m_out.toNat rb.ring_buffer_readable_size.toNat) := by
  have hpos : 0 < mem.length := by
    obtain ⟨k, hk⟩ := hsize
    rw [hlen, hk]
    exact Nat.two_pow_pos k
  have hfetch := Circular.length_fetch mem rb.m_out.toNat rb.ring_buffer_readable_size.toNat hpos
  exact ⟨hmem, hlen, hsize, hfetch.symm, hfetch.symm ▸ hroom, Circular.holds_fetch mem _ _ hpos⟩

section

variable {rb : RingBuffer} {mem queue : List UInt8}

theorem Represents.size_pos (h : Represents rb mem queue) : 0 < rb.m_size.toNat := by
  obtain ⟨k, hk⟩ := h.pow_two
  rw [hk]
  exact Nat.two_pow_pos k

theorem Represents.free (h : Represents rb mem queue) :
    (rb.m_size - rb.m_in + rb.m_out).toNat = rb.m_size.toNat - queue.length := by
  have hread := h.readable
  have hroom := h.room
  have he : rb.m_size - rb.m_in + rb.m_out = rb.m_size - rb.ring_buffer_readable_size := by
    unfold ring_buffer_readable_size
    bv_omega
  rw [he, BitVec.toNat_sub_of_le (by rw [BitVec.le_def]; omega), hread]

theorem Represents.masked (h : Represents rb mem queue) (x : ULong) :
    (x &&& (rb.m_size - 1)).toNat = x.toNat % mem.length := by
  obtain ⟨k, hk⟩ := h.pow_two
  rw [h.length, toNat_and_mask x rb.m_size hk]

-- Reducing an index modulo 2^64 does not move its slot.
theorem Represents.wrap (h : Represents rb mem queue) (n : Nat) :
    n % 2 ^ 64 % mem.length = n % mem.length := by
  obtain ⟨k, hk⟩ := h.pow_two
  rw [h.length]
  exact Nat.mod_mod_of_dvd n (pow_dvd_of_toNat hk)

theorem Represents.in_slot (h : Represents rb mem queue) :
    rb.m_in.toNat % mem.length = (rb.m_out.toNat + queue.length) % mem.length := by
  have he : rb.m_in.toNat = (rb.m_out.toNat + queue.length) % 2 ^ 64 := by
    have hread := h.readable
    unfold ring_buffer_readable_size at hread
    bv_omega
  rw [he, h.wrap]

-- The bytes left until the physical end of the buffer.
theorem Represents.to_end (h : Represents rb mem queue) (x : ULong) :
    (rb.m_size - (x &&& (rb.m_size - 1))).toNat = mem.length - x.toNat % mem.length := by
  have hpos := h.size_pos
  have hmask := h.masked x
  have hlt := Nat.mod_lt x.toNat (show 0 < mem.length by rw [h.length]; exact hpos)
  rw [BitVec.toNat_sub_of_le (by rw [BitVec.le_def, hmask, ← h.length]; omega), hmask, h.length]

-- Advancing m_in publishes the items that stand behind the queue, in any memory.
theorem Represents.publish (h : Represents rb mem queue) (stored items : List UInt8) (n : ULong)
    (hlength : stored.length = mem.length) (hn : n.toNat = items.length)
    (hroom : queue.length + items.length ≤ rb.m_size.toNat)
    (hholds : Circular.Holds stored rb.m_out.toNat (queue ++ items)) :
    Represents { rb with m_buffer := some stored, m_in := rb.m_in + n } stored (queue ++ items) := by
  have hread := h.readable
  have hlt := rb.m_size.isLt
  refine ⟨rfl, hlength.trans h.length, h.pow_two, ?_, ?_, hholds⟩
  · have hadd : rb.m_in + n - rb.m_out = rb.m_in - rb.m_out + n := by bv_omega
    unfold ring_buffer_readable_size at hread ⊢
    rw [List.length_append, hadd, BitVec.toNat_add_of_lt (by omega), hread, hn]
  · rw [List.length_append]
    exact hroom

-- Advancing m_out releases the oldest items.
theorem Represents.release (h : Represents rb mem queue) (n : ULong) (hn : n.toNat ≤ queue.length) :
    Represents { rb with m_out := rb.m_out + n } mem (queue.drop n.toNat) := by
  have hread := h.readable
  have hroom := h.room
  refine ⟨h.buffer, h.length, h.pow_two, ?_, ?_, ?_⟩
  · have hsub : rb.m_in - (rb.m_out + n) = rb.m_in - rb.m_out - n := by bv_omega
    unfold ring_buffer_readable_size at hread ⊢
    rw [List.length_drop, hsub, BitVec.toNat_sub_of_le (by rw [BitVec.le_def]; omega), hread]
  · rw [List.length_drop]
    exact Nat.le_trans (Nat.sub_le _ _) hroom
  · apply (h.holds.drop n.toNat).congr_pos
    change _ = (rb.m_out + n).toNat % mem.length
    rw [BitVec.toNat_add, h.wrap]

-- The two memcpy calls of a write store the accepted bytes in a row from m_in on.
theorem Represents.write_eq (h : Represents rb mem queue) (src : Span) (n : ULong)
    (hn : n = std_min src.len (rb.m_size - rb.m_in + rb.m_out)) :
    rb.ring_buffer_write src.bytes src.len =
      some ({ rb with
        m_buffer := some (Circular.fill mem rb.m_in.toNat (src.bytes.take n.toNat)),
        m_in := rb.m_in + n }, n) := by
  have hfits := src.fits
  have hlength := h.length
  have hle : n.toNat = min src.len.toNat (rb.m_size.toNat - queue.length) := by
    rw [hn, toNat_std_min, h.free]
  obtain ⟨middle, hfirst, hsecond⟩ := memcpy_store_wrap mem src.bytes rb.m_in.toNat
    (rb.m_in &&& (rb.m_size - 1)) (std_min n (rb.m_size - (rb.m_in &&& (rb.m_size - 1)))) n
    (h.masked _) (by rw [toNat_std_min, h.to_end, h.masked])
    (by rw [hlength]; exact h.size_pos) (by omega) (by omega)
  unfold ring_buffer_write
  rw [h.buffer, ← hn]
  simp only [hfirst, hsecond, Option.bind_eq_bind, Option.bind_some]

-- What a write does: it appends as much of the caller's bytes as there is room for.
theorem Represents.write (h : Represents rb mem queue) (src : Span) :
    ∃ next mem' n, rb.ring_buffer_write src.bytes src.len = some (next, n) ∧
      n.toNat = min src.len.toNat (rb.m_size.toNat - queue.length) ∧
      next.m_size = rb.m_size ∧ Represents next mem' (queue ++ src.bytes.take n.toNat) := by
  have hfits := src.fits
  have hroom := h.room
  have hlength := h.length
  let n := std_min src.len (rb.m_size - rb.m_in + rb.m_out)
  have hn : n.toNat = min src.len.toNat (rb.m_size.toNat - queue.length) := by
    rw [toNat_std_min, h.free]
  have hitems : (src.bytes.take n.toNat).length = n.toNat := by rw [List.length_take]; omega
  refine ⟨_, Circular.fill mem rb.m_in.toNat (src.bytes.take n.toNat), n,
    h.write_eq src n rfl, hn, rfl, ?_⟩
  apply h.publish _ _ n (Circular.length_fill _ _ _) hitems.symm (by omega)
  rw [Circular.fill_congr_pos mem _ _ _ h.in_slot]
  exact h.holds.fill _ (by omega)

-- The two memcpy calls of a read load the oldest bytes in order from m_out on.
theorem Represents.read_eq (h : Represents rb mem queue) (dst : Span) (n : ULong)
    (hn : n = std_min dst.len (rb.m_in - rb.m_out)) :
    rb.ring_buffer_read dst.bytes dst.len =
      some ({ rb with m_out := rb.m_out + n },
        queue.take n.toNat ++ dst.bytes.drop n.toNat, n) := by
  have hfits := dst.fits
  have hroom := h.room
  have hlength := h.length
  have hle : n.toNat = min dst.len.toNat queue.length := by
    rw [hn, toNat_std_min, ← h.readable, ring_buffer_readable_size]
  obtain ⟨middle, hfirst, hsecond⟩ := memcpy_load_wrap mem dst.bytes rb.m_out.toNat
    (rb.m_out &&& (rb.m_size - 1)) (std_min n (rb.m_size - (rb.m_out &&& (rb.m_size - 1)))) n
    (h.masked _) (by rw [toNat_std_min, h.to_end, h.masked])
    (by rw [hlength]; exact h.size_pos) (by omega) (by omega)
  rw [h.holds.fetch n.toNat (by omega)] at hsecond
  unfold ring_buffer_read
  rw [h.buffer, ← hn]
  simp only [hfirst, hsecond, Option.bind_eq_bind, Option.bind_some, Option.getD_some]

-- What a read does: it takes the oldest bytes, as many as were asked for and are there,
-- and leaves the rest of the caller's buffer alone.
theorem Represents.read (h : Represents rb mem queue) (dst : Span) :
    ∃ next n, rb.ring_buffer_read dst.bytes dst.len =
        some (next, queue.take n.toNat ++ dst.bytes.drop n.toNat, n) ∧
      n.toNat = min dst.len.toNat queue.length ∧
      next.m_size = rb.m_size ∧ Represents next mem (queue.drop n.toNat) := by
  let n := std_min dst.len (rb.m_in - rb.m_out)
  have hn : n.toNat = min dst.len.toNat queue.length := by
    rw [toNat_std_min, ← h.readable, ring_buffer_readable_size]
  exact ⟨_, n, h.read_eq dst n rfl, hn, rfl, h.release n (by omega)⟩

end

section

variable {rb : RingBuffer} (hbuf : rb.m_buffer = none) (buffer : List UInt8) (len : ULong)
include hbuf

-- Without storage only a transfer of no bytes is defined.
theorem ring_buffer_write_null :
    rb.ring_buffer_write buffer len =
      if std_min len (rb.m_size - rb.m_in + rb.m_out) = 0 then some (rb, 0) else none := by
  obtain ⟨n, hn⟩ : ∃ n, n = std_min len (rb.m_size - rb.m_in + rb.m_out) := ⟨_, rfl⟩
  obtain ⟨l, hl⟩ : ∃ l, l = std_min n (rb.m_size - (rb.m_in &&& (rb.m_size - 1))) := ⟨_, rfl⟩
  simp only [ring_buffer_write, hbuf, ← hn, ← hl, memcpy_to_null, Option.bind_eq_bind]
  by_cases hzero : n = 0
  · have hl0 : l = 0 := by rw [hl, hzero]; exact std_min_zero _
    have hadd : rb.m_in + (0 : ULong) = rb.m_in := BitVec.add_zero _
    have hsub : (0 : ULong) - 0 = 0 := rfl
    simp only [hl0, hzero, hsub, hadd, ite_true, Option.bind_some, memcpy_zero, ← hbuf]
  · rw [if_neg hzero]
    by_cases hl0 : l = 0
    · have hsub : n - (0 : ULong) = n := BitVec.sub_zero n
      simp only [hl0, hsub, hzero, ite_true, ite_false, Option.bind_some, memcpy_to_null,
        Option.bind_none]
    · simp only [hl0, ite_false, Option.bind_none]

theorem ring_buffer_read_null :
    rb.ring_buffer_read buffer len =
      if std_min len (rb.m_in - rb.m_out) = 0 then some (rb, buffer, 0) else none := by
  obtain ⟨n, hn⟩ : ∃ n, n = std_min len (rb.m_in - rb.m_out) := ⟨_, rfl⟩
  obtain ⟨l, hl⟩ : ∃ l, l = std_min n (rb.m_size - (rb.m_out &&& (rb.m_size - 1))) := ⟨_, rfl⟩
  simp only [ring_buffer_read, hbuf, ← hn, ← hl, memcpy_from_null, Option.bind_eq_bind]
  by_cases hzero : n = 0
  · have hl0 : l = 0 := by rw [hl, hzero]; exact std_min_zero _
    have hadd : rb.m_out + (0 : ULong) = rb.m_out := BitVec.add_zero _
    have hsub : (0 : ULong) - 0 = 0 := rfl
    simp only [hl0, hzero, hsub, hadd, ite_true, Option.bind_some, Option.getD_some, ← hbuf]
  · rw [if_neg hzero]
    by_cases hl0 : l = 0
    · have hsub : n - (0 : ULong) = n := BitVec.sub_zero n
      simp only [hl0, hsub, hzero, ite_true, ite_false, Option.bind_some, Option.bind_none]
    · simp only [hl0, ite_false, Option.bind_none]

end

-- One caller's use of the ring: the calls, and what they moved so far.
inductive Call
  | write (src : Span)
  | read (dst : Span)

structure Session where
  rb : RingBuffer
  accepted : List UInt8
  returned : List UInt8

def Session.step (s : Session) : Call → Option Session
  | .write src => do
      let (rb, n) ← s.rb.ring_buffer_write src.bytes src.len
      some { s with rb, accepted := s.accepted ++ src.bytes.take n.toNat }
  | .read dst => do
      let (rb, buffer, n) ← s.rb.ring_buffer_read dst.bytes dst.len
      some { s with rb, returned := s.returned ++ buffer.take n.toNat }

def Session.Consistent (size : ULong) (s : Session) : Prop :=
  ∃ mem queue, Represents s.rb mem queue ∧ s.accepted = s.returned ++ queue ∧ s.rb.m_size = size

theorem Session.step_consistent {size : ULong} (s : Session) (call : Call)
    (h : s.Consistent size) : ∃ next, s.step call = some next ∧ next.Consistent size := by
  obtain ⟨mem, queue, hrep, hhist, hsize⟩ := h
  cases call with
  | write src =>
      obtain ⟨rb, mem', n, hcall, -, hkeep, hnext⟩ := hrep.write src
      refine ⟨⟨rb, s.accepted ++ src.bytes.take n.toNat, s.returned⟩, ?_,
        mem', _, hnext, ?_, hkeep.trans hsize⟩
      · simp only [step, hcall, Option.bind_eq_bind, Option.bind_some]
      · simp only [hhist, List.append_assoc]
  | read dst =>
      obtain ⟨rb, n, hcall, hn, hkeep, hnext⟩ := hrep.read dst
      have hlen : (queue.take n.toNat).length = n.toNat := by rw [List.length_take]; omega
      have htake : (queue.take n.toNat ++ dst.bytes.drop n.toNat).take n.toNat =
          queue.take n.toNat := by
        rw [List.take_append_of_le_length (by omega), List.take_of_length_le (by omega)]
      refine ⟨⟨rb, s.accepted, s.returned ++ queue.take n.toNat⟩, ?_,
        mem, _, hnext, ?_, hkeep.trans hsize⟩
      · simp only [step, hcall, htake, Option.bind_eq_bind, Option.bind_some]
      · simp only [hhist, List.append_assoc, List.take_append_drop]

-- The ring is a bounded FIFO queue over any sequence of calls, from any start of the
-- indices and also when they wrap past 2^64.
theorem session_is_bounded_fifo (rb : RingBuffer) (mem : List UInt8) (k : Nat)
    (hmem : rb.m_buffer = some mem) (hlen : mem.length = 2 ^ k) (hsize : rb.m_size.toNat = 2 ^ k)
    (hempty : rb.m_in = rb.m_out) (calls : List Call) :
    ∃ s, Machine.exec Session.step ⟨rb, [], []⟩ calls = some s ∧
      s.returned <+: s.accepted ∧
      s.returned.length + s.rb.ring_buffer_readable_size.toNat = s.accepted.length ∧
      s.rb.ring_buffer_readable_size.toNat ≤ rb.m_size.toNat ∧
      (∀ src : Span, ∃ next n, s.rb.ring_buffer_write src.bytes src.len = some (next, n) ∧
        n.toNat = min src.len.toNat
          (rb.m_size.toNat - s.rb.ring_buffer_readable_size.toNat)) ∧
      (∀ dst : Span, ∃ next buffer n, s.rb.ring_buffer_read dst.bytes dst.len = some (next, buffer, n) ∧
        n.toNat = min dst.len.toNat s.rb.ring_buffer_readable_size.toNat) := by
  have hstart : Session.Consistent rb.m_size ⟨rb, [], []⟩ :=
    ⟨mem, [], represents_empty rb mem hmem (by omega) ⟨k, hsize⟩ hempty, rfl, rfl⟩
  obtain ⟨s, hrun, mem', queue, hrep, hhist, hkeep⟩ :=
    Machine.exec_total (Session.Consistent rb.m_size) Session.step_consistent calls hstart
  have hread := hrep.readable
  have hroom := hrep.room
  refine ⟨s, hrun, ⟨queue, hhist.symm⟩, ?_, ?_, ?_, ?_⟩
  · rw [hhist, List.length_append, hread]
  · rw [hread, ← hkeep]
    exact hroom
  · intro src
    obtain ⟨next, _, n, hcall, hn, -, -⟩ := hrep.write src
    exact ⟨next, n, hcall, by rw [hn, hread, hkeep]⟩
  · intro dst
    obtain ⟨next, n, hcall, hn, -, -⟩ := hrep.read dst
    exact ⟨next, _, n, hcall, by rw [hn, hread]⟩

-- A ring of four bytes whose indices wrap past 2^64 after the second byte.
theorem session_is_bounded_fifo_across_wrap :
    ∃ s, Machine.exec Session.step
        ⟨⟨some [0, 0, 0, 0], 4, 0xFFFFFFFFFFFFFFFE, 0xFFFFFFFFFFFFFFFE, false⟩, [], []⟩
        [.write ⟨[1, 2, 3], 3, by decide⟩, .read ⟨[0, 0], 2, by decide⟩,
          .write ⟨[4, 5, 6, 7], 4, by decide⟩] = some s ∧
      s.returned <+: s.accepted ∧
      s.returned.length + s.rb.ring_buffer_readable_size.toNat = s.accepted.length := by
  obtain ⟨s, hrun, hprefix, hlen, -⟩ := session_is_bounded_fifo
    ⟨some [0, 0, 0, 0], 4, 0xFFFFFFFFFFFFFFFE, 0xFFFFFFFFFFFFFFFE, false⟩ [0, 0, 0, 0] 2
    rfl rfl rfl rfl
    [.write ⟨[1, 2, 3], 3, by decide⟩, .read ⟨[0, 0], 2, by decide⟩,
      .write ⟨[4, 5, 6, 7], 4, by decide⟩]
  exact ⟨s, hrun, hprefix, hlen⟩

end IgLibs.RingBuffer
