import IgLibs.SharedQueue.Concurrent
import IgLibs.SharedQueue.Theorems
import IgLibs.RingBuffer.Concurrent.Theorems

namespace IgLibs.SharedQueue.Concurrent

open Word CMemory RingBuffer

-- A passed check stays good: only the other thread runs in between, and it makes room.
def WriterReady (size : Nat) (queue : List UInt8) (writer : Option Span) :
    RingBuffer.Concurrent.Producer → Prop
  | .idle => ∀ src, writer = some src → queue.length + src.len.toNat ≤ size
  | .copying src _ len _ => writer = some src ∧ len = src.len

def ReaderReady (queue : List UInt8) (reader : Option Span) : RingBuffer.Concurrent.Consumer → Prop
  | .idle => ∀ dst, reader = some dst → dst.len.toNat ≤ queue.length
  | .copying dst _ _ len _ => reader = some dst ∧ len = dst.len

structure Invariant (s : State) (mem queue : List UInt8) : Prop where
  ring : RingBuffer.Concurrent.Invariant s.ring mem queue
  writer : WriterReady s.ring.rb.m_size.toNat queue s.writer s.ring.producer
  reader : ReaderReady queue s.reader s.ring.consumer

-- The list of calls grows by at most one, which the queue of messages can take.
def Logged (s t : State) (queue next : List UInt8) : Prop :=
  (t.calls = s.calls ∧ next = queue) ∨
    ∃ call, t.calls = s.calls ++ [call] ∧
      Call.step s.ring.rb.m_size.toNat queue call = some next

theorem returned_eq {len : ULong} (hpos : 1 ≤ len.toNat) (hle : len.toNat ≤ 2 ^ 62) :
    returned len = len.toNat := by
  have hne : len ≠ 0 := by
    rintro rfl
    exact absurd hpos (by decide)
  rw [returned, if_neg hne, BitVec.toInt_eq_toNat_cond, if_pos (by omega)]

theorem returned_zero {len : ULong} (hzero : ¬1 ≤ len.toNat) : len = 0 ∧ returned len = -1 := by
  obtain rfl : len = 0 := BitVec.eq_of_toNat_eq (by simp; omega)
  exact ⟨rfl, rfl⟩

theorem eq_zero_of_returned {len : ULong} (hret : returned len = -1) (hle : len.toNat ≤ 2 ^ 62) :
    len = 0 := by
  by_cases hpos : 1 ≤ len.toNat
  · rw [returned_eq hpos hle] at hret
    omega
  · exact (returned_zero hpos).1

theorem toNat_returned {len : ULong} (hle : len.toNat ≤ 2 ^ 62) :
    (returned len).toNat = len.toNat := by
  by_cases hpos : 1 ≤ len.toNat
  · rw [returned_eq hpos hle, Int.toNat_natCast]
  · rw [(returned_zero hpos).2]
    omega

theorem Call.whole_of_step {cap : Nat} {queue next : List UInt8} {call : Call}
    (hstep : call.step cap queue = some next) :
    call.ret = -1 ∨ 1 ≤ call.len.toNat ∧ call.ret = call.len.toNat := by
  cases call with
  | write src ret =>
      rw [Call.step] at hstep
      split at hstep
      · rename_i hfits
        exact .inr ⟨hfits.1, (Option.ite_none_right_eq_some.mp hstep).1⟩
      · exact .inl (Option.ite_none_right_eq_some.mp hstep).1
  | read dst ret bytes =>
      rw [Call.step] at hstep
      split at hstep
      · rename_i hfits
        exact .inr ⟨hfits.1, (Option.ite_none_right_eq_some.mp hstep).1.1⟩
      · exact .inl (Option.ite_none_right_eq_some.mp hstep).1.1

theorem Call.whole_of_exec {cap : Nat} {queue final : List UInt8} {calls : List Call}
    (hrun : Machine.exec (Call.step cap) queue calls = some final) (call : Call)
    (hmem : call ∈ calls) : call.ret = -1 ∨ 1 ≤ call.len.toNat ∧ call.ret = call.len.toNat := by
  induction calls generalizing queue with
  | nil => cases hmem
  | cons first rest ih =>
      obtain ⟨next, hnext, hrest⟩ := Machine.exec_cons_eq_some.mp hrun
      rcases List.mem_cons.mp hmem with rfl | hlater
      · exact Call.whole_of_step hnext
      · exact ih hrest hlater

section

variable {size : Nat} {queue : List UInt8}

theorem WriterReady.of_le {writer : Option Span} {producer : RingBuffer.Concurrent.Producer}
    (h : WriterReady size queue writer producer) {next : List UInt8}
    (hle : next.length ≤ queue.length) : WriterReady size next writer producer := by
  cases producer with
  | idle => exact fun src hsrc => Nat.le_trans (Nat.add_le_add_right hle _) (h src hsrc)
  | copying => exact h

theorem ReaderReady.of_le {reader : Option Span} {consumer : RingBuffer.Concurrent.Consumer}
    (h : ReaderReady queue reader consumer) {next : List UInt8}
    (hle : queue.length ≤ next.length) : ReaderReady next reader consumer := by
  cases consumer with
  | idle => exact fun dst hdst => Nat.le_trans (h dst hdst) hle
  | copying => exact h

theorem WriterReady.idle {producer : RingBuffer.Concurrent.Producer}
    (h : WriterReady size queue none producer) : producer = .idle := by
  cases producer with
  | idle => rfl
  | copying src free len done => cases h.1

theorem ReaderReady.idle {consumer : RingBuffer.Concurrent.Consumer}
    (h : ReaderReady queue none consumer) : consumer = .idle := by
  cases consumer with
  | idle => rfl
  | copying dst buffer avail len done => cases h.1

end

section

variable {s t : State} {mem queue : List UInt8}

theorem Invariant.free (h : Invariant s mem queue) :
    s.shared.get_writeable_size.toNat = s.ring.rb.m_size.toNat - queue.length :=
  get_writeable_size_eq s.shared h.ring.ring

theorem Invariant.readable (h : Invariant s mem queue) :
    s.shared.get_readable_size.toNat = queue.length := h.ring.ring.readable

theorem Invariant.checkWrite (h : Invariant s mem queue) {src : Span}
    (hstep : Concurrent.checkWrite s src = some t) :
    Invariant t mem queue ∧ Logged s t queue queue ∧ t.ring = s.ring := by
  have hfree := h.free
  have hroom := h.ring.ring.room
  unfold Concurrent.checkWrite at hstep
  cases hw : s.writer with
  | some other => simp [hw] at hstep
  | none =>
      have hidle := (hw ▸ h.writer).idle
      simp only [hw] at hstep
      split at hstep
      · rename_i hlong
        obtain rfl := Option.some.inj hstep
        rw [BitVec.lt_def, hfree] at hlong
        refine ⟨⟨h.ring, hw ▸ h.writer, h.reader⟩, .inr ⟨_, rfl, ?_⟩, rfl⟩
        rw [Call.step, if_neg (by omega), if_pos rfl]
      · rename_i hshort
        obtain rfl := Option.some.inj hstep
        rw [BitVec.lt_def, hfree] at hshort
        refine ⟨⟨h.ring, ?_, h.reader⟩, .inl ⟨rfl, rfl⟩, rfl⟩
        change WriterReady s.ring.rb.m_size.toNat queue (some src) s.ring.producer
        rw [hidle]
        rintro _ ⟨⟩
        omega

theorem Invariant.checkRead (h : Invariant s mem queue) {dst : Span}
    (hstep : Concurrent.checkRead s dst = some t) :
    Invariant t mem queue ∧ Logged s t queue queue ∧ t.ring = s.ring := by
  have hreadable := h.readable
  unfold Concurrent.checkRead at hstep
  cases hr : s.reader with
  | some other => simp [hr] at hstep
  | none =>
      have hidle := (hr ▸ h.reader).idle
      simp only [hr] at hstep
      split at hstep
      · rename_i hlong
        obtain rfl := Option.some.inj hstep
        rw [BitVec.lt_def, hreadable] at hlong
        refine ⟨⟨h.ring, h.writer, hr ▸ h.reader⟩, .inr ⟨_, rfl, ?_⟩, rfl⟩
        rw [Call.step, if_neg (by omega), if_pos ⟨rfl, rfl⟩]
      · rename_i hshort
        obtain rfl := Option.some.inj hstep
        rw [BitVec.lt_def, hreadable] at hshort
        refine ⟨⟨h.ring, h.writer, ?_⟩, .inl ⟨rfl, rfl⟩, rfl⟩
        change ReaderReady queue (some dst) s.ring.consumer
        rw [hidle]
        rintro _ ⟨⟩
        omega

-- The length that the ring operation fixes is the whole length of the message.
theorem Invariant.sampleOut (h : Invariant s mem queue) {src : Span} (hw : s.writer = some src)
    {ring : RingBuffer.Concurrent.State}
    (hstep : RingBuffer.Concurrent.step s.ring (.sampleOut src) = some ring) :
    Invariant { s with ring } mem queue := by
  have hfree := h.ring.ring.free
  have hready := h.writer
  simp only [RingBuffer.Concurrent.step] at hstep
  cases hp : s.ring.producer with
  | copying => simp [hp] at hstep
  | idle =>
      simp only [hp, Option.some.injEq] at hstep
      subst hstep
      rw [hp] at hready
      have hle := hready src hw
      refine ⟨h.ring.sampleOut src hp rfl, ⟨hw, ?_⟩, h.reader⟩
      apply BitVec.eq_of_toNat_eq
      rw [toNat_std_min, hfree]
      omega

theorem Invariant.sampleIn (h : Invariant s mem queue) {dst : Span} (hr : s.reader = some dst)
    {ring : RingBuffer.Concurrent.State}
    (hstep : RingBuffer.Concurrent.step s.ring (.sampleIn dst) = some ring) :
    Invariant { s with ring } mem queue := by
  have hreadable := h.ring.ring.readable
  have hready := h.reader
  simp only [RingBuffer.Concurrent.step] at hstep
  cases hc : s.ring.consumer with
  | copying => simp [hc] at hstep
  | idle =>
      simp only [hc, Option.some.injEq] at hstep
      subst hstep
      rw [hc] at hready
      have hle := hready dst hr
      refine ⟨h.ring.sampleIn dst rfl, h.writer, hr, ?_⟩
      apply BitVec.eq_of_toNat_eq
      unfold ring_buffer_readable_size at hreadable
      rw [toNat_std_min, hreadable]
      omega

-- What the step that ends a ring operation needs and does.
theorem publishIn_cases (hstep : Concurrent.publishIn s = some t) :
    ∃ src free len, s.ring.producer = .copying src free len len.toNat ∧
      t = { s with writer := none, calls := s.calls ++ [.write src (returned len)], ring :=
            { s.ring with rb := { s.ring.rb with m_in := s.ring.rb.m_in + len }, producer := .idle,
                          log := s.ring.log ++ [.push (src.bytes.take src.len.toNat) free.toNat
                            (src.bytes.take len.toNat)] } } := by
  unfold Concurrent.publishIn at hstep
  cases hp : s.ring.producer with
  | idle => simp [hp] at hstep
  | copying src free len done =>
      simp only [hp, RingBuffer.Concurrent.step, Option.bind_eq_bind, Option.bind_eq_some_iff,
        Option.ite_none_right_eq_some, Option.some.injEq] at hstep
      obtain ⟨ring, ⟨rfl, rfl⟩, rfl⟩ := hstep
      exact ⟨src, free, len, rfl, rfl⟩

theorem publishOut_cases (hstep : Concurrent.publishOut s = some t) :
    ∃ dst buffer avail len, s.ring.consumer = .copying dst buffer avail len len.toNat ∧
      t = { s with reader := none, ring :=
              { s.ring with rb := { s.ring.rb with m_out := s.ring.rb.m_out + len },
                            consumer := .idle,
                            log := s.ring.log ++ [.pop dst.len.toNat avail.toNat
                              (buffer.take len.toNat)] },
                   calls := s.calls ++ [.read dst (returned len) (buffer.take len.toNat)] } := by
  unfold Concurrent.publishOut at hstep
  cases hc : s.ring.consumer with
  | idle => simp [hc] at hstep
  | copying dst buffer avail len done =>
      simp only [hc, RingBuffer.Concurrent.step, Option.bind_eq_bind, Option.bind_eq_some_iff,
        Option.ite_none_right_eq_some, Option.some.injEq] at hstep
      obtain ⟨ring, ⟨rfl, rfl⟩, rfl⟩ := hstep
      exact ⟨dst, buffer, avail, len, rfl, rfl⟩

-- No copy in progress is shorter than its message, and there is room or there are bytes for it.
theorem Invariant.copying_in (h : Invariant s mem queue) {src : Span} {free len : ULong}
    {done : Nat} (hp : s.ring.producer = .copying src free len done) :
    len = src.len ∧ queue.length + src.len.toNat ≤ s.ring.rb.m_size.toNat := by
  have hready := h.writer
  have hsafe := h.ring.producer
  rw [hp] at hready hsafe
  obtain ⟨-, rfl⟩ := hready
  obtain ⟨hmin, -, hfree⟩ := hsafe
  have hle : src.len.toNat ≤ free.toNat := by
    rw [hmin, toNat_std_min]
    exact Nat.min_le_right _ _
  exact ⟨rfl, by omega⟩

theorem Invariant.copying_out (h : Invariant s mem queue) {dst : Span} {buffer : List UInt8}
    {avail len : ULong} {done : Nat} (hc : s.ring.consumer = .copying dst buffer avail len done) :
    len = dst.len ∧ dst.len.toNat ≤ queue.length ∧ buffer.take done = queue.take done := by
  have hready := h.reader
  have hsafe := h.ring.consumer
  rw [hc] at hready hsafe
  obtain ⟨-, rfl⟩ := hready
  obtain ⟨hmin, -, havail, -, htake⟩ := hsafe
  have hle : dst.len.toNat ≤ avail.toNat := by
    rw [hmin, toNat_std_min]
    exact Nat.min_le_right _ _
  exact ⟨rfl, by omega, htake⟩

-- The whole message goes behind the queue, and a message of no bytes is refused.
theorem Invariant.publishIn (h : Invariant s mem queue) (h62 : s.ring.rb.m_size.toNat ≤ 2 ^ 62)
    (hstep : Concurrent.publishIn s = some t) :
    ∃ next, Invariant t mem next ∧ Logged s t queue next ∧
      t.ring.rb.m_size = s.ring.rb.m_size := by
  obtain ⟨src, free, len, hp, rfl⟩ := publishIn_cases hstep
  obtain ⟨rfl, hroom⟩ := h.copying_in hp
  obtain ⟨hring, -⟩ := h.ring.publishIn hp rfl
  have hreader : ReaderReady (queue ++ src.bytes.take src.len.toNat) s.reader s.ring.consumer :=
    h.reader.of_le (by simp)
  refine ⟨_, ⟨hring, ?_, hreader⟩, .inr ⟨_, rfl, ?_⟩, rfl⟩
  · rintro _ ⟨⟩
  · rw [Call.step]
    by_cases hpos : 1 ≤ src.len.toNat
    · rw [if_pos ⟨hpos, hroom⟩, if_pos (returned_eq hpos (by omega))]
    · obtain ⟨hzero, hret⟩ := returned_zero hpos
      rw [if_neg (by omega), if_pos hret, hzero]
      simp

-- The oldest bytes go to the reader, as many as it asked for.
theorem Invariant.publishOut (h : Invariant s mem queue) (h62 : s.ring.rb.m_size.toNat ≤ 2 ^ 62)
    (hstep : Concurrent.publishOut s = some t) :
    ∃ next, Invariant t mem next ∧ Logged s t queue next ∧
      t.ring.rb.m_size = s.ring.rb.m_size := by
  have hroom := h.ring.ring.room
  obtain ⟨dst, buffer, avail, len, hc, rfl⟩ := publishOut_cases hstep
  obtain ⟨rfl, hthere, htake⟩ := h.copying_out hc
  obtain ⟨hring, -⟩ := h.ring.publishOut hc rfl
  have hwriter : WriterReady s.ring.rb.m_size.toNat (queue.drop dst.len.toNat) s.writer
      s.ring.producer := h.writer.of_le (by simp)
  refine ⟨_, ⟨hring, hwriter, ?_⟩, .inr ⟨_, rfl, ?_⟩, rfl⟩
  · rintro _ ⟨⟩
  · rw [Call.step, htake]
    by_cases hpos : 1 ≤ dst.len.toNat
    · rw [if_pos ⟨hpos, hthere⟩, if_pos ⟨returned_eq hpos (by omega), rfl⟩]
    · obtain ⟨hzero, hret⟩ := returned_zero hpos
      rw [if_neg (by omega), if_pos ⟨hret, by simp [hzero]⟩, hzero]
      simp

theorem Invariant.putByte (h : Invariant s mem queue) {ring : RingBuffer.Concurrent.State}
    (hstep : RingBuffer.Concurrent.putByte s.ring = some ring) :
    ∃ stored, Invariant { s with ring } stored queue ∧ ring.rb.m_size = s.ring.rb.m_size := by
  have hready := h.writer
  cases hslot : s.ring.putSlot with
  | none => simp [RingBuffer.Concurrent.putByte, hslot] at hstep
  | some slot =>
      obtain ⟨src, free, len, done, hp, hdone, hbyte, -, -⟩ := h.ring.putSlot hslot
      obtain ⟨stored, -, hput, hinv⟩ := h.ring.putByte_eq hp hdone hbyte
      obtain rfl := Option.some.inj (hput.symm.trans hstep)
      rw [hp] at hready
      exact ⟨stored, ⟨hinv, hready, h.reader⟩, rfl⟩

theorem Invariant.getByte (h : Invariant s mem queue) {ring : RingBuffer.Concurrent.State}
    (hstep : RingBuffer.Concurrent.getByte s.ring = some ring) :
    Invariant { s with ring } mem queue ∧ ring.rb.m_size = s.ring.rb.m_size := by
  have hready := h.reader
  cases hslot : s.ring.getSlot with
  | none => simp [RingBuffer.Concurrent.getByte, hslot] at hstep
  | some slot =>
      obtain ⟨dst, buffer, avail, len, done, hc, hdone, -, -⟩ := h.ring.getSlot hslot
      obtain ⟨filled, hget, hinv⟩ := h.ring.getByte_eq hc hdone
      obtain rfl := Option.some.inj (hget.symm.trans hstep)
      rw [hc] at hready
      exact ⟨⟨hinv, h.writer, hready⟩, rfl⟩

-- One step of either thread finishes at most one call, which moves a whole message or nothing.
theorem Invariant.step (h : Invariant s mem queue) (h62 : s.ring.rb.m_size.toNat ≤ 2 ^ 62)
    {action : Action} (hstep : Concurrent.step s action = some t) :
    ∃ mem' next, Invariant t mem' next ∧ Logged s t queue next ∧
      t.ring.rb.m_size = s.ring.rb.m_size := by
  cases action with
  | checkWrite src =>
      obtain ⟨hinv, hlog, hring⟩ := h.checkWrite hstep
      exact ⟨mem, queue, hinv, hlog, by rw [hring]⟩
  | checkRead dst =>
      obtain ⟨hinv, hlog, hring⟩ := h.checkRead hstep
      exact ⟨mem, queue, hinv, hlog, by rw [hring]⟩
  | ring action =>
      cases action with
      | sampleOut src =>
          simp only [Concurrent.step, Option.ite_none_right_eq_some, Option.map_eq_some_iff] at hstep
          obtain ⟨hw, ring, hring, rfl⟩ := hstep
          have hinv := h.sampleOut hw hring
          obtain ⟨_, _, -, -, hsize⟩ := h.ring.step hring
          exact ⟨mem, queue, hinv, .inl ⟨rfl, rfl⟩, hsize⟩
      | sampleIn dst =>
          simp only [Concurrent.step, Option.ite_none_right_eq_some, Option.map_eq_some_iff] at hstep
          obtain ⟨hr, ring, hring, rfl⟩ := hstep
          have hinv := h.sampleIn hr hring
          obtain ⟨_, _, -, -, hsize⟩ := h.ring.step hring
          exact ⟨mem, queue, hinv, .inl ⟨rfl, rfl⟩, hsize⟩
      | putByte =>
          simp only [Concurrent.step, Option.map_eq_some_iff] at hstep
          obtain ⟨ring, hring, rfl⟩ := hstep
          obtain ⟨stored, hinv, hsize⟩ := h.putByte hring
          exact ⟨stored, queue, hinv, .inl ⟨rfl, rfl⟩, hsize⟩
      | getByte =>
          simp only [Concurrent.step, Option.map_eq_some_iff] at hstep
          obtain ⟨ring, hring, rfl⟩ := hstep
          obtain ⟨hinv, hsize⟩ := h.getByte hring
          exact ⟨mem, queue, hinv, .inl ⟨rfl, rfl⟩, hsize⟩
      | publishIn =>
          obtain ⟨next, hinv, hlog, hsize⟩ := h.publishIn h62 hstep
          exact ⟨mem, next, hinv, hlog, hsize⟩
      | publishOut =>
          obtain ⟨next, hinv, hlog, hsize⟩ := h.publishOut h62 hstep
          exact ⟨mem, next, hinv, hlog, hsize⟩

-- The step that makes a call return -1 leaves the ring as it is.
theorem Invariant.refused (h : Invariant s mem queue) (h62 : s.ring.rb.m_size.toNat ≤ 2 ^ 62)
    {action : Action} {call : Call} (hstep : Concurrent.step s action = some t)
    (hcalls : t.calls = s.calls ++ [call]) (hret : call.ret = -1) : t.ring.rb = s.ring.rb := by
  have hroom := h.ring.ring.room
  cases action with
  | checkWrite src =>
      obtain ⟨-, -, hring⟩ := h.checkWrite hstep
      rw [hring]
  | checkRead dst =>
      obtain ⟨-, -, hring⟩ := h.checkRead hstep
      rw [hring]
  | ring action =>
      cases action with
      | sampleOut src | sampleIn src =>
          simp only [Concurrent.step, Option.ite_none_right_eq_some, Option.map_eq_some_iff] at hstep
          obtain ⟨-, ring, -, rfl⟩ := hstep
          simp at hcalls
      | putByte | getByte =>
          simp only [Concurrent.step, Option.map_eq_some_iff] at hstep
          obtain ⟨ring, -, rfl⟩ := hstep
          simp at hcalls
      | publishIn =>
          obtain ⟨src, free, len, hp, rfl⟩ := publishIn_cases hstep
          obtain ⟨rfl, hfits⟩ := h.copying_in hp
          obtain rfl : Call.write src (returned src.len) = call := by simpa using hcalls
          have hzero := eq_zero_of_returned hret (by omega)
          have hadd : s.ring.rb.m_in + (0 : ULong) = s.ring.rb.m_in := BitVec.add_zero _
          simp only [hzero, hadd]
      | publishOut =>
          obtain ⟨dst, buffer, avail, len, hc, rfl⟩ := publishOut_cases hstep
          obtain ⟨rfl, hthere, -⟩ := h.copying_out hc
          obtain rfl : Call.read dst (returned dst.len) (buffer.take dst.len.toNat) = call := by
            simpa using hcalls
          have hzero := eq_zero_of_returned hret (by omega)
          have hadd : s.ring.rb.m_out + (0 : ULong) = s.ring.rb.m_out := BitVec.add_zero _
          simp only [hzero, hadd]

end

section

variable {s : State} {mem queue : List UInt8}

theorem exec_copies {action : RingBuffer.Concurrent.Action}
    (haction : ∀ s, step s (.ring action) =
      (RingBuffer.Concurrent.step s.ring action).map fun ring => { s with ring })
    (n : Nat) {ring : RingBuffer.Concurrent.State}
    (hrun : Machine.exec RingBuffer.Concurrent.step s.ring (List.replicate n action) = some ring) :
    Machine.exec step s (List.replicate n (.ring action)) = some { s with ring } := by
  induction n generalizing s with
  | zero =>
      obtain rfl := Option.some.inj hrun
      rfl
  | succ n ih =>
      rw [List.replicate_succ] at hrun ⊢
      obtain ⟨next, hnext, hrest⟩ := Machine.exec_cons_eq_some.mp hrun
      have hcopy : Machine.exec step { s with ring := next } (List.replicate n (.ring action)) =
          some { s with ring } := ih hrest
      rw [Machine.exec_cons, haction, hnext, Option.map_some, Option.bind_some, hcopy]

-- What is left of the two calls once the size check has passed.
theorem write_checked {q : SharedQueue} {src : Span} {ring : RingBuffer} {n : ULong}
    (cap pipe : Nat) (write_notify : Bool) (hlong : ¬q.get_writeable_size < src.len)
    (hcall : q.m_ring_buffer.ring_buffer_write src.bytes src.len = some (ring, n)) :
    ∃ polled, polled.queue.m_ring_buffer = ring ∧
      write cap ⟨q, pipe⟩ src.bytes src.len write_notify = some (polled, returned n) := by
  simp only [write, hlong, ite_false, hcall, Option.bind_eq_bind, Option.bind_some, returned]
  split
  · exact ⟨_, rfl, rfl⟩
  · refine ⟨_, ?_, rfl⟩
    split <;> simp

theorem read_checked {q : SharedQueue} {dst : Span} {ring : RingBuffer} {buffer : List UInt8}
    {n : ULong} (pipe : Nat) (clear_notify : Bool) (hlong : ¬q.get_readable_size < dst.len)
    (hcall : q.m_ring_buffer.ring_buffer_read dst.bytes dst.len = some (ring, buffer, n)) :
    ∃ polled, polled.queue.m_ring_buffer = ring ∧
      read ⟨q, pipe⟩ dst.bytes dst.len clear_notify = some (polled, buffer, returned n) := by
  simp only [read, hlong, ite_false, hcall, Option.bind_eq_bind, Option.bind_some, returned]
  split
  · exact ⟨_, rfl, rfl⟩
  · refine ⟨_, ?_, rfl⟩
    split <;> simp

-- The steps of one write taken in a row are the call of shared_queue.cpp.
theorem exec_write (h : Invariant s mem queue) (hw : s.writer = none) (cap : Nat) (src : Span)
    (write_notify : Bool) :
    ∃ polled ret actions log,
      write cap ⟨s.shared, 0⟩ src.bytes src.len write_notify = some (polled, ret) ∧
      Machine.exec step s actions =
        some { s with ring := { s.ring with rb := polled.queue.m_ring_buffer, log },
                      calls := s.calls ++ [.write src ret] } := by
  have hp : s.ring.producer = .idle := (hw ▸ h.writer).idle
  by_cases hlong : s.shared.get_writeable_size < src.len
  · refine ⟨⟨s.shared, 0⟩, -1, [.checkWrite src], s.ring.log, ?_, ?_⟩
    · simp only [write, hlong, ite_true]
    · simp only [Machine.exec_cons, Machine.exec_nil, step, checkWrite, hw, hlong, ite_true,
        Option.bind_some]
      rfl
  · obtain ⟨free, hf⟩ : ∃ free, free = s.ring.rb.m_size - s.ring.rb.m_in + s.ring.rb.m_out :=
      ⟨_, rfl⟩
    obtain ⟨n, hn⟩ : ∃ n, n = std_min src.len free := ⟨_, rfl⟩
    have hcall := h.ring.ring.write_eq src n (hf ▸ hn)
    have hput := RingBuffer.Concurrent.exec_putByte (h.ring.sampleOut src hp hf) rfl n.toNat
      (by rw [hn]; omega)
    rw [← hn] at hput
    have hcopies := exec_copies (s := { s with writer := some src, ring :=
      { s.ring with producer := .copying src free n 0 } }) (fun _ => rfl) n.toNat hput
    obtain ⟨polled, hring, hwrite⟩ := write_checked cap 0 write_notify hlong hcall
    refine ⟨polled, returned n, .checkWrite src :: .ring (.sampleOut src) ::
        (List.replicate n.toNat (.ring .putByte) ++ [.ring .publishIn]),
      s.ring.log ++ [.push (src.bytes.take src.len.toNat) free.toNat (src.bytes.take n.toNat)],
      hwrite, ?_⟩
    rw [Machine.exec_cons]
    simp only [step, checkWrite, hw, hlong, ite_false, Option.bind_some, Machine.exec_cons,
      ite_true, RingBuffer.Concurrent.step, hp, Option.map_some, ← hf, ← hn]
    rw [Machine.exec_append, hcopies, Option.bind_some]
    simp only [Machine.exec_cons, Machine.exec_nil, step, publishIn, RingBuffer.Concurrent.step,
      RingBuffer.Concurrent.afterPut, Nat.zero_add, ite_true, Option.bind_some,
      Option.bind_eq_bind, Nat.add_zero, List.drop_zero, ← hp, hring]

-- The steps of one read taken in a row are the call of shared_queue.cpp.
theorem exec_read (h : Invariant s mem queue) (h62 : s.ring.rb.m_size.toNat ≤ 2 ^ 62)
    (hr : s.reader = none) (dst : Span) (clear_notify : Bool) :
    ∃ polled buffer ret actions log,
      read ⟨s.shared, 0⟩ dst.bytes dst.len clear_notify = some (polled, buffer, ret) ∧
      Machine.exec step s actions =
        some { s with ring := { s.ring with rb := polled.queue.m_ring_buffer, log },
                      calls := s.calls ++ [.read dst ret (buffer.take ret.toNat)] } := by
  have hc : s.ring.consumer = .idle := (hr ▸ h.reader).idle
  by_cases hlong : s.shared.get_readable_size < dst.len
  · refine ⟨⟨s.shared, 0⟩, dst.bytes, -1, [.checkRead dst], s.ring.log, ?_, ?_⟩
    · simp only [read, hlong, ite_true]
    · simp only [Machine.exec_cons, Machine.exec_nil, step, checkRead, hr, hlong, ite_true,
        Option.bind_some]
      rfl
  · have hroom := h.ring.ring.room
    obtain ⟨avail, ha⟩ : ∃ avail, avail = s.ring.rb.m_in - s.ring.rb.m_out := ⟨_, rfl⟩
    obtain ⟨n, hn⟩ : ∃ n, n = std_min dst.len avail := ⟨_, rfl⟩
    have hcall := h.ring.ring.read_eq dst n (ha ▸ hn)
    have hle : n.toNat ≤ queue.length := by
      rw [hn, toNat_std_min, ha, ← h.ring.ring.readable]
      exact Nat.min_le_right _ _
    obtain ⟨filled, hget, hfinal⟩ := RingBuffer.Concurrent.exec_getByte (h.ring.sampleIn dst ha)
      rfl n.toNat (by rw [hn]; omega)
    have hfilled := hfinal.consumer.2.2.2.2
    rw [← hn] at hget
    rw [Nat.zero_add] at hget hfilled
    have hcopies := exec_copies (s := { s with reader := some dst, ring :=
      { s.ring with consumer := .copying dst dst.bytes avail n 0 } }) (fun _ => rfl) n.toNat hget
    obtain ⟨polled, hring, hread⟩ := read_checked 0 clear_notify hlong hcall
    refine ⟨polled, _, returned n, .checkRead dst :: .ring (.sampleIn dst) ::
        (List.replicate n.toNat (.ring .getByte) ++ [.ring .publishOut]),
      s.ring.log ++ [.pop dst.len.toNat avail.toNat (filled.take n.toNat)], hread, ?_⟩
    have hlen : (queue.take n.toNat).length = n.toNat := by rw [List.length_take]; omega
    have htake : (queue.take n.toNat ++ dst.bytes.drop n.toNat).take n.toNat =
        filled.take n.toNat := by
      rw [List.take_append_of_le_length (by omega), List.take_of_length_le (by omega), hfilled]
    rw [toNat_returned (by omega), htake, Machine.exec_cons]
    simp only [step, checkRead, hr, hlong, ite_false, Option.bind_some, Machine.exec_cons,
      ite_true, RingBuffer.Concurrent.step, hc, Option.map_some, ← ha, ← hn]
    rw [Machine.exec_append, hcopies, Option.bind_some]
    simp only [Machine.exec_cons, Machine.exec_nil, step, publishOut, RingBuffer.Concurrent.step,
      ite_true, Option.bind_some, Option.bind_eq_bind, ← hc, hring]

end

-- The invariant along a run, with the finished calls replayed on the queue of messages.
def Linearized (size : ULong) (first : List UInt8) (s : State) : Prop :=
  ∃ mem queue, Invariant s mem queue ∧ s.ring.rb.m_size = size ∧
    Machine.exec (Call.step size.toNat) first s.calls = some queue

theorem step_linearized {size : ULong} (h62 : size.toNat ≤ 2 ^ 62) {first : List UInt8} (s : State)
    (action : Action) (t : State) (h : Linearized size first s) (hstep : step s action = some t) :
    Linearized size first t := by
  obtain ⟨mem, queue, hinv, rfl, hcalls⟩ := h
  obtain ⟨mem', next, hnext, hlogged, hsize⟩ := hinv.step h62 hstep
  refine ⟨mem', next, hnext, hsize, ?_⟩
  rcases hlogged with ⟨he, rfl⟩ | ⟨call, he, hqueue⟩
  · rw [he]
    exact hcalls
  · rw [he]
    exact Machine.exec_append_eq_some.mpr ⟨queue, hcalls, by simpa using hqueue⟩

theorem linearized_of_exec {rb : RingBuffer} {mem : List UInt8} {actions : List Action} {s : State}
    (hmem : rb.m_buffer = some mem) (hlen : mem.length = rb.m_size.toNat)
    (hsize : ∃ k, rb.m_size.toNat = 2 ^ k)
    (hroom : rb.ring_buffer_readable_size.toNat ≤ rb.m_size.toNat)
    (h62 : rb.m_size.toNat ≤ 2 ^ 62) (hrun : Machine.exec step (start rb) actions = some s) :
    Linearized rb.m_size
      (Circular.fetch mem rb.m_out.toNat rb.ring_buffer_readable_size.toNat) s := by
  have hring := represents_fetch rb mem hmem hlen hsize hroom
  have hstart : Linearized rb.m_size
      (Circular.fetch mem rb.m_out.toNat rb.ring_buffer_readable_size.toNat) (start rb) := by
    refine ⟨mem, _, ⟨⟨hring, ?_, trivial, trivial⟩, ?_, ?_⟩, rfl, rfl⟩
    · simpa [start, RingBuffer.Concurrent.start, RingBuffer.Concurrent.Producer.staged]
        using hring.holds
    · rintro _ ⟨⟩
    · rintro _ ⟨⟩
  exact Machine.exec_invariant _ (step_linearized h62) hstart hrun

-- For every interleaving, the finished calls form a run of the queue of messages, in which
-- each call moves the whole message or nothing, and a copy in progress is never shortened.
theorem interleaved_messages_are_whole (rb : RingBuffer) (mem : List UInt8)
    (hmem : rb.m_buffer = some mem) (hlen : mem.length = rb.m_size.toNat)
    (hsize : ∃ k, rb.m_size.toNat = 2 ^ k) (h62 : rb.m_size.toNat ≤ 2 ^ 62)
    (hroom : rb.ring_buffer_readable_size.toNat ≤ rb.m_size.toNat)
    (actions : List Action) (s : State) (hrun : Machine.exec step (start rb) actions = some s) :
    (∃ mem' queue, s.ring.rb.m_buffer = some mem' ∧
      Machine.exec (Call.step rb.m_size.toNat)
        (Circular.fetch mem rb.m_out.toNat rb.ring_buffer_readable_size.toNat) s.calls =
          some queue ∧
      queue = Circular.fetch mem' s.ring.rb.m_out.toNat
        s.ring.rb.ring_buffer_readable_size.toNat) ∧
    (∀ call ∈ s.calls, call.ret = -1 ∨ 1 ≤ call.len.toNat ∧ call.ret = call.len.toNat) ∧
    (∀ action t call, step s action = some t → t.calls = s.calls ++ [call] → call.ret = -1 →
      t.ring.rb = s.ring.rb) ∧
    (∀ src free len done, s.ring.producer = .copying src free len done → len = src.len) ∧
    (∀ dst buffer avail len done, s.ring.consumer = .copying dst buffer avail len done →
      len = dst.len) ∧
    (∀ slot, s.ring.putSlot = some slot → (step s (.ring .putByte)).isSome) ∧
    (∀ slot, s.ring.getSlot = some slot → (step s (.ring .getByte)).isSome) := by
  obtain ⟨mem', queue, hinv, hkeep, hcalls⟩ :=
    linearized_of_exec hmem hlen hsize hroom h62 hrun
  have hread := hinv.ring.ring.readable
  refine ⟨⟨mem', queue, hinv.ring.ring.buffer, hcalls, ?_⟩, Call.whole_of_exec hcalls, ?_, ?_, ?_,
    ?_, ?_⟩
  · rw [hread, hinv.ring.ring.holds.fetch queue.length (Nat.le_refl _), List.take_length]
  · intro action t call hstep hone hret
    exact hinv.refused (hkeep ▸ h62) hstep hone hret
  · intro src free len done hp
    exact (hinv.copying_in hp).1
  · intro dst buffer avail len done hc
    exact (hinv.copying_out hc).1
  · intro slot hslot
    obtain ⟨next, _, hnext, -⟩ := hinv.ring.putByte hslot
    simp [step, RingBuffer.Concurrent.step, hnext]
  · intro slot hslot
    obtain ⟨next, hnext, -⟩ := hinv.ring.getByte hslot
    simp [step, RingBuffer.Concurrent.step, hnext]

-- The reader takes the old message between the writer's check and its copy.
theorem interleaved_messages_are_whole_overlap :
    ∃ s, Machine.exec step (start ⟨some [0, 7], 2, 0, 0xFFFFFFFFFFFFFFFF, false⟩)
        [.checkWrite ⟨[1, 2], 2, by decide⟩, .checkWrite ⟨[1], 1, by decide⟩,
          .checkRead ⟨[0], 1, by decide⟩, .ring (.sampleIn ⟨[0], 1, by decide⟩), .ring .getByte,
          .ring .publishOut, .checkRead ⟨[0], 1, by decide⟩,
          .ring (.sampleOut ⟨[1], 1, by decide⟩), .ring .putByte, .ring .publishIn] = some s ∧
      s.calls.map Call.ret = [-1, 1, -1, 1] ∧
      ∀ call ∈ s.calls, call.ret = -1 ∨ 1 ≤ call.len.toNat ∧ call.ret = call.len.toNat := by
  obtain ⟨s, hrun, hret⟩ : ∃ s,
      Machine.exec step (start ⟨some [0, 7], 2, 0, 0xFFFFFFFFFFFFFFFF, false⟩)
        [.checkWrite ⟨[1, 2], 2, by decide⟩, .checkWrite ⟨[1], 1, by decide⟩,
          .checkRead ⟨[0], 1, by decide⟩, .ring (.sampleIn ⟨[0], 1, by decide⟩), .ring .getByte,
          .ring .publishOut, .checkRead ⟨[0], 1, by decide⟩,
          .ring (.sampleOut ⟨[1], 1, by decide⟩), .ring .putByte, .ring .publishIn] = some s ∧
      s.calls.map Call.ret = [-1, 1, -1, 1] := ⟨_, rfl, by decide⟩
  obtain ⟨-, hwhole, -⟩ := interleaved_messages_are_whole _ [0, 7] rfl rfl ⟨1, rfl⟩ (by decide)
    (by decide) _ s hrun
  exact ⟨s, hrun, hret, hwhole⟩

end IgLibs.SharedQueue.Concurrent
