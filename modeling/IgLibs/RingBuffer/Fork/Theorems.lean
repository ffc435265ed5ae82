import IgLibs.RingBuffer.Fork
import IgLibs.RingBuffer.Concurrent.Theorems

namespace IgLibs.RingBuffer.Fork

open Word CMemory

section

variable {p q : Concurrent.State} {action : Concurrent.Action}

theorem step_writes (hw : writes action = true) (hstep : Concurrent.step p action = some q) :
    q.rb.m_out = p.rb.m_out ∧ q.rb.m_shared = p.rb.m_shared ∧
      (q.log = p.log ∨ ∃ offered seen moved, q.log = p.log ++ [.push offered seen moved]) := by
  cases action with
  | sampleIn | getByte | publishOut => cases hw
  | sampleOut src =>
      simp only [Concurrent.step] at hstep
      cases hp : p.producer with
      | copying => simp [hp] at hstep
      | idle =>
          simp only [hp, Option.some.injEq] at hstep
          subst hstep
          exact ⟨rfl, rfl, .inl rfl⟩
  | putByte =>
      simp only [Concurrent.step, Concurrent.putByte] at hstep
      split at hstep
      · simp only [Option.bind_eq_bind, Option.bind_eq_some_iff, Option.ite_none_right_eq_some,
          Option.some.injEq] at hstep
        obtain ⟨byte, -, -, rfl⟩ := hstep
        exact ⟨rfl, rfl, .inl rfl⟩
      · cases hstep
  | publishIn =>
      simp only [Concurrent.step] at hstep
      cases hp : p.producer with
      | idle => simp [hp] at hstep
      | copying src free len done =>
          simp only [hp, Option.ite_none_right_eq_some, Option.some.injEq] at hstep
          obtain ⟨-, rfl⟩ := hstep
          exact ⟨rfl, rfl, .inr ⟨_, _, _, rfl⟩⟩

theorem step_reads (hr : writes action = false) (hstep : Concurrent.step p action = some q) :
    q.rb.m_buffer = p.rb.m_buffer ∧ q.rb.m_in = p.rb.m_in ∧ q.producer = p.producer ∧
      (q.log = p.log ∨ ∃ wanted seen moved, q.log = p.log ++ [.pop wanted seen moved]) := by
  cases action with
  | sampleOut | putByte | publishIn => cases hr
  | sampleIn dst =>
      simp only [Concurrent.step] at hstep
      cases hc : p.consumer with
      | copying => simp [hc] at hstep
      | idle =>
          simp only [hc, Option.some.injEq] at hstep
          subst hstep
          exact ⟨rfl, rfl, rfl, .inl rfl⟩
  | getByte =>
      simp only [Concurrent.step, Concurrent.getByte] at hstep
      split at hstep
      · simp only [Option.bind_eq_bind, Option.bind_eq_some_iff, Option.ite_none_right_eq_some,
          Option.some.injEq] at hstep
        obtain ⟨byte, -, -, rfl⟩ := hstep
        exact ⟨rfl, rfl, rfl, .inl rfl⟩
      · cases hstep
  | publishOut =>
      simp only [Concurrent.step] at hstep
      cases hc : p.consumer with
      | idle => simp [hc] at hstep
      | copying dst buffer avail len done =>
          simp only [hc, Option.ite_none_right_eq_some, Option.some.injEq] at hstep
          obtain ⟨-, rfl⟩ := hstep
          exact ⟨rfl, rfl, rfl, .inr ⟨_, _, _, rfl⟩⟩

theorem queue_of_writes {queue next : List UInt8} (hw : writes action = true)
    (hstep : Concurrent.step p action = some q) (hlogged : Concurrent.Logged p q queue next) :
    ∃ items, q.log.flatMap Fifo.Effect.pushed = p.log.flatMap Fifo.Effect.pushed ++ items ∧
      next = queue ++ items := by
  obtain ⟨-, -, hlog⟩ := step_writes hw hstep
  rcases hlogged with ⟨hsame, rfl⟩ | ⟨effect, hone, hqueue⟩
  · exact ⟨[], by rw [hsame, List.append_nil], by rw [List.append_nil]⟩
  · rcases hlog with hsame | ⟨offered, seen, moved, hpush⟩
    · simp [hsame] at hone
    · obtain rfl : Fifo.Effect.push offered seen moved = effect := by simpa [hpush] using hone
      obtain ⟨-, -, hnext⟩ := Fifo.step_push_eq_some.mp hqueue
      exact ⟨moved, by simp [hpush, Fifo.Effect.pushed], hnext⟩

theorem queue_of_reads {queue next : List UInt8} (hr : writes action = false)
    (hstep : Concurrent.step p action = some q) (hlogged : Concurrent.Logged p q queue next) :
    ∃ items, q.log.flatMap Fifo.Effect.popped = p.log.flatMap Fifo.Effect.popped ++ items ∧
      queue = items ++ next := by
  obtain ⟨-, -, -, hlog⟩ := step_reads hr hstep
  rcases hlogged with ⟨hsame, rfl⟩ | ⟨effect, hone, hqueue⟩
  · exact ⟨[], by rw [hsame, List.append_nil], rfl⟩
  · rcases hlog with hsame | ⟨wanted, seen, moved, hpop⟩
    · simp [hsame] at hone
    · obtain rfl : Fifo.Effect.pop wanted seen moved = effect := by simpa [hpop] using hone
      have hbalance := Fifo.step_balance hqueue
      exact ⟨moved, by simp [hpop, Fifo.Effect.popped],
        by simpa [Fifo.Effect.pushed, Fifo.Effect.popped] using hbalance⟩

-- The other process may change memory that this one does not read.
theorem other_memory {mem mem' queue : List UInt8} (h : Concurrent.Invariant p mem queue)
    (hidle : p.producer = .idle) (hlen : mem'.length = mem.length)
    (hholds : Circular.Holds mem' p.rb.m_out.toNat queue) :
    Concurrent.Invariant { p with rb := { p.rb with m_buffer := some mem' } } mem' queue where
  ring := ⟨rfl, hlen.trans h.ring.length, h.ring.pow_two, h.ring.readable, h.ring.room, hholds⟩
  staged := by simpa [hidle, Concurrent.Producer.staged] using hholds
  producer := h.producer
  consumer := h.consumer

end

-- The writer believes that nothing has been read since the fork, and the reader that
-- nothing has been written.
structure Invariant (first : List UInt8) (s : State) (mem rest : List UInt8) : Prop where
  writer : Concurrent.Invariant s.writer mem (first ++ s.accepted)
  reader : Concurrent.Invariant s.reader mem rest
  idle : s.reader.producer = .idle
  split : first = s.returned ++ rest
  start : s.reader.rb.m_in.toNat % mem.length =
    (s.writer.rb.m_out.toNat + first.length) % mem.length
  shared : s.writer.rb.m_shared = true

section

variable {first mem rest : List UInt8} {s t : State} {action : Concurrent.Action}

-- The unread part of what was there at the fork stands in the same slots for both.
theorem Invariant.slot (h : Invariant first s mem rest) :
    (s.writer.rb.m_out.toNat + s.returned.length) % mem.length =
      s.reader.rb.m_out.toNat % mem.length := by
  have hin := h.reader.ring.in_slot
  have hlen := congrArg List.length h.split
  rw [List.length_append] at hlen
  rw [h.start, hlen, ← Nat.add_assoc] at hin
  exact Nat.ModEq.add_right_cancel' rest.length hin

theorem Invariant.step_writer (h : Invariant first s mem rest) (hw : writes action = true)
    {writer : Concurrent.State} (hstep : Concurrent.step s.writer action = some writer) :
    ∃ mem', Invariant first (s.wrote writer) mem' rest ∧
      writer.rb.m_size = s.writer.rb.m_size := by
  obtain ⟨hout, hshared, -⟩ := step_writes hw hstep
  obtain ⟨mem', next, hnext, hlogged, hsize⟩ := h.writer.step hstep
  obtain ⟨items, hpushed, hqueue⟩ := queue_of_writes hw hstep hlogged
  have hlen : mem'.length = mem.length := by
    rw [hnext.ring.length, h.writer.ring.length, hsize]
  have hshare : share writer.rb s.reader.rb = { s.reader.rb with m_buffer := some mem' } := by
    rw [share, hshared, h.shared, if_pos rfl, hnext.ring.buffer]
  have haccepted : next = first ++ (s.wrote writer).accepted := by
    rw [hqueue, List.append_assoc]
    exact congrArg (first ++ ·) hpushed.symm
  subst haccepted
  have hholds : Circular.Holds mem' s.reader.rb.m_out.toNat rest := by
    have hall := (hnext.ring.holds.drop s.returned.length).take rest.length
    rw [h.split, List.append_assoc, List.drop_left, List.take_left] at hall
    apply hall.congr_pos
    rw [hlen, hout]
    exact h.slot
  refine ⟨mem', ⟨hnext, ?_, h.idle, h.split, ?_, hshared.trans h.shared⟩, hsize⟩
  · rw [State.wrote, hshare]
    exact other_memory h.reader h.idle hlen hholds
  · rw [State.wrote, hshare, hout, hlen]
    exact h.start

theorem Invariant.step_reader (h : Invariant first s mem rest) (hr : writes action = false)
    {reader : Concurrent.State} (hstep : Concurrent.step s.reader action = some reader) :
    ∃ rest', Invariant first { s with reader } mem rest' := by
  obtain ⟨hbuf, hin, hidle, -⟩ := step_reads hr hstep
  obtain ⟨mem', next, hnext, hlogged, -⟩ := h.reader.step hstep
  obtain ⟨items, hpopped, hqueue⟩ := queue_of_reads hr hstep hlogged
  have hmem : mem = mem' :=
    Option.some.inj (h.reader.ring.buffer.symm.trans (hbuf.symm.trans hnext.ring.buffer))
  subst hmem
  refine ⟨next, h.writer, hnext, hidle.trans h.idle, ?_, ?_, h.shared⟩
  · rw [h.split, hqueue, State.returned, State.returned, hpopped, List.append_assoc]
  · rw [hin]
    exact h.start

theorem Invariant.step (h : Invariant first s mem rest) (hstep : Fork.step s action = some t) :
    ∃ mem' rest', Invariant first t mem' rest' ∧
      t.writer.rb.m_size = s.writer.rb.m_size := by
  rw [Fork.step] at hstep
  cases hw : writes action with
  | true =>
      rw [hw, if_pos rfl, Option.map_eq_some_iff] at hstep
      obtain ⟨writer, hwriter, rfl⟩ := hstep
      obtain ⟨mem', hinv, hsize⟩ := h.step_writer hw hwriter
      exact ⟨mem', rest, hinv, hsize⟩
  | false =>
      rw [hw, if_neg (by decide), Option.map_eq_some_iff] at hstep
      obtain ⟨reader, hreader, rfl⟩ := hstep
      obtain ⟨rest', hinv⟩ := h.step_reader hw hreader
      exact ⟨mem, rest', hinv, rfl⟩

theorem Invariant.remaining (h : Invariant first s mem rest) :
    s.remaining first = rest.length + s.accepted.length := by
  have hlen := congrArg List.length h.split
  rw [List.length_append] at hlen
  rw [State.remaining, List.length_append]
  omega

-- The reader counts what was there at the fork only.
theorem Invariant.agrees_iff (h : Invariant first s mem rest) :
    (s.remaining first ≠ 0 →
        s.reader.rb.ring_buffer_readable_size.toNat = s.remaining first) ↔ s.accepted = [] := by
  rw [h.remaining, h.reader.ring.readable, ← List.length_eq_zero_iff]
  omega

-- Whether a call with bytes for which there is room has started.
def State.Started (s : State) : Prop :=
  s.accepted ≠ [] ∨
    ∃ src free len done, s.writer.producer = .copying src free len done ∧ len ≠ 0

theorem State.started_idle (hidle : s.writer.producer = .idle) :
    s.Started ↔ s.accepted ≠ [] := by
  simp [State.Started, hidle]

theorem State.started_copying {src : Span} {free len : ULong} {done : Nat}
    (hp : s.writer.producer = .copying src free len done) :
    s.Started ↔ s.accepted ≠ [] ∨ len ≠ 0 := by
  simp [State.Started, hp]

-- With room left, a call of at least one byte fixes a length of at least one byte.
theorem Invariant.started_sampleOut (h : Invariant first s mem rest)
    (hfree : first.length < s.writer.rb.m_size.toNat) {src : Span} {writer : Concurrent.State}
    (hstep : Concurrent.step s.writer (.sampleOut src) = some writer) :
    (s.wrote writer).Started ↔ s.Started ∨ src.len ≠ 0 := by
  have hroom := h.writer.ring.free
  simp only [Concurrent.step] at hstep
  cases hp : s.writer.producer with
  | copying => simp [hp] at hstep
  | idle =>
      simp only [hp, Option.some.injEq] at hstep
      subst hstep
      rw [State.started_idle hp, State.started_copying rfl]
      change s.accepted ≠ [] ∨ _ ↔ _
      by_cases hnone : s.accepted = []
      · have hlen : std_min src.len (s.writer.rb.m_size - s.writer.rb.m_in +
            s.writer.rb.m_out) = 0 ↔ src.len = 0 := by
          rw [← BitVec.toNat_inj, ← BitVec.toNat_inj, toNat_std_min, hroom, hnone,
            List.append_nil]
          change min _ _ = 0 ↔ _ = 0
          omega
        rw [ne_eq, ne_eq, ne_eq, hlen]
      · simp [hnone]

theorem Invariant.started_putByte (h : Invariant first s mem rest) {writer : Concurrent.State}
    (hstep : Concurrent.putByte s.writer = some writer) :
    (s.wrote writer).Started ↔ s.Started := by
  cases hslot : s.writer.putSlot with
  | none => simp [Concurrent.putByte, hslot] at hstep
  | some slot =>
      obtain ⟨src, free, len, done, hp, hdone, hbyte, -, -⟩ := h.writer.putSlot hslot
      obtain ⟨stored, -, hput, -⟩ := h.writer.putByte_eq hp hdone hbyte
      obtain rfl := Option.some.inj (hput.symm.trans hstep)
      rw [State.started_copying hp, State.started_copying rfl]
      simp [State.accepted, State.wrote, Concurrent.afterPut]

theorem Invariant.started_publishIn (h : Invariant first s mem rest) {writer : Concurrent.State}
    (hstep : Concurrent.step s.writer .publishIn = some writer) :
    (s.wrote writer).Started ↔ s.Started := by
  simp only [Concurrent.step] at hstep
  cases hp : s.writer.producer with
  | idle => simp [hp] at hstep
  | copying src free len done =>
      have hsafe := h.writer.producer
      have hfits := src.fits
      rw [hp] at hsafe
      have hle : len.toNat = min src.len.toNat free.toNat := by rw [hsafe.1, toNat_std_min]
      simp only [hp, Option.ite_none_right_eq_some, Option.some.injEq] at hstep
      obtain ⟨-, hwriter⟩ := hstep
      have hidle : (s.wrote writer).writer.producer = .idle := by
        rw [← hwriter]
        rfl
      have haccepted : (s.wrote writer).accepted = s.accepted ++ src.bytes.take len.toNat := by
        rw [← hwriter]
        simp [State.accepted, State.wrote, Fifo.Effect.pushed]
      have hitems : src.bytes.take len.toNat = [] ↔ len = 0 := by
        rw [← List.length_eq_zero_iff, List.length_take, ← BitVec.toNat_inj]
        change _ ↔ _ = 0
        omega
      rw [State.started_copying hp, State.started_idle hidle, haccepted, ne_eq,
        List.append_eq_nil_iff, hitems, not_and_or]

theorem Invariant.step_started (h : Invariant first s mem rest)
    (hfree : first.length < s.writer.rb.m_size.toNat) (hstep : Fork.step s action = some t) :
    t.Started ↔ s.Started ∨ ∃ src, action = .sampleOut src ∧ src.len ≠ 0 := by
  cases action with
  | sampleIn | getByte | publishOut =>
      simp only [Fork.step, writes, Bool.false_eq_true, ite_false, Option.map_eq_some_iff] at hstep
      obtain ⟨reader, -, rfl⟩ := hstep
      simp [State.Started, State.accepted]
  | sampleOut src =>
      simp only [Fork.step, writes, ite_true, Option.map_eq_some_iff] at hstep
      obtain ⟨writer, hwriter, rfl⟩ := hstep
      rw [h.started_sampleOut hfree hwriter]
      simp
  | putByte =>
      simp only [Fork.step, writes, ite_true, Option.map_eq_some_iff] at hstep
      obtain ⟨writer, hwriter, rfl⟩ := hstep
      rw [h.started_putByte hwriter]
      simp
  | publishIn =>
      simp only [Fork.step, writes, ite_true, Option.map_eq_some_iff] at hstep
      obtain ⟨writer, hwriter, rfl⟩ := hstep
      rw [h.started_publishIn hwriter]
      simp

end

section

variable {s : State} {actions : List Concurrent.Action}

theorem exec_writer (hw : ∀ action ∈ actions, writes action = true)
    (hsame : s.wrote s.writer = s) {writer : Concurrent.State}
    (hrun : Machine.exec Concurrent.step s.writer actions = some writer) :
    Machine.exec step s actions = some (s.wrote writer) ∧
      writer.rb.m_shared = s.writer.rb.m_shared := by
  induction actions generalizing s with
  | nil =>
      obtain rfl := Option.some.inj hrun
      exact ⟨congrArg some hsame.symm, rfl⟩
  | cons action rest ih =>
      obtain ⟨next, hnext, hrest⟩ := Machine.exec_cons_eq_some.mp hrun
      have hfirst := hw action (by simp)
      obtain ⟨-, hshared, -⟩ := step_writes hfirst hnext
      have htwice (w : Concurrent.State) (he : w.rb.m_shared = next.rb.m_shared) :
          (s.wrote next).wrote w = s.wrote w := by
        simp only [State.wrote, share, he]
        split <;> rfl
      obtain ⟨hexec, hkeep⟩ := ih (s := s.wrote next) (fun other hmem => hw other (by simp [hmem]))
        (htwice next rfl) hrest
      have hstep : step s action = some (s.wrote next) := by
        rw [step, hfirst, if_pos rfl, hnext, Option.map_some]
      rw [Machine.exec_cons, hstep, Option.bind_some, hexec, htwice writer hkeep]
      exact ⟨rfl, hkeep.trans hshared⟩

theorem exec_reader (hr : ∀ action ∈ actions, writes action = false) {reader : Concurrent.State}
    (hrun : Machine.exec Concurrent.step s.reader actions = some reader) :
    Machine.exec step s actions = some { s with reader } := by
  induction actions generalizing s with
  | nil =>
      obtain rfl := Option.some.inj hrun
      rfl
  | cons action rest ih =>
      obtain ⟨next, hnext, hrest⟩ := Machine.exec_cons_eq_some.mp hrun
      have hexec : Machine.exec step { s with reader := next } rest = some { s with reader } :=
        ih (fun other hmem => hr other (by simp [hmem])) hrest
      have hstep : step s action = some { s with reader := next } := by
        rw [step, hr action (by simp), if_neg (by decide), hnext, Option.map_some]
      rw [Machine.exec_cons, hstep, Option.bind_some, hexec]

variable {first mem rest : List UInt8} (h : Invariant first s mem rest)
include h

-- The writer's steps of one call in a row are the call of ring_buffer.cpp on its own object.
theorem exec_write (hp : s.writer.producer = .idle) (src : Span) :
    ∃ next n log, s.writer.rb.ring_buffer_write src.bytes src.len = some (next, n) ∧
      Machine.exec step s (.sampleOut src :: (List.replicate n.toNat .putByte ++ [.publishIn])) =
        some (s.wrote { s.writer with rb := next, log }) := by
  obtain ⟨next, n, hcall, hexec⟩ := Concurrent.exec_write h.writer hp src
  have hsame : s.wrote s.writer = s := by
    have hbuf := h.writer.ring.buffer.trans h.reader.ring.buffer.symm
    rw [State.wrote, share, h.shared, if_pos rfl, hbuf]
  refine ⟨next, n, _, hcall, (exec_writer ?_ hsame hexec).1⟩
  intro action hmem
  simp only [List.mem_cons, List.mem_append, List.mem_replicate, List.not_mem_nil, or_false] at hmem
  rcases hmem with rfl | ⟨-, rfl⟩ | rfl <;> rfl

theorem exec_read (hc : s.reader.consumer = .idle) (dst : Span) :
    ∃ next buffer n log, s.reader.rb.ring_buffer_read dst.bytes dst.len = some (next, buffer, n) ∧
      Machine.exec step s (.sampleIn dst :: (List.replicate n.toNat .getByte ++ [.publishOut])) =
        some { s with reader := { s.reader with rb := next, log } } := by
  obtain ⟨next, buffer, n, hcall, hexec⟩ := Concurrent.exec_read h.reader hc dst
  refine ⟨next, buffer, n, _, hcall, exec_reader ?_ hexec⟩
  intro action hmem
  simp only [List.mem_cons, List.mem_append, List.mem_replicate, List.not_mem_nil, or_false] at hmem
  rcases hmem with rfl | ⟨-, rfl⟩ | rfl <;> rfl

end

-- The invariant along a run, with the sizes that the fork has left in both processes.
def Forked (rb : RingBuffer) (first : List UInt8) (s : State) : Prop :=
  ∃ mem rest, Invariant first s mem rest ∧ s.writer.rb.m_size = rb.m_size

theorem forked_step {rb : RingBuffer} {first : List UInt8} (s : State) (action : Concurrent.Action)
    (t : State) (h : Forked rb first s) (hstep : step s action = some t) : Forked rb first t := by
  obtain ⟨mem, rest, hinv, hsize⟩ := h
  obtain ⟨mem', rest', hnext, hkeep⟩ := hinv.step hstep
  exact ⟨mem', rest', hnext, hkeep.trans hsize⟩

theorem forked_start {rb : RingBuffer} {mem : List UInt8} (hmem : rb.m_buffer = some mem)
    (hlen : mem.length = rb.m_size.toNat) (hsize : ∃ k, rb.m_size.toNat = 2 ^ k)
    (hroom : rb.ring_buffer_readable_size.toNat ≤ rb.m_size.toNat) (hshared : rb.m_shared = true) :
    Forked rb (Circular.fetch mem rb.m_out.toNat rb.ring_buffer_readable_size.toNat)
      (start rb) := by
  have hring := represents_fetch rb mem hmem hlen hsize hroom
  have hinv : Concurrent.Invariant (Concurrent.start rb) mem
      (Circular.fetch mem rb.m_out.toNat rb.ring_buffer_readable_size.toNat) :=
    ⟨hring, by simpa [Concurrent.start, Concurrent.Producer.staged] using hring.holds, trivial,
      trivial⟩
  refine ⟨mem, _, ⟨?_, hinv, rfl, rfl, hring.in_slot, hshared⟩, rfl⟩
  simpa [start, State.accepted, Concurrent.start] using hinv

theorem Forked.started_iff {rb : RingBuffer} {first : List UInt8}
    (hstart : Forked rb first (start rb)) (hfree : first.length < rb.m_size.toNat)
    {actions : List Concurrent.Action} {s : State}
    (hrun : Machine.exec step (start rb) actions = some s) :
    s.Started ↔ ∃ src, .sampleOut src ∈ actions ∧ src.len ≠ 0 := by
  have hflag := Machine.exec_flag_iff (Forked rb first) State.Started
    (fun action => ∃ src, action = .sampleOut src ∧ src.len ≠ 0) forked_step
    (fun s action t hs hstep => by
      obtain ⟨mem, rest, hinv, hsize⟩ := hs
      exact hinv.step_started (hsize ▸ hfree) hstep)
    hstart hrun
  have hidle : ¬(start rb).Started := by
    rw [State.started_idle rfl]
    simp [State.accepted, start, Concurrent.start]
  rw [hflag]
  simp only [hidle, false_or]
  constructor
  · rintro ⟨_, hmem, src, rfl, hlen⟩
    exact ⟨src, hmem, hlen⟩
  · rintro ⟨src, hmem, hlen⟩
    exact ⟨_, hmem, src, rfl, hlen⟩

-- Over the shared storage the reader gets the right bytes in order. But the count of the bytes
-- stays with the writer: with no call running, the reader sees all that is unread exactly
-- if nothing could be written since the fork.
theorem nothing_lost_iff (rb : RingBuffer) (mem : List UInt8) (hmem : rb.m_buffer = some mem)
    (hlen : mem.length = rb.m_size.toNat) (hsize : ∃ k, rb.m_size.toNat = 2 ^ k)
    (hroom : rb.ring_buffer_readable_size.toNat ≤ rb.m_size.toNat) (hshared : rb.m_shared = true)
    (actions : List Concurrent.Action) (s : State)
    (hrun : Machine.exec step (start rb) actions = some s) :
    s.returned <+: Circular.fetch mem rb.m_out.toNat rb.ring_buffer_readable_size.toNat ++
        s.accepted ∧
      (s.Finished →
        ((s.remaining (Circular.fetch mem rb.m_out.toNat rb.ring_buffer_readable_size.toNat) ≠ 0 →
            s.reader.rb.ring_buffer_readable_size.toNat =
              s.remaining
                (Circular.fetch mem rb.m_out.toNat rb.ring_buffer_readable_size.toNat)) ↔
          rb.ring_buffer_readable_size = rb.m_size ∨
            ∀ src, .sampleOut src ∈ actions → src.len = 0)) := by
  have hstart := forked_start hmem hlen hsize hroom hshared
  have hcount := (represents_fetch rb mem hmem hlen hsize hroom).readable
  obtain ⟨mem', rest, hinv, hkeep⟩ := Machine.exec_invariant _ forked_step hstart hrun
  generalize Circular.fetch mem rb.m_out.toNat rb.ring_buffer_readable_size.toNat = first at *
  refine ⟨?_, ?_⟩
  · refine ⟨rest ++ s.accepted, ?_⟩
    rw [← List.append_assoc, ← hinv.split]
  · rintro ⟨hidle, -⟩
    rw [hinv.agrees_iff]
    by_cases hfull : rb.ring_buffer_readable_size = rb.m_size
    · have hrest := hinv.writer.ring.room
      rw [List.length_append, hkeep, ← hfull, hcount] at hrest
      have hnone : s.accepted = [] := List.length_eq_zero_iff.mp (by omega)
      simp [hnone, hfull]
    · have hfree : first.length < rb.m_size.toNat := by
        have hne := BitVec.toNat_ne_iff_ne.mpr hfull
        omega
      have hstarted := hstart.started_iff hfree hrun
      rw [State.started_idle hidle] at hstarted
      rw [← not_iff_not, ← ne_eq, hstarted]
      simp [hfull]

-- One byte was unread at the fork and one is written after it, while the first one is read.
theorem nothing_lost_iff_overlap :
    ∃ s, Machine.exec step (start ⟨some [9, 0], 2, 1, 0, true⟩)
        [.sampleOut ⟨[1], 1, by decide⟩, .sampleIn ⟨[0, 0], 2, by decide⟩, .putByte, .getByte,
          .publishIn, .publishOut] = some s ∧
      s.returned = [9] ∧ s.accepted = [1] ∧ s.returned <+: [9] ++ s.accepted := by
  obtain ⟨s, hrun, hreturned, haccepted⟩ : ∃ s,
      Machine.exec step (start ⟨some [9, 0], 2, 1, 0, true⟩)
        [.sampleOut ⟨[1], 1, by decide⟩, .sampleIn ⟨[0, 0], 2, by decide⟩, .putByte, .getByte,
          .publishIn, .publishOut] = some s ∧
      s.returned = [9] ∧ s.accepted = [1] := ⟨_, rfl, by decide, by decide⟩
  obtain ⟨hfirst, -⟩ := nothing_lost_iff _ [9, 0] rfl rfl ⟨1, rfl⟩ (by decide) rfl _ s hrun
  exact ⟨s, hrun, hreturned, haccepted, hfirst⟩

-- A byte written after the fork is unread, and no call is running, but the reader counts none.
theorem written_byte_not_counted :
    ∃ s, Machine.exec step (start ⟨some [0, 0], 2, 0, 0, true⟩)
        [.sampleOut ⟨[1], 1, by decide⟩, .putByte, .publishIn] = some s ∧ s.Finished ∧
      ¬(s.remaining [] ≠ 0 →
        s.reader.rb.ring_buffer_readable_size.toNat = s.remaining []) :=
  ⟨_, rfl, by decide, by decide⟩

end IgLibs.RingBuffer.Fork
