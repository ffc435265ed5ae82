import IgLibs.RingBuffer.Concurrent
import IgLibs.RingBuffer.Theorems

namespace IgLibs.RingBuffer.Concurrent

open Word CMemory

-- The bytes copied in and not yet published.
def Producer.staged : Producer → List UInt8
  | .idle => []
  | .copying src _ _ done => src.bytes.take done

-- A stale sample of m_out stays safe: the reader only makes the free space larger.
def Producer.Safe (size : Nat) (queue : List UInt8) : Producer → Prop
  | .idle => True
  | .copying src free len done =>
      len = std_min src.len free ∧ done ≤ len.toNat ∧ queue.length + free.toNat ≤ size

-- A stale sample of m_in stays safe: the writer only makes the queue longer.
def Consumer.Safe (queue : List UInt8) : Consumer → Prop
  | .idle => True
  | .copying dst buffer avail len done =>
      len = std_min dst.len avail ∧ done ≤ len.toNat ∧ avail.toNat ≤ queue.length ∧
        buffer.length = dst.bytes.length ∧ buffer.take done = queue.take done

structure Invariant (s : State) (mem queue : List UInt8) : Prop where
  ring : Represents s.rb mem queue
  staged : Circular.Holds mem s.rb.m_out.toNat (queue ++ s.producer.staged)
  producer : s.producer.Safe s.rb.m_size.toNat queue
  consumer : s.consumer.Safe queue

-- The log grows by at most one call, which the sequential queue can take.
def Logged (s t : State) (queue next : List UInt8) : Prop :=
  (t.log = s.log ∧ next = queue) ∨
    ∃ effect, t.log = s.log ++ [effect] ∧ Fifo.step s.rb.m_size.toNat queue effect = some next

theorem copySlot_eq {rb : RingBuffer} {mem queue : List UInt8} (h : Represents rb mem queue)
    (pos len : ULong) (done : Nat) (hlen : len.toNat ≤ rb.m_size.toNat) (hdone : done < len.toNat) :
    copySlot rb pos len done = (pos.toNat + done) % mem.length := by
  have hsize := h.size_pos
  have hlength := h.length
  have hend := h.to_end pos
  have hcut : (std_min len (rb.m_size - (pos &&& (rb.m_size - 1)))).toNat =
      min len.toNat (mem.length - pos.toNat % mem.length) := by
    rw [toNat_std_min, hend]
  have hslot := Circular.cut_slot_eq (by omega) (by omega) hcut hdone
  simpa only [copySlot, h.masked] using hslot

theorem published_iff {rb : RingBuffer} {mem queue : List UInt8} (h : Represents rb mem queue)
    (slot : Nat) :
    Published rb slot ↔ ∃ i < queue.length, slot = (rb.m_out.toNat + i) % mem.length := by
  have hmask (i : Nat) : ((rb.m_out + BitVec.ofNat 64 i) &&& (rb.m_size - 1)).toNat =
      (rb.m_out.toNat + i) % mem.length := by
    rw [h.masked, BitVec.toNat_add, h.wrap, BitVec.toNat_ofNat, Nat.add_mod, h.wrap, ← Nat.add_mod]
  simp only [Published, h.readable, hmask]

section

variable {s t : State} {mem queue : List UInt8}

-- The producer's next byte goes to the slot right behind the staged bytes.
theorem Invariant.putSlot (h : Invariant s mem queue) {slot : Nat} (hslot : s.putSlot = some slot) :
    ∃ src free len done, s.producer = .copying src free len done ∧ done < len.toNat ∧
      done < src.bytes.length ∧ queue.length + done < mem.length ∧
      slot = (s.rb.m_out.toNat + (queue.length + done)) % mem.length := by
  have hsafe := h.producer
  have hlength := h.ring.length
  unfold State.putSlot at hslot
  cases hp : s.producer with
  | idle => simp [hp] at hslot
  | copying src free len done =>
      rw [hp] at hsafe
      obtain ⟨hmin, -, hfree⟩ := hsafe
      have hle : len.toNat = min src.len.toNat free.toNat := by rw [hmin, toNat_std_min]
      have hfits := src.fits
      simp only [hp, Option.ite_none_right_eq_some, Option.some.injEq] at hslot
      obtain ⟨hdone, rfl⟩ := hslot
      refine ⟨src, free, len, done, rfl, hdone, by omega, by omega, ?_⟩
      rw [copySlot_eq h.ring _ _ _ (by omega) hdone, Nat.add_mod, h.ring.in_slot, ← Nat.add_mod,
        Nat.add_assoc]

-- The consumer's next byte comes from inside the queue.
theorem Invariant.getSlot (h : Invariant s mem queue) {slot : Nat} (hslot : s.getSlot = some slot) :
    ∃ dst buffer avail len done, s.consumer = .copying dst buffer avail len done ∧
      done < len.toNat ∧ done < queue.length ∧ slot = (s.rb.m_out.toNat + done) % mem.length := by
  have hsafe := h.consumer
  have hroom := h.ring.room
  unfold State.getSlot at hslot
  cases hc : s.consumer with
  | idle => simp [hc] at hslot
  | copying dst buffer avail len done =>
      rw [hc] at hsafe
      obtain ⟨hmin, -, havail, -, -⟩ := hsafe
      have hle : len.toNat = min dst.len.toNat avail.toNat := by rw [hmin, toNat_std_min]
      simp only [hc, Option.ite_none_right_eq_some, Option.some.injEq] at hslot
      obtain ⟨hdone, rfl⟩ := hslot
      refine ⟨dst, buffer, avail, len, done, rfl, hdone, by omega, ?_⟩
      rw [copySlot_eq h.ring _ _ _ (by omega) hdone]

theorem Invariant.putSlot_not_published (h : Invariant s mem queue) {slot : Nat}
    (hslot : s.putSlot = some slot) : ¬Published s.rb slot := by
  obtain ⟨_, _, _, done, _, _, _, hroom, rfl⟩ := h.putSlot hslot
  rw [published_iff h.ring]
  rintro ⟨i, hi, he⟩
  exact Circular.slot_ne s.rb.m_out.toNat (show i < queue.length + done by omega)
    (by omega) he.symm

theorem Invariant.getSlot_published (h : Invariant s mem queue) {slot : Nat}
    (hslot : s.getSlot = some slot) : Published s.rb slot := by
  obtain ⟨_, _, _, _, done, _, _, hdone, rfl⟩ := h.getSlot hslot
  exact (published_iff h.ring _).mpr ⟨done, hdone, rfl⟩

-- The state after the producer has copied up to `done` bytes into `mem`.
def afterPut (s : State) (mem : List UInt8) (src : Span) (free len : ULong) (done : Nat) : State :=
  { s with rb := { s.rb with m_buffer := some mem }, producer := .copying src free len done }

theorem Invariant.putByte_eq (h : Invariant s mem queue) {src : Span} {free len : ULong} {done : Nat}
    (hp : s.producer = .copying src free len done) (hdone : done < len.toNat)
    (hbyte : done < src.bytes.length) :
    ∃ stored, stored = mem.set ((s.rb.m_in.toNat + done) % mem.length) src.bytes[done] ∧
      putByte s = some (afterPut s stored src free len (done + 1)) ∧
      Invariant (afterPut s stored src free len (done + 1)) stored queue := by
  have hsafe := h.producer
  have hstaged := h.staged
  have hlength := h.ring.length
  have hpos := h.ring.size_pos
  have hfits := src.fits
  rw [hp] at hsafe hstaged
  obtain ⟨hmin, -, hfree⟩ := hsafe
  have hle : len.toNat = min src.len.toNat free.toNat := by rw [hmin, toNat_std_min]
  have hslot : s.putSlot = some ((s.rb.m_in.toNat + done) % mem.length) := by
    simp only [State.putSlot, hp, hdone, ite_true]
    rw [copySlot_eq h.ring _ _ _ (by omega) hdone]
  have hlt : (s.rb.m_in.toNat + done) % mem.length < mem.length := Nat.mod_lt _ (by omega)
  have hbehind : (s.rb.m_in.toNat + done) % mem.length =
      (s.rb.m_out.toNat + (queue.length + done)) % mem.length := by
    rw [Nat.add_mod, h.ring.in_slot, ← Nat.add_mod, Nat.add_assoc]
  refine ⟨_, rfl, ?_, ?_⟩
  · simp only [putByte, hp, hslot, h.ring.buffer, List.getElem?_eq_getElem hbyte, hlt,
      Option.bind_eq_bind, Option.bind_some, ite_true, afterPut]
  · have hpush := hstaged.push (by simp [Producer.staged]; omega) src.bytes[done]
    have hlen : (queue ++ (Producer.copying src free len done).staged).length =
        queue.length + done := by simp [Producer.staged]; omega
    have htake : src.bytes.take done ++ [src.bytes[done]] = src.bytes.take (done + 1) := by simp
    rw [hlen, ← hbehind, List.append_assoc] at hpush
    simp only [Producer.staged, htake] at hpush
    have hkeep : Circular.Holds
        (mem.set ((s.rb.m_in.toNat + done) % mem.length) src.bytes[done])
        s.rb.m_out.toNat queue := by
      simpa using hpush.take queue.length
    exact ⟨⟨rfl, (List.length_set ..).trans hlength, h.ring.pow_two, h.ring.readable,
      h.ring.room, hkeep⟩, hpush, ⟨hmin, hdone, hfree⟩, h.consumer⟩

theorem Invariant.putByte (h : Invariant s mem queue) {slot : Nat}
    (hslot : s.putSlot = some slot) :
    ∃ next stored, Concurrent.putByte s = some next ∧ Invariant next stored queue ∧
      Logged s next queue queue ∧ next.rb.m_size = s.rb.m_size := by
  obtain ⟨src, free, len, done, hp, hdone, hbyte, -, -⟩ := h.putSlot hslot
  obtain ⟨stored, -, hnext, hinv⟩ := h.putByte_eq hp hdone hbyte
  exact ⟨_, stored, hnext, hinv, .inl ⟨rfl, rfl⟩, rfl⟩

theorem Invariant.getByte_eq (h : Invariant s mem queue) {dst : Span} {buffer : List UInt8}
    {avail len : ULong} {done : Nat} (hc : s.consumer = .copying dst buffer avail len done)
    (hdone : done < len.toNat) :
    ∃ filled, getByte s = some { s with consumer := .copying dst filled avail len (done + 1) } ∧
      Invariant { s with consumer := .copying dst filled avail len (done + 1) } mem queue := by
  have hsafe := h.consumer
  have hroom := h.ring.room
  have hfits := dst.fits
  rw [hc] at hsafe
  obtain ⟨hmin, -, havail, hlen, htake⟩ := hsafe
  have hle : len.toNat = min dst.len.toNat avail.toNat := by rw [hmin, toNat_std_min]
  have hbuf : done < buffer.length := by omega
  have hqueue : done < queue.length := by omega
  have hbyte := h.ring.holds done hqueue
  have hslot : s.getSlot = some ((s.rb.m_out.toNat + done) % mem.length) := by
    simp only [State.getSlot, hc, hdone, ite_true]
    rw [copySlot_eq h.ring _ _ _ (by omega) hdone]
  refine ⟨buffer.set done queue[done], ?_,
    h.ring, h.staged, h.producer, hmin, hdone, havail, (List.length_set ..).trans hlen, ?_⟩
  · simp only [getByte, hc, hslot, h.ring.buffer, hbyte, hbuf, Option.bind_eq_bind,
      Option.bind_some, ite_true]
  · rw [List.take_add_one, List.take_set_of_le (Nat.le_refl _), List.getElem?_set_self hbuf, htake,
      List.take_add_one, List.getElem?_eq_getElem hqueue]

theorem Invariant.getByte (h : Invariant s mem queue) {slot : Nat}
    (hslot : s.getSlot = some slot) :
    ∃ next, Concurrent.getByte s = some next ∧ Invariant next mem queue ∧
      Logged s next queue queue ∧ next.rb.m_size = s.rb.m_size := by
  obtain ⟨dst, buffer, avail, len, done, hc, hdone, -, -⟩ := h.getSlot hslot
  obtain ⟨filled, hnext, hinv⟩ := h.getByte_eq hc hdone
  exact ⟨_, hnext, hinv, .inl ⟨rfl, rfl⟩, rfl⟩

theorem Invariant.publishIn (h : Invariant s mem queue) {src : Span} {free len : ULong}
    (hp : s.producer = .copying src free len len.toNat)
    (ht : t = { s with rb := { s.rb with m_in := s.rb.m_in + len }, producer := .idle,
                       log := s.log ++ [.push (src.bytes.take src.len.toNat) free.toNat
                         (src.bytes.take len.toNat)] }) :
    Invariant t mem (queue ++ src.bytes.take len.toNat) ∧
      Logged s t queue (queue ++ src.bytes.take len.toNat) := by
  have hsafe := h.producer
  have hstaged := h.staged
  have hfits := src.fits
  rw [hp] at hsafe hstaged
  obtain ⟨hmin, -, hfree⟩ := hsafe
  have hle : len.toNat = min src.len.toNat free.toNat := by rw [hmin, toNat_std_min]
  have hitems : (src.bytes.take len.toNat).length = len.toNat := by rw [List.length_take]; omega
  have hring := h.ring.publish mem (src.bytes.take len.toNat) len rfl hitems.symm (by omega) hstaged
  have hrb : t.rb = { s.rb with m_buffer := some mem, m_in := s.rb.m_in + len } := by
    rw [ht, ← h.ring.buffer]
  subst ht
  refine ⟨⟨hrb ▸ hring, by simpa [Producer.staged] using hstaged, trivial, ?_⟩, .inr ⟨_, rfl, ?_⟩⟩
  · have hc := h.consumer
    cases hcons : s.consumer with
    | idle => trivial
    | copying dst buffer avail clen done =>
        rw [hcons] at hc
        obtain ⟨hcmin, hdone, havail, hbuf, htake⟩ := hc
        have hcle : clen.toNat = min dst.len.toNat avail.toNat := by rw [hcmin, toNat_std_min]
        refine ⟨hcmin, hdone, by rw [List.length_append]; omega, hbuf, ?_⟩
        rw [htake, List.take_append_of_le_length (by omega)]
  · refine Fifo.step_push_eq_some.mpr ⟨hfree, ?_, rfl⟩
    rw [List.take_take]
    congr 1
    omega

theorem Invariant.publishOut (h : Invariant s mem queue) {dst : Span} {buffer : List UInt8}
    {avail len : ULong} (hc : s.consumer = .copying dst buffer avail len len.toNat)
    (ht : t = { s with rb := { s.rb with m_out := s.rb.m_out + len }, consumer := .idle,
                       log := s.log ++ [.pop dst.len.toNat avail.toNat (buffer.take len.toNat)] }) :
    Invariant t mem (queue.drop len.toNat) ∧ Logged s t queue (queue.drop len.toNat) := by
  have hsafe := h.consumer
  rw [hc] at hsafe
  obtain ⟨hmin, -, havail, -, htake⟩ := hsafe
  have hle : len.toNat = min dst.len.toNat avail.toNat := by rw [hmin, toNat_std_min]
  have hring := h.ring.release len (by omega)
  subst ht
  refine ⟨⟨hring, ?_, ?_, trivial⟩, .inr ⟨_, rfl, ?_⟩⟩
  · have hdrop := h.staged.drop len.toNat
    rw [List.drop_append_of_le_length (by omega)] at hdrop
    apply hdrop.congr_pos
    change _ = (s.rb.m_out + len).toNat % mem.length
    rw [BitVec.toNat_add, h.ring.wrap]
  · have hp := h.producer
    cases hprod : s.producer with
    | idle => trivial
    | copying src free plen done =>
        rw [hprod] at hp
        obtain ⟨hpmin, hdone, hfree⟩ := hp
        change queue.length + free.toNat ≤ s.rb.m_size.toNat at hfree
        refine ⟨hpmin, hdone, ?_⟩
        change (queue.drop len.toNat).length + free.toNat ≤ s.rb.m_size.toNat
        rw [List.length_drop]
        omega
  · refine Fifo.step_pop_eq_some.mpr ⟨havail, by rw [htake, hle], ?_⟩
    rw [htake, List.length_take, Nat.min_eq_left (by omega)]

theorem Invariant.sampleOut (h : Invariant s mem queue) (src : Span) (hp : s.producer = .idle)
    {free : ULong} (hf : free = s.rb.m_size - s.rb.m_in + s.rb.m_out) :
    Invariant { s with producer := .copying src free (std_min src.len free) 0 } mem queue := by
  have hfree := h.ring.free
  rw [← hf] at hfree
  have hroom := h.ring.room
  have hstaged := h.staged
  rw [hp] at hstaged
  refine ⟨h.ring, by simpa [Producer.staged] using hstaged, ⟨rfl, Nat.zero_le _, ?_⟩, h.consumer⟩
  change queue.length + free.toNat ≤ s.rb.m_size.toNat
  omega

theorem Invariant.sampleIn (h : Invariant s mem queue) (dst : Span)
    {avail : ULong} (ha : avail = s.rb.m_in - s.rb.m_out) :
    Invariant { s with consumer := .copying dst dst.bytes avail (std_min dst.len avail) 0 }
      mem queue :=
  ⟨h.ring, h.staged, h.producer, rfl, Nat.zero_le _, Nat.le_of_eq (ha ▸ h.ring.readable), rfl,
    by simp⟩

-- One step of either thread keeps the invariant and is at most one call of the queue.
theorem Invariant.step (h : Invariant s mem queue) {action : Action}
    (hstep : Concurrent.step s action = some t) :
    ∃ mem' next, Invariant t mem' next ∧ Logged s t queue next ∧ t.rb.m_size = s.rb.m_size := by
  cases action with
  | sampleOut src =>
      simp only [Concurrent.step] at hstep
      cases hp : s.producer with
      | copying => simp [hp] at hstep
      | idle =>
          simp only [hp, Option.some.injEq] at hstep
          subst hstep
          exact ⟨mem, queue, h.sampleOut src hp rfl, .inl ⟨rfl, rfl⟩, rfl⟩
  | putByte =>
      cases hslot : s.putSlot with
      | none => simp [Concurrent.step, Concurrent.putByte, hslot] at hstep
      | some slot =>
          obtain ⟨next, stored, hnext, hinv, hlog, hsize⟩ := h.putByte hslot
          have he : next = t := Option.some.inj (hnext.symm.trans hstep)
          exact ⟨stored, queue, he ▸ hinv, he ▸ hlog, he ▸ hsize⟩
  | publishIn =>
      simp only [Concurrent.step] at hstep
      cases hp : s.producer with
      | idle => simp [hp] at hstep
      | copying src free len done =>
          simp only [hp, Option.ite_none_right_eq_some, Option.some.injEq] at hstep
          obtain ⟨rfl, rfl⟩ := hstep
          obtain ⟨hinv, hlog⟩ := h.publishIn hp rfl
          exact ⟨mem, _, hinv, hlog, rfl⟩
  | sampleIn dst =>
      simp only [Concurrent.step] at hstep
      cases hc : s.consumer with
      | copying => simp [hc] at hstep
      | idle =>
          simp only [hc, Option.some.injEq] at hstep
          subst hstep
          exact ⟨mem, queue, h.sampleIn dst rfl, .inl ⟨rfl, rfl⟩, rfl⟩
  | getByte =>
      cases hslot : s.getSlot with
      | none => simp [Concurrent.step, Concurrent.getByte, hslot] at hstep
      | some slot =>
          obtain ⟨next, hnext, hinv, hlog, hsize⟩ := h.getByte hslot
          have he : next = t := Option.some.inj (hnext.symm.trans hstep)
          exact ⟨mem, queue, he ▸ hinv, he ▸ hlog, he ▸ hsize⟩
  | publishOut =>
      simp only [Concurrent.step] at hstep
      cases hc : s.consumer with
      | idle => simp [hc] at hstep
      | copying dst buffer avail len done =>
          simp only [hc, Option.ite_none_right_eq_some, Option.some.injEq] at hstep
          obtain ⟨rfl, rfl⟩ := hstep
          obtain ⟨hinv, hlog⟩ := h.publishOut hc rfl
          exact ⟨mem, _, hinv, hlog, rfl⟩

end

section

variable {s : State} {mem queue : List UInt8}

theorem exec_putByte (h : Invariant s mem queue) {src : Span} {free len : ULong} {done : Nat}
    (hp : s.producer = .copying src free len done) (n : Nat) (hn : done + n ≤ len.toNat) :
    Machine.exec step s (List.replicate n .putByte) =
      some (afterPut s (Circular.fill mem (s.rb.m_in.toNat + done) ((src.bytes.drop done).take n))
        src free len (done + n)) := by
  induction n generalizing s mem done with
  | zero =>
      have he : afterPut s mem src free len done = s := by
        rw [afterPut, ← h.ring.buffer, ← hp]
      simp [Circular.fill, he]
  | succ n ih =>
      have hsafe := h.producer
      have hfits := src.fits
      rw [hp] at hsafe
      have hle : len.toNat = min src.len.toNat free.toNat := by rw [hsafe.1, toNat_std_min]
      obtain ⟨stored, hs, hput, hinv⟩ := h.putByte_eq hp (by omega) (by omega)
      have hrest := ih hinv rfl (by omega)
      rw [List.replicate_succ, Machine.exec_cons]
      change (putByte s).bind _ = _
      have hdrop : src.bytes.drop done = src.bytes[done] :: src.bytes.drop (done + 1) :=
        List.drop_eq_getElem_cons (by omega)
      rw [hput, Option.bind_some, hrest, hdrop, List.take_succ_cons, Circular.fill, ← hs]
      simp only [afterPut, Nat.add_assoc, Nat.add_comm 1]

theorem exec_getByte (h : Invariant s mem queue) {dst : Span} {buffer : List UInt8}
    {avail len : ULong} {done : Nat} (hc : s.consumer = .copying dst buffer avail len done)
    (n : Nat) (hn : done + n ≤ len.toNat) :
    ∃ filled, Machine.exec step s (List.replicate n .getByte) =
        some { s with consumer := .copying dst filled avail len (done + n) } ∧
      Invariant { s with consumer := .copying dst filled avail len (done + n) } mem queue := by
  induction n generalizing s buffer done with
  | zero =>
      have he : { s with consumer := .copying dst buffer avail len done } = s := by rw [← hc]
      exact ⟨buffer, by simp [he], he ▸ h⟩
  | succ n ih =>
      obtain ⟨_, hget, hinv⟩ := h.getByte_eq hc (by omega)
      obtain ⟨filled, hrest, hfinal⟩ := ih hinv rfl (by omega)
      have hadd : done + 1 + n = done + (n + 1) := by omega
      rw [hadd] at hrest hfinal
      refine ⟨filled, ?_, hfinal⟩
      rw [List.replicate_succ, Machine.exec_cons]
      change (getByte s).bind _ = _
      rw [hget, Option.bind_some, hrest]

-- The steps of one write taken in a row are the call of ring_buffer.cpp.
theorem exec_write (h : Invariant s mem queue) (hp : s.producer = .idle) (src : Span) :
    ∃ next n, s.rb.ring_buffer_write src.bytes src.len = some (next, n) ∧
      Machine.exec step s (.sampleOut src :: (List.replicate n.toNat .putByte ++ [.publishIn])) =
        some { s with rb := next, log := s.log ++ [.push (src.bytes.take src.len.toNat)
          (s.rb.m_size - s.rb.m_in + s.rb.m_out).toNat (src.bytes.take n.toNat)] } := by
  obtain ⟨free, hf⟩ : ∃ free, free = s.rb.m_size - s.rb.m_in + s.rb.m_out := ⟨_, rfl⟩
  obtain ⟨n, hn⟩ : ∃ n, n = std_min src.len free := ⟨_, rfl⟩
  refine ⟨_, n, h.ring.write_eq src n (hf ▸ hn), ?_⟩
  have hput := exec_putByte (h.sampleOut src hp hf) rfl n.toNat (by rw [hn]; omega)
  have hstart : step s (.sampleOut src) =
      some { s with producer := .copying src free n 0 } := by simp only [step, hp, ← hf, ← hn]
  rw [← hn] at hput
  rw [Machine.exec_cons, hstart, Option.bind_some, Machine.exec_append, hput, Option.bind_some]
  simp only [Machine.exec_cons, Machine.exec_nil, step, afterPut, Nat.zero_add, ite_true,
    Option.bind_some, Nat.add_zero, List.drop_zero, ← hp, ← hf]

-- The steps of one read taken in a row are the call of ring_buffer.cpp.
theorem exec_read (h : Invariant s mem queue) (hc : s.consumer = .idle) (dst : Span) :
    ∃ next buffer n, s.rb.ring_buffer_read dst.bytes dst.len = some (next, buffer, n) ∧
      Machine.exec step s (.sampleIn dst :: (List.replicate n.toNat .getByte ++ [.publishOut])) =
        some { s with rb := next, log := s.log ++ [.pop dst.len.toNat
          s.rb.ring_buffer_readable_size.toNat (buffer.take n.toNat)] } := by
  obtain ⟨avail, ha⟩ : ∃ avail, avail = s.rb.m_in - s.rb.m_out := ⟨_, rfl⟩
  obtain ⟨n, hn⟩ : ∃ n, n = std_min dst.len avail := ⟨_, rfl⟩
  refine ⟨_, _, n, h.ring.read_eq dst n (ha ▸ hn), ?_⟩
  have hle : n.toNat ≤ queue.length := by
    rw [hn, toNat_std_min, ha, ← h.ring.readable]
    exact Nat.min_le_right _ _
  obtain ⟨filled, hget, hinv⟩ := exec_getByte (h.sampleIn dst ha) rfl n.toNat (by rw [hn]; omega)
  rw [← hn] at hget hinv
  have hfilled := hinv.consumer.2.2.2.2
  have hstart : step s (.sampleIn dst) =
      some { s with consumer := .copying dst dst.bytes avail n 0 } := by
    simp only [step, hc, ← ha, ← hn]
  have hlen : (queue.take n.toNat).length = n.toNat := by rw [List.length_take]; omega
  rw [Machine.exec_cons, hstart, Option.bind_some, Machine.exec_append, hget, Option.bind_some]
  rw [List.take_append_of_le_length (by omega), List.take_of_length_le (by omega)]
  simp only [Machine.exec_cons, Machine.exec_nil, step, Nat.zero_add, ite_true, Option.bind_some]
  rw [Nat.zero_add] at hfilled
  rw [hfilled, ← hc, ring_buffer_readable_size, ha]

-- Each thread can finish on its own: a call that it has begun, with what it has sampled, and a new
-- call, which is then the one of ring_buffer.cpp.
structure Finishes (s : State) : Prop where
  writing : ∀ src free len done, s.producer = .copying src free len done →
    ∃ t, Machine.exec step s (List.replicate (len.toNat - done) .putByte ++ [.publishIn]) = some t ∧
      t.producer = .idle ∧ t.log = s.log ++ [.push (src.bytes.take src.len.toNat) free.toNat
        (src.bytes.take len.toNat)]
  reading : ∀ dst buffer avail len done, s.consumer = .copying dst buffer avail len done →
    ∃ t, Machine.exec step s (List.replicate (len.toNat - done) .getByte ++ [.publishOut]) =
        some t ∧
      t.consumer = .idle ∧ ∃ bytes, t.log = s.log ++ [.pop dst.len.toNat avail.toNat bytes]
  write : s.producer = .idle → ∀ src : Span, ∃ next n,
    s.rb.ring_buffer_write src.bytes src.len = some (next, n) ∧
      Machine.exec step s (.sampleOut src :: (List.replicate n.toNat .putByte ++ [.publishIn])) =
        some { s with rb := next, log := s.log ++ [.push (src.bytes.take src.len.toNat)
          (s.rb.m_size - s.rb.m_in + s.rb.m_out).toNat (src.bytes.take n.toNat)] }
  read : s.consumer = .idle → ∀ dst : Span, ∃ next buffer n,
    s.rb.ring_buffer_read dst.bytes dst.len = some (next, buffer, n) ∧
      Machine.exec step s (.sampleIn dst :: (List.replicate n.toNat .getByte ++ [.publishOut])) =
        some { s with rb := next, log := s.log ++ [.pop dst.len.toNat
          s.rb.ring_buffer_readable_size.toNat (buffer.take n.toNat)] }

theorem Invariant.finishes (h : Invariant s mem queue) : Finishes s := by
  refine ⟨fun src free len done hp => ?_, fun dst buffer avail len done hc => ?_, exec_write h,
    exec_read h⟩
  · have hsafe := h.producer
    rw [hp] at hsafe
    have hall : done + (len.toNat - done) = len.toNat := Nat.add_sub_of_le hsafe.2.1
    have hput := exec_putByte h hp (len.toNat - done) (Nat.le_of_eq hall)
    rw [Machine.exec_append, hput, Option.bind_some, hall]
    simp only [Machine.exec_cons, Machine.exec_nil, Concurrent.step, afterPut, ite_true,
      Option.bind_some, Option.some.injEq, exists_eq_left', and_self]
  · have hsafe := h.consumer
    rw [hc] at hsafe
    have hall : done + (len.toNat - done) = len.toNat := Nat.add_sub_of_le hsafe.2.1
    obtain ⟨filled, hget, -⟩ := exec_getByte h hc (len.toNat - done) (Nat.le_of_eq hall)
    rw [Machine.exec_append, hget, Option.bind_some, hall]
    simp only [Machine.exec_cons, Machine.exec_nil, Concurrent.step, ite_true, Option.bind_some,
      Option.some.injEq, exists_eq_left']
    exact ⟨trivial, filled.take len.toNat, rfl⟩

end

-- The invariant along a run, with the log replayed on the sequential queue.
def Linearized (size : ULong) (first : List UInt8) (s : State) : Prop :=
  ∃ mem queue, Invariant s mem queue ∧ s.rb.m_size = size ∧
    Machine.exec (Fifo.step size.toNat) first s.log = some queue

theorem step_linearized {size : ULong} {first : List UInt8} (s : State) (action : Action)
    (t : State) (h : Linearized size first s) (hstep : step s action = some t) :
    Linearized size first t := by
  obtain ⟨mem, queue, hinv, rfl, hlog⟩ := h
  obtain ⟨mem', next, hnext, hlogged, hsize⟩ := hinv.step hstep
  refine ⟨mem', next, hnext, hsize, ?_⟩
  rcases hlogged with ⟨he, rfl⟩ | ⟨effect, he, hqueue⟩
  · rw [he]
    exact hlog
  · rw [he]
    exact Machine.exec_append_eq_some.mpr ⟨queue, hlog, by simpa using hqueue⟩

-- The run lemma: the old contents of the ring are the queue that the log starts from.
theorem linearized_of_exec {rb : RingBuffer} {mem : List UInt8} {actions : List Action} {s : State}
    (hmem : rb.m_buffer = some mem) (hlen : mem.length = rb.m_size.toNat)
    (hsize : ∃ k, rb.m_size.toNat = 2 ^ k)
    (hroom : rb.ring_buffer_readable_size.toNat ≤ rb.m_size.toNat)
    (hrun : Machine.exec step (start rb) actions = some s) :
    Linearized rb.m_size
      (Circular.fetch mem rb.m_out.toNat rb.ring_buffer_readable_size.toNat) s := by
  have hring := represents_fetch rb mem hmem hlen hsize hroom
  have hstart : Linearized rb.m_size
      (Circular.fetch mem rb.m_out.toNat rb.ring_buffer_readable_size.toNat) (start rb) :=
    ⟨mem, _, ⟨hring, by simpa [start, Producer.staged] using hring.holds, trivial, trivial⟩,
      rfl, rfl⟩
  exact Machine.exec_invariant _ step_linearized hstart hrun

-- What the finished reads returned, and after it what is still unread, are the old contents and
-- what the finished writes accepted.
theorem Linearized.conserves {size : ULong} {first : List UInt8} {s : State}
    (h : Linearized size first s) :
    ∃ queue : List UInt8, queue.length = s.rb.ring_buffer_readable_size.toNat ∧
      first ++ s.log.flatMap Fifo.Effect.pushed = s.log.flatMap Fifo.Effect.popped ++ queue := by
  obtain ⟨mem, queue, hinv, -, hlog⟩ := h
  exact ⟨queue, hinv.ring.readable.symm, Fifo.exec_balance hlog⟩

-- For every interleaving, the byte steps of the two threads keep apart, each thread can finish
-- its call on its own, and the finished calls form a run of the sequential queue in the order of
-- their index updates.
theorem interleaved_calls_are_sequential (rb : RingBuffer) (mem : List UInt8)
    (hmem : rb.m_buffer = some mem) (hlen : mem.length = rb.m_size.toNat)
    (hsize : ∃ k, rb.m_size.toNat = 2 ^ k)
    (hroom : rb.ring_buffer_readable_size.toNat ≤ rb.m_size.toNat)
    (actions : List Action) (s : State) (hrun : Machine.exec step (start rb) actions = some s) :
    (∀ slot, s.putSlot = some slot → ¬Published s.rb slot ∧ (step s .putByte).isSome) ∧
    (∀ slot, s.getSlot = some slot → Published s.rb slot ∧ (step s .getByte).isSome) ∧
    Finishes s ∧
    ∃ queue,
      Machine.exec (Fifo.step rb.m_size.toNat)
        (Circular.fetch mem rb.m_out.toNat rb.ring_buffer_readable_size.toNat) s.log = some queue ∧
      queue.length = s.rb.ring_buffer_readable_size.toNat ∧
      (∀ src t, step s (.sampleOut src) = some t → ∃ free len,
        t.producer = .copying src free len 0 ∧ free.toNat = rb.m_size.toNat - queue.length) ∧
      (∀ dst t, step s (.sampleIn dst) = some t → ∃ avail len,
        t.consumer = .copying dst dst.bytes avail len 0 ∧ avail.toNat = queue.length) := by
  obtain ⟨mem', queue, hinv, hkeep, hlog⟩ :=
    linearized_of_exec hmem hlen hsize hroom hrun
  refine ⟨?_, ?_, hinv.finishes, queue, hlog, hinv.ring.readable.symm, ?_, ?_⟩
  · intro slot hslot
    obtain ⟨next, _, hnext, -⟩ := hinv.putByte hslot
    exact ⟨hinv.putSlot_not_published hslot, Option.isSome_iff_exists.mpr ⟨next, hnext⟩⟩
  · intro slot hslot
    obtain ⟨next, hnext, -⟩ := hinv.getByte hslot
    exact ⟨hinv.getSlot_published hslot, Option.isSome_iff_exists.mpr ⟨next, hnext⟩⟩
  · intro src t ht
    simp only [step] at ht
    cases hp : s.producer with
    | copying => simp [hp] at ht
    | idle =>
        simp only [hp, Option.some.injEq] at ht
        subst ht
        exact ⟨_, _, rfl, by rw [hinv.ring.free, hkeep]⟩
  · intro dst t ht
    simp only [step] at ht
    cases hc : s.consumer with
    | copying => simp [hc] at ht
    | idle =>
        simp only [hc, Option.some.injEq] at ht
        subst ht
        exact ⟨_, _, rfl, hinv.ring.readable⟩

def copies_overlap : List Action :=
  [.sampleOut ⟨[1, 2], 2, by decide⟩, .putByte, .putByte, .publishIn,
    .sampleIn ⟨[0, 0], 2, by decide⟩, .getByte, .sampleOut ⟨[3], 1, by decide⟩, .getByte, .putByte,
    .publishOut, .publishIn]

def overlapped : State :=
  (Machine.exec step
    (start ⟨some [0, 0, 0, 0], 4, 0xFFFFFFFFFFFFFFFF, 0xFFFFFFFFFFFFFFFF, false⟩)
    copies_overlap).get (by decide)

-- The writer copies a byte while the reader takes two published ones, across the wrap of the index.
theorem interleaved_calls_are_sequential_overlap :
    overlapped.log.flatMap Fifo.Effect.popped = [1, 2] ∧
      ∃ queue, Machine.exec (Fifo.step 4) [] overlapped.log = some queue ∧
        queue.length = overlapped.rb.ring_buffer_readable_size.toNat := by
  refine ⟨by decide, ?_⟩
  obtain ⟨-, -, -, queue, hlog, hlen, -⟩ := interleaved_calls_are_sequential
    ⟨some [0, 0, 0, 0], 4, 0xFFFFFFFFFFFFFFFF, 0xFFFFFFFFFFFFFFFF, false⟩ [0, 0, 0, 0]
    rfl rfl ⟨2, rfl⟩ (by decide) copies_overlap _ (Option.some_get _).symm
  exact ⟨queue, hlog, hlen⟩

end IgLibs.RingBuffer.Concurrent
