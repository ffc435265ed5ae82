import IgLibs.SharedQueue.Theorems
import IgLibs.Machine

namespace IgLibs.SharedQueue

open Word CMemory RingBuffer

-- The calls on a queue, with the answers of pipe2 and of the allocation.
inductive Request
  | init (size : ULong) (shared : Bool) (pipe2 : Option (Nat × Nat))
      (memory : Option (Nat → UInt8))
  | uninit
  | read (dst : Span) (clear_notify : Bool)
  | write (src : Span) (write_notify : Bool)

-- No result is a copy through NULL or outside the buffer.
def request (cap : Nat) (s : Polled) : Request → Option Polled
  | .init size shared pipe2 memory => some (init s size shared pipe2 memory).1
  | .uninit => some (uninit s)
  | .read dst clear_notify => (read s dst.bytes dst.len clear_notify).map Prod.fst
  | .write src write_notify => (write cap s src.bytes src.len write_notify).map Prod.fst

-- Without storage every transfer is refused and changes nothing.
def Refuses (cap : Nat) (s : Polled) : Prop :=
  s.queue.m_ring_buffer.m_buffer = none →
    (∀ (dst : Span) clear_notify, 1 ≤ dst.len.toNat →
      read s dst.bytes dst.len clear_notify = some (s, dst.bytes, -1)) ∧
    (∀ (src : Span) write_notify, 1 ≤ src.len.toNat →
      write cap s src.bytes src.len write_notify = some (s, -1))

-- uninit frees no storage: no init before it has succeeded.
def NothingToFree (s : Polled) : Request → Prop
  | .uninit => s.queue.m_ring_buffer.m_buffer = none
  | _ => True

-- The storage is there or the ring counts no bytes; with storage the pipe is open.
inductive Storage (s : Polled) : Prop
  | absent (hbuf : s.queue.m_ring_buffer.m_buffer = none)
      (hempty : s.queue.m_ring_buffer.m_in = s.queue.m_ring_buffer.m_out)
  | present (mem queue : List UInt8) (hrep : Represents s.queue.m_ring_buffer mem queue)
      (hfd : 0 ≤ s.queue.read_fd)

section

variable {cap : Nat} {s next : Polled}

theorem absent_read (hbuf : s.queue.m_ring_buffer.m_buffer = none)
    (hempty : s.queue.m_ring_buffer.m_in = s.queue.m_ring_buffer.m_out) (buf : List UInt8)
    (size : ULong) (clear_notify : Bool) : read s buf size clear_notify = some (s, buf, -1) := by
  have hzero : s.queue.m_ring_buffer.m_in - s.queue.m_ring_buffer.m_out = (0 : ULong) := by
    rw [hempty, BitVec.sub_self]
    rfl
  unfold read
  split
  · rfl
  · rename_i hlong
    have hsize : size = 0 := by
      rw [get_readable_size, ring_buffer_readable_size, hzero, BitVec.not_lt] at hlong
      exact BitVec.le_zero_iff.mp hlong
    rw [hsize, ring_buffer_read_null hbuf, hzero, if_pos (std_min_zero _)]
    rfl

-- The size check of write looks at m_size, which free() leaves as it was.
theorem absent_write (hbuf : s.queue.m_ring_buffer.m_buffer = none)
    (hempty : s.queue.m_ring_buffer.m_in = s.queue.m_ring_buffer.m_out) (buf : List UInt8)
    (size : ULong) (write_notify : Bool) :
    write cap s buf size write_notify =
      if size = 0 ∨ s.queue.m_ring_buffer.m_size < size then some (s, -1) else none := by
  have hfree : s.queue.m_ring_buffer.m_size - s.queue.m_ring_buffer.m_in +
      s.queue.m_ring_buffer.m_out = s.queue.m_ring_buffer.m_size := by
    rw [hempty]
    exact BitVec.sub_add_cancel _ _
  have hwriteable : s.queue.get_writeable_size = s.queue.m_ring_buffer.m_size := by
    rw [get_writeable_size, get_size, get_readable_size, ring_buffer_size,
      ring_buffer_readable_size, hempty, BitVec.sub_self]
    exact BitVec.sub_zero _
  rw [write, hwriteable]
  by_cases hlong : s.queue.m_ring_buffer.m_size < size
  · rw [if_pos hlong, if_pos (.inr hlong)]
  · rw [if_neg hlong, ring_buffer_write_null hbuf, hfree, std_min, if_neg hlong]
    by_cases hzero : size = 0
    · rw [if_pos hzero, if_pos (.inl hzero)]
      rfl
    · rw [if_neg hzero, if_neg (not_or.mpr ⟨hzero, hlong⟩)]
      rfl

theorem Storage.refuses_iff (h : Storage s) :
    Refuses cap s ↔
      (s.queue.m_ring_buffer.m_buffer = none → s.queue.m_ring_buffer.m_size = 0) := by
  cases h with
  | present mem queue hrep hfd =>
      have hsome : s.queue.m_ring_buffer.m_buffer ≠ none := by rw [hrep.buffer]; exact nofun
      exact ⟨fun _ hnone => absurd hnone hsome, fun _ hnone => absurd hnone hsome⟩
  | absent hbuf hempty =>
      have hpos {size : ULong} (hsize : 1 ≤ size.toNat) : size ≠ 0 := by
        rintro rfl
        exact absurd hsize (by decide)
      constructor
      · intro hrefuses _
        by_contra hsize
        -- a write of one byte passes the check and copies to NULL
        have hwrite := (hrefuses hbuf).2 ⟨[0], 1, Nat.le_refl _⟩ false (Nat.le_refl _)
        rw [absent_write hbuf hempty, Option.ite_none_right_eq_some] at hwrite
        obtain ⟨hzero | hlt, -⟩ := hwrite
        · exact absurd hzero (by decide)
        · rw [BitVec.lt_def] at hlt
          exact hsize (BitVec.eq_of_toNat_eq (Nat.lt_one_iff.mp hlt))
      · intro hsize _
        refine ⟨fun dst clear_notify _ => absent_read hbuf hempty _ _ _, ?_⟩
        intro src write_notify hlen
        rw [absent_write hbuf hempty, hsize hbuf, if_pos]
        exact .inr (BitVec.lt_def.mpr hlen)

-- Without storage init brings an empty ring or leaves the ring's numbers alone.
theorem absent_init (hbuf : s.queue.m_ring_buffer.m_buffer = none) (size : ULong) (shared : Bool)
    (pipe2 : Option (Nat × Nat)) (memory : Option (Nat → UInt8))
    (hnext : next = (init s size shared pipe2 memory).1) :
    (next.queue.m_ring_buffer.m_buffer = none ∧
      next.queue.m_ring_buffer.m_size = s.queue.m_ring_buffer.m_size ∧
      next.queue.m_ring_buffer.m_in = s.queue.m_ring_buffer.m_in ∧
      next.queue.m_ring_buffer.m_out = s.queue.m_ring_buffer.m_out) ∨
    ∃ mem, Represents next.queue.m_ring_buffer mem [] ∧ 0 ≤ next.queue.read_fd := by
  by_cases hok : (init s size shared pipe2 memory).2 = 0
  · obtain ⟨mem, hrep, -, hfd, -⟩ := init_spec s size shared pipe2 memory hok
    exact .inr ⟨mem, hnext ▸ hrep, hnext ▸ hfd⟩
  · left
    by_cases hopen : 0 ≤ s.queue.read_fd ∨ 0 ≤ s.queue.write_fd
    · rw [hnext, init.eq_def, if_pos hopen]
      exact ⟨hbuf, rfl, rfl, rfl⟩
    cases pipe2 with
    | none =>
        simp only [init, if_neg hopen] at hnext
        rw [hnext]
        exact ⟨hbuf, rfl, rfl, rfl⟩
    | some fds =>
        simp only [init, if_neg hopen] at hok hnext
        split at hok
        · rename_i hgot
          rw [if_pos hgot] at hnext
          have hunset : (s.queue.m_ring_buffer.set_shared shared).m_buffer = none ∧
              (s.queue.m_ring_buffer.set_shared shared).m_size = s.queue.m_ring_buffer.m_size ∧
              (s.queue.m_ring_buffer.set_shared shared).m_in = s.queue.m_ring_buffer.m_in ∧
              (s.queue.m_ring_buffer.set_shared shared).m_out = s.queue.m_ring_buffer.m_out := by
            rw [set_shared, if_neg (by rw [hbuf]; exact Bool.noConfusion)]
            exact ⟨hbuf, rfl, rfl, rfl⟩
          subst hnext
          rcases ring_buffer_alloc_fails _ size memory hgot with hring | hring
          · simp only [close_fd, hring]
            exact hunset
          · simp only [close_fd, hring]
            exact ⟨trivial, hunset.2⟩
        · exact absurd rfl hok

-- With storage a read or a write always returns, and the storage stays.
theorem present_request {mem queue : List UInt8} (hrep : Represents s.queue.m_ring_buffer mem queue)
    (hfd : 0 ≤ s.queue.read_fd) (r : Request) (hr : r ≠ .uninit) :
    ∃ next mem' queue', request cap s r = some next ∧
      Represents next.queue.m_ring_buffer mem' queue' ∧ 0 ≤ next.queue.read_fd := by
  cases r with
  | uninit => exact absurd rfl hr
  | init size shared pipe2 memory =>
      refine ⟨s, mem, queue, ?_, hrep, hfd⟩
      rw [request, init.eq_def, if_pos (.inl hfd)]
  | read dst clear_notify =>
      simp only [request, read]
      split
      · exact ⟨s, mem, queue, rfl, hrep, hfd⟩
      · obtain ⟨ring, n, hcall, -, -, hring⟩ := hrep.read dst
        simp only [hcall, Option.bind_eq_bind, Option.bind_some]
        split
        · exact ⟨_, mem, _, rfl, hring, hfd⟩
        · refine ⟨_, mem, queue.drop n.toNat, rfl, ?_⟩
          split
          · rw [clear_queue]
            exact ⟨hring, hfd⟩
          · exact ⟨hring, hfd⟩
  | write src write_notify =>
      simp only [request, write]
      split
      · exact ⟨s, mem, queue, rfl, hrep, hfd⟩
      · obtain ⟨ring, mem', n, hcall, -, -, hring⟩ := hrep.write src
        simp only [hcall, Option.bind_eq_bind, Option.bind_some]
        split
        · exact ⟨_, mem', _, rfl, hring, hfd⟩
        · refine ⟨_, mem', queue ++ src.bytes.take n.toNat, rfl, ?_⟩
          split
          · rw [notify_queue]
            exact ⟨hring, hfd⟩
          · exact ⟨hring, hfd⟩

-- Any other request than uninit ends with storage, or leaves its absence as it was.
theorem Storage.request_cases (h : Storage s) {r : Request} (hr : r ≠ .uninit)
    (hnext : request cap s r = some next) :
    (∃ mem queue, Represents next.queue.m_ring_buffer mem queue ∧ 0 ≤ next.queue.read_fd) ∨
      (s.queue.m_ring_buffer.m_buffer = none ∧ next.queue.m_ring_buffer.m_buffer = none ∧
        next.queue.m_ring_buffer.m_size = s.queue.m_ring_buffer.m_size ∧
        next.queue.m_ring_buffer.m_in = next.queue.m_ring_buffer.m_out) := by
  cases h with
  | present mem queue hrep hfd =>
      obtain ⟨next', mem', queue', hcall, hrep', hfd'⟩ := present_request hrep hfd r hr
      obtain rfl := Option.some.inj (hcall.symm.trans hnext)
      exact .inl ⟨mem', queue', hrep', hfd'⟩
  | absent hbuf hempty =>
      cases r with
      | uninit => exact absurd rfl hr
      | init size shared pipe2 memory =>
          rcases absent_init hbuf size shared pipe2 memory (Option.some.inj hnext).symm with
            ⟨hbuf', hsize, hin, hout⟩ | ⟨mem, hrep, hfd⟩
          · exact .inr ⟨hbuf, hbuf', hsize, by rw [hin, hout, hempty]⟩
          · exact .inl ⟨mem, [], hrep, hfd⟩
      | read dst clear_notify =>
          rw [request, absent_read hbuf hempty] at hnext
          obtain rfl := Option.some.inj hnext
          exact .inr ⟨hbuf, hbuf, rfl, hempty⟩
      | write src write_notify =>
          rw [request, absent_write hbuf hempty] at hnext
          split at hnext
          · obtain rfl := Option.some.inj hnext
            exact .inr ⟨hbuf, hbuf, rfl, hempty⟩
          · cases hnext

theorem Storage.request (h : Storage s) {r : Request} (hnext : request cap s r = some next) :
    Storage next := by
  by_cases hr : r = .uninit
  · subst hr
    obtain rfl := Option.some.inj hnext
    exact .absent rfl rfl
  · rcases h.request_cases hr hnext with ⟨mem, queue, hrep, hfd⟩ | ⟨-, hbuf, -, hempty⟩
    · exact .present mem queue hrep hfd
    · exact .absent hbuf hempty

-- Only a uninit that frees something makes a refusing state accept.
theorem Storage.refuses_request_iff (h : Storage s) (hrefuses : Refuses cap s) {r : Request}
    (hnext : SharedQueue.request cap s r = some next) : Refuses cap next ↔ NothingToFree s r := by
  rw [(h.request hnext).refuses_iff]
  rw [h.refuses_iff] at hrefuses
  by_cases hr : r = .uninit
  · subst hr
    obtain rfl := Option.some.inj hnext
    constructor
    · intro hzero
      cases h with
      | absent hbuf hempty => exact hbuf
      | present mem queue hrep hfd =>
          have hpos := hrep.size_pos
          have hsize : s.queue.m_ring_buffer.m_size = 0 := hzero rfl
          rw [hsize] at hpos
          exact absurd hpos (Nat.lt_irrefl 0)
    · intro hbuf _
      exact hrefuses hbuf
  · have hok : NothingToFree s r := by
      cases r <;> trivial
    refine ⟨fun _ => hok, fun _ hnone => ?_⟩
    rcases h.request_cases hr hnext with ⟨mem, queue, hrep, -⟩ | ⟨hbuf, -, hsize, -⟩
    · rw [hrep.buffer] at hnone
      cases hnone
    · rw [hsize, hrefuses hbuf]

-- No request faults in a refusing state.
theorem Storage.request_returns (h : Storage s) (hrefuses : Refuses cap s) (r : Request) :
    ∃ next, SharedQueue.request cap s r = some next := by
  cases h with
  | present mem queue hrep hfd =>
      by_cases hr : r = .uninit
      · exact ⟨uninit s, by rw [hr]; rfl⟩
      · obtain ⟨next, _, _, hnext, -⟩ := present_request hrep hfd r hr
        exact ⟨next, hnext⟩
  | absent hbuf hempty =>
      cases r with
      | uninit => exact ⟨_, rfl⟩
      | init size shared pipe2 memory => exact ⟨_, rfl⟩
      | read dst clear_notify =>
          exact ⟨s, by rw [SharedQueue.request, absent_read hbuf hempty]; rfl⟩
      | write src write_notify =>
          refine ⟨s, ?_⟩
          have hzero := (Storage.absent hbuf hempty).refuses_iff.mp hrefuses hbuf
          rw [SharedQueue.request, absent_write hbuf hempty, if_pos]
          · rfl
          · by_cases hlen : src.len = 0
            · exact .inl hlen
            · have hpos := Nat.pos_of_ne_zero (BitVec.toNat_ne_iff_ne.mpr hlen)
              exact .inr (by rw [hzero, BitVec.lt_def]; exact hpos)

end

-- A queue copies nothing while it has no storage, in every state of a run, exactly if every
-- uninit of the run comes before the first successful init.
theorem refuses_iff_nothing_freed (cap : Nat) (requests : List Request) :
    (Machine.Meets (request cap) NothingToFree ⟨new, 0⟩ requests ↔
      ∀ first s, first <+: requests → Machine.exec (request cap) ⟨new, 0⟩ first = some s →
        Refuses cap s) ∧
    (Machine.Meets (request cap) NothingToFree ⟨new, 0⟩ requests →
      ∃ s, Machine.exec (request cap) ⟨new, 0⟩ requests = some s) := by
  have hstart : Storage ⟨new, 0⟩ := .absent rfl rfl
  have hrefuses : Refuses cap ⟨new, 0⟩ := hstart.refuses_iff.mpr fun _ => rfl
  constructor
  · apply Machine.meets_iff_forall_prefix Storage (Refuses cap)
      (fun s r next h hnext => h.request hnext)
      (fun s r next h hgood hnext => h.refuses_request_iff hgood hnext) _ hstart hrefuses
    intro s r hnone
    cases r with
    | uninit => cases hnone
    | init | read | write => trivial
  · intro hmeets
    obtain ⟨s, hrun, -⟩ := Machine.exec_total_of_meets
      (fun s => Storage s ∧ Refuses cap s)
      (fun s r hinv hok => by
        obtain ⟨next, hnext⟩ := hinv.1.request_returns hinv.2 r
        exact ⟨next, hnext, hinv.1.request hnext, (hinv.1.refuses_request_iff hinv.2 hnext).mpr hok⟩)
      ⟨hstart, hrefuses⟩ hmeets
    exact ⟨s, hrun⟩

-- A ring of eight bytes is freed; the next write of one byte copies to NULL.
theorem write_after_uninit_faults :
    ∃ s, Machine.exec (request 1) ⟨new, 0⟩
        [.init 8 false (some (3, 4)) (some fun _ => 0), .uninit] = some s ∧
      s.queue.m_ring_buffer.m_buffer = none ∧ ¬Refuses 1 s ∧
      write 1 s [7] 1 true = none := by
  refine ⟨_, rfl, rfl, fun h => ?_, by decide⟩
  have hzero := (Storage.absent rfl rfl).refuses_iff.mp h rfl
  exact absurd hzero (by decide)

end IgLibs.SharedQueue
