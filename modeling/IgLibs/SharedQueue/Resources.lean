import IgLibs.SharedQueue.Lifetime
import IgLibs.RingBuffer.Blocks

namespace IgLibs.SharedQueue

open Word CMemory RingBuffer

-- The calls of _close_fd, of init and of uninit. The destructor makes those of uninit, the last
-- of them in the destructor of the ring.
def close_calls (q : SharedQueue) : List Resource :=
  (if 0 ≤ q.read_fd then [.close q.read_fd] else []) ++
    if 0 ≤ q.write_fd then [.close q.write_fd] else []

def init_calls (q : SharedQueue) (size : ULong) (shared : Bool) (pipe2 : Option (Nat × Nat))
    (memory : Option (Nat → UInt8)) : List Resource :=
  if 0 ≤ q.read_fd ∨ 0 ≤ q.write_fd then []
  else match pipe2 with
    | none => [.pipe2 none]
    | some (rfd, wfd) =>
        let ring := q.m_ring_buffer.set_shared shared
        .pipe2 (some (rfd, wfd)) :: (ring.alloc_calls size memory ++
          if (ring.ring_buffer_alloc size memory).2 = 0 then close_calls ⟨rfd, wfd, ring⟩ else [])

def uninit_calls (q : SharedQueue) : List Resource := close_calls q ++ q.m_ring_buffer.free_calls

-- The bytes through the pipe and the ring are not counted here.
def request_calls (q : SharedQueue) : Request → List Resource
  | .init size shared pipe2 memory => init_calls q size shared pipe2 memory
  | .uninit => uninit_calls q
  | .read _ _ => []
  | .write _ _ => []

structure Owned where
  polled : Polled
  calls : List Resource

def Owned.step (cap : Nat) (o : Owned) (r : Request) : Option Owned :=
  (request cap o.polled r).map fun next => ⟨next, o.calls ++ request_calls o.polled.queue r⟩

-- What the queue holds, going by its fields.
def held (q : SharedQueue) : Resource.Held :=
  ⟨q.m_ring_buffer.block, (if 0 ≤ q.read_fd then [q.read_fd] else []) ++
    if 0 ≤ q.write_fd then [q.write_fd] else []⟩

-- A queue has both ends of a pipe, or neither of them and no storage.
def Paired (q : SharedQueue) : Prop :=
  0 ≤ q.read_fd ∧ 0 ≤ q.write_fd ∨
    q.read_fd < 0 ∧ q.write_fd < 0 ∧ q.m_ring_buffer.m_buffer = none

structure Owned.Sound (o : Owned) : Prop where
  calls : Machine.exec Resource.step Resource.idle o.calls = some (held o.polled.queue)
  paired : Paired o.polled.queue

section

variable {q : SharedQueue} {s next : Polled} {o : Owned} {cap : Nat}

theorem neg_one_neg : (-1 : Int) < 0 := by decide

theorem held_of_open (hread : 0 ≤ q.read_fd) (hwrite : 0 ≤ q.write_fd) :
    held q = ⟨q.m_ring_buffer.block, [q.read_fd, q.write_fd]⟩ := by
  rw [held, if_pos hread, if_pos hwrite]
  rfl

theorem held_of_closed (hread : q.read_fd < 0) (hwrite : q.write_fd < 0) :
    held q = ⟨q.m_ring_buffer.block, []⟩ := by
  rw [held, if_neg (not_le.mpr hread), if_neg (not_le.mpr hwrite)]
  rfl

-- The ends of the pipe are closed, whatever the ring holds.
theorem exec_close_calls (h : Paired q) :
    Machine.exec Resource.step (held q) (close_calls q) = some ⟨q.m_ring_buffer.block, []⟩ := by
  rcases h with ⟨hread, hwrite⟩ | ⟨hread, hwrite, -⟩
  · rw [held_of_open hread hwrite, close_calls, if_pos hread, if_pos hwrite]
    simp [Resource.step]
  · rw [held_of_closed hread hwrite, close_calls, if_neg (not_le.mpr hread),
      if_neg (not_le.mpr hwrite)]
    rfl

theorem exec_uninit_calls (h : Paired q) :
    Machine.exec Resource.step (held q) (uninit_calls q) = some Resource.idle := by
  rw [uninit_calls, Machine.exec_append, exec_close_calls h, Option.bind_some,
    exec_free_calls q.m_ring_buffer []]
  rfl

-- Without storage a failed allocation leaves none.
theorem alloc_fails_block {rb : RingBuffer} (hbuf : rb.m_buffer = none) {size : ULong}
    {memory : Option (Nat → UInt8)} (hfail : (rb.ring_buffer_alloc size memory).2 = 0) :
    (rb.ring_buffer_alloc size memory).1.m_buffer = none := by
  rcases ring_buffer_alloc_fails rb size memory hfail with heq | heq
  · rw [heq, hbuf]
  · rw [heq]

theorem exec_init_calls (h : Paired s.queue) (size : ULong) (shared : Bool)
    (pipe2 : Option (Nat × Nat)) (memory : Option (Nat → UInt8)) :
    Machine.exec Resource.step (held s.queue) (init_calls s.queue size shared pipe2 memory) =
        some (held (init s size shared pipe2 memory).1.queue) ∧
      Paired (init s size shared pipe2 memory).1.queue := by
  by_cases hopen : 0 ≤ s.queue.read_fd ∨ 0 ≤ s.queue.write_fd
  · rw [init_calls.eq_def, init.eq_def, if_pos hopen, if_pos hopen]
    exact ⟨rfl, h⟩
  obtain ⟨hread, hwrite⟩ := not_or.mp hopen
  have hbuf : s.queue.m_ring_buffer.m_buffer = none := by
    rcases h with hboth | ⟨-, -, hbuf⟩
    · exact absurd hboth.1 hread
    · exact hbuf
  cases pipe2 with
  | none =>
      simp only [init_calls, init, if_neg hopen]
      exact ⟨rfl, h⟩
  | some fds =>
      obtain ⟨rfd, wfd⟩ := fds
      have hset : (s.queue.m_ring_buffer.set_shared shared).m_buffer = none := by
        rw [set_shared, if_neg (by rw [hbuf]; exact Bool.false_ne_true)]
        exact hbuf
      have hstart : held s.queue = ⟨(s.queue.m_ring_buffer.set_shared shared).block, []⟩ := by
        rw [held_of_closed (not_le.mp hread) (not_le.mp hwrite), block_set_shared]
      simp only [init_calls, init, if_neg hopen]
      generalize s.queue.m_ring_buffer.set_shared shared = ring at *
      have halloc := exec_alloc_calls hset [(rfd : Int), (wfd : Int)] size memory
      have hpiped : Resource.step ⟨ring.block, []⟩ (.pipe2 (some (rfd, wfd))) =
          some ⟨ring.block, [(rfd : Int), (wfd : Int)]⟩ := rfl
      rw [hstart, Machine.exec_cons, hpiped, Option.bind_some, Machine.exec_append, halloc,
        Option.bind_some]
      let got : SharedQueue := ⟨rfd, wfd, (ring.ring_buffer_alloc size memory).1⟩
      have hends : 0 ≤ got.read_fd ∧ 0 ≤ got.write_fd := ⟨Int.natCast_nonneg rfd, Int.natCast_nonneg wfd⟩
      by_cases hgot : (ring.ring_buffer_alloc size memory).2 = 0
      · rw [if_pos hgot, if_pos hgot]
        have hclosed := exec_close_calls (q := got) (.inl hends)
        rw [held_of_open hends.1 hends.2] at hclosed
        refine ⟨?_, .inr ⟨neg_one_neg, neg_one_neg, alloc_fails_block hset hgot⟩⟩
        rw [held_of_closed neg_one_neg neg_one_neg]
        exact hclosed
      · rw [if_neg hgot, if_neg hgot]
        refine ⟨?_, .inl hends⟩
        rw [held_of_open hends.1 hends.2]
        rfl

-- A transfer leaves what the queue holds.
theorem transfer_keeps {ring : RingBuffer} (hblock : ring.block = q.m_ring_buffer.block)
    (h : Paired q) : held { q with m_ring_buffer := ring } = held q ∧
      Paired { q with m_ring_buffer := ring } := by
  refine ⟨by rw [held, held, hblock], ?_⟩
  rcases h with hopen | ⟨hread, hwrite, hbuf⟩
  · exact .inl hopen
  · refine .inr ⟨hread, hwrite, ?_⟩
    have hnone : q.m_ring_buffer.block = none := by rw [block, hbuf]; rfl
    rw [hnone, block] at hblock
    split_ifs at hblock with hsome
    exact Option.not_isSome_iff_eq_none.mp hsome

theorem read_keeps {dst filled : List UInt8} {size : ULong} {clear_notify : Bool} {ret : Int}
    (h : Paired s.queue) (hcall : read s dst size clear_notify = some (next, filled, ret)) :
    held next.queue = held s.queue ∧ Paired next.queue := by
  unfold read at hcall
  by_cases hshort : s.queue.get_readable_size < size
  · rw [if_pos hshort] at hcall
    cases hcall
    exact ⟨rfl, h⟩
  · rw [if_neg hshort] at hcall
    obtain ⟨⟨ring, buf, n⟩, hring, heq⟩ := Option.bind_eq_some_iff.mp hcall
    have hkept := transfer_keeps (block_read hring) h
    dsimp only at heq
    split_ifs at heq
    · cases heq
      exact hkept
    · cases heq
      rw [clear_queue]
      exact hkept
    · cases heq
      exact hkept

theorem write_keeps {src : List UInt8} {size : ULong} {write_notify : Bool} {ret : Int}
    (h : Paired s.queue) (hcall : write cap s src size write_notify = some (next, ret)) :
    held next.queue = held s.queue ∧ Paired next.queue := by
  unfold write at hcall
  by_cases hshort : s.queue.get_writeable_size < size
  · rw [if_pos hshort] at hcall
    cases hcall
    exact ⟨rfl, h⟩
  · rw [if_neg hshort] at hcall
    obtain ⟨⟨ring, n⟩, hring, heq⟩ := Option.bind_eq_some_iff.mp hcall
    have hkept := transfer_keeps (block_write hring) h
    dsimp only at heq
    split_ifs at heq
    · cases heq
      exact hkept
    · cases heq
      rw [notify_queue]
      exact hkept
    · cases heq
      exact hkept

theorem Owned.Sound.step (h : o.Sound) {r : Request} {final : Owned}
    (hstep : o.step cap r = some final) : final.Sound := by
  obtain ⟨next, hrequest, rfl⟩ := Option.map_eq_some_iff.mp hstep
  have hcalls (calls : List Resource)
      (hmore : Machine.exec Resource.step (held o.polled.queue) calls = some (held next.queue)) :
      Machine.exec Resource.step Resource.idle (o.calls ++ calls) = some (held next.queue) :=
    Machine.exec_append_eq_some.mpr ⟨_, h.calls, hmore⟩
  cases r with
  | init size shared pipe2 memory =>
      obtain rfl := Option.some.inj hrequest
      obtain ⟨hexec, hpaired⟩ := exec_init_calls h.paired size shared pipe2 memory
      exact ⟨hcalls _ hexec, hpaired⟩
  | uninit =>
      obtain rfl := Option.some.inj hrequest
      exact ⟨hcalls _ (exec_uninit_calls h.paired), .inr ⟨neg_one_neg, neg_one_neg, rfl⟩⟩
  | read dst clear_notify =>
      obtain ⟨⟨s, filled, ret⟩, hread, rfl⟩ := Option.map_eq_some_iff.mp hrequest
      obtain ⟨hheld, hpaired⟩ := read_keeps h.paired hread
      exact ⟨hcalls [] (congrArg some hheld.symm), hpaired⟩
  | write src write_notify =>
      obtain ⟨⟨s, ret⟩, hwrite, rfl⟩ := Option.map_eq_some_iff.mp hrequest
      obtain ⟨hheld, hpaired⟩ := write_keeps h.paired hwrite
      exact ⟨hcalls [] (congrArg some hheld.symm), hpaired⟩

end

end IgLibs.SharedQueue
