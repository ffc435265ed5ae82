import IgLibs.SharedQueue.Theorems
import IgLibs.Machine

namespace IgLibs.SharedQueue

open Word CMemory RingBuffer

-- A queue with the sizes of the messages put and not yet taken, oldest first.
structure Traffic where
  polled : Polled
  pending : List Nat

inductive Op
  | put (src : Span)
  | take (dst : Span)

-- A message is put by one write and taken by one read of its size, in order.
def Traffic.step (cap : Nat) (t : Traffic) : Op → Option Traffic
  | .put src => do
      let (polled, ret) ← write cap t.polled src.bytes src.len true
      some ⟨polled, if ret = -1 then t.pending else t.pending ++ [src.len.toNat]⟩
  | .take dst =>
      match t.pending with
      | [] => none
      | size :: rest =>
          if dst.len.toNat = size then do
            let (polled, _, ret) ← read t.polled dst.bytes dst.len true
            some ⟨polled, if ret = -1 then size :: rest else rest⟩
          else none

-- A reader that polls get_read_fd() is awake whenever there are bytes to read.
def Traffic.Awake (t : Traffic) : Prop :=
  0 < t.polled.queue.get_readable_size.toNat → 0 < t.polled.pipe

-- A write that the ring accepts finds room in the pipe for its token.
def TokenFits (cap : Nat) (t : Traffic) : Op → Prop
  | .put src =>
      0 < src.len.toNat → src.len.toNat ≤ t.polled.queue.get_writeable_size.toNat →
        t.polled.pipe < cap
  | .take _ => True

def Op.isTake : Op → Prop
  | .put _ => False
  | .take _ => True

-- `lost` tokens are missing from the pipe.
structure Counted (cap lost : Nat) (t : Traffic) : Prop where
  ring : ∃ mem queue, Represents t.polled.queue.m_ring_buffer mem queue ∧
    t.pending.sum = queue.length
  positive : ∀ size ∈ t.pending, 0 < size
  read_fd : 0 ≤ t.polled.queue.read_fd
  write_fd : 0 ≤ t.polled.queue.write_fd
  tokens : t.polled.pipe + lost = t.pending.length
  bound : t.polled.pipe ≤ cap

section

variable {cap lost : Nat} {t next : Traffic}

theorem Counted.readable (h : Counted cap lost t) :
    t.polled.queue.get_readable_size.toNat = t.pending.sum := by
  obtain ⟨mem, queue, hrep, hsum⟩ := h.ring
  rw [hsum]
  exact hrep.readable

theorem Counted.readable_pos_iff (h : Counted cap lost t) :
    0 < t.polled.queue.get_readable_size.toNat ↔ t.pending ≠ [] := by
  rw [h.readable]
  have hpos := h.positive
  cases ht : t.pending with
  | nil => simp
  | cons size rest =>
      rw [ht] at hpos
      have := hpos size (by simp)
      simp only [List.sum_cons, ne_eq, reduceCtorEq, not_false_eq_true, iff_true]
      omega

theorem Counted.awake (h : Counted cap 0 t) : t.Awake := by
  intro hpos
  have hne := h.readable_pos_iff.mp hpos
  have htok := h.tokens
  have := List.length_pos_iff.mpr hne
  omega

-- A put keeps the count, or loses its token in a full pipe.
theorem Counted.put (h : Counted cap lost t) (src : Span) :
    ∃ next, t.step cap (.put src) = some next ∧
      (TokenFits cap t (.put src) → Counted cap lost next) ∧
      (¬TokenFits cap t (.put src) → Counted cap (lost + 1) next ∧ next.polled.pipe = cap) := by
  obtain ⟨mem, queue, hrep, hsum⟩ := h.ring
  have hfree := get_writeable_size_eq t.polled.queue hrep
  rcases write_spec hrep cap src with ⟨hno, hcall⟩ | ⟨hpos, hle, ring, mem', ret, hring, -, hret, hcall⟩
  · refine ⟨t, by simp [Traffic.step, hcall], fun _ => h, fun hfits => ?_⟩
    exact absurd (fun hpos hle => by omega) hfits
  · let polled : Polled := { t.polled with queue := { t.polled.queue with m_ring_buffer := ring } }
    have hlen : (src.bytes.take src.len.toNat).length = src.len.toNat := by
      have := src.fits
      rw [List.length_take]
      omega
    have hnext : ∃ mem'' queue', Represents ring mem'' queue' ∧
        (t.pending ++ [src.len.toNat]).sum = queue'.length :=
      ⟨mem', _, hring, by rw [List.sum_append, List.length_append, hlen, hsum]; simp⟩
    have hpositive : ∀ size ∈ t.pending ++ [src.len.toNat], 0 < size := by
      intro size hsize
      rcases List.mem_append.mp hsize with hold | hnew
      · exact h.positive size hold
      · exact List.mem_singleton.mp hnew ▸ hpos
    have htok := h.tokens
    have hbound := h.bound
    refine ⟨⟨notify cap polled, t.pending ++ [src.len.toNat]⟩, ?_, ?_, ?_⟩
    · simp only [Traffic.step, hcall, Option.bind_eq_bind, Option.bind_some, hret, ite_false, polled]
    · intro hfits
      have hroom : t.polled.pipe < cap := hfits hpos (by omega)
      have hnotify : notify cap polled = { polled with pipe := t.polled.pipe + 1 } := by
        simp only [notify, polled, h.write_fd, hroom, and_self, ite_true]
      rw [hnotify]
      exact ⟨hnext, hpositive, h.read_fd, h.write_fd, by simp; omega, hroom⟩
    · intro hfits
      have hfull : t.polled.pipe = cap := by
        have : ¬t.polled.pipe < cap := fun hroom => hfits fun _ _ => hroom
        omega
      have hnotify : notify cap polled = polled := by
        simp only [notify, polled, hfull, Nat.lt_irrefl, and_false, ite_false]
      rw [hnotify]
      exact ⟨⟨hnext, hpositive, h.read_fd, h.write_fd, by simp [polled]; omega, hbound⟩, hfull⟩

-- A take of the oldest message always succeeds and uses up one token if there is one.
theorem Counted.take (h : Counted cap lost t) {size : Nat} {rest : List Nat}
    (hp : t.pending = size :: rest) (dst : Span) (hdst : dst.len.toNat = size)
    (htok : 0 < t.polled.pipe) :
    ∃ next, t.step cap (.take dst) = some next ∧ Counted cap lost next ∧
      next.pending = rest ∧ next.polled.pipe + 1 = t.polled.pipe := by
  obtain ⟨mem, queue, hrep, hsum⟩ := h.ring
  have hpositive := h.positive
  have htokens := h.tokens
  have hbound := h.bound
  rw [hp] at hsum hpositive htokens
  rw [List.sum_cons] at hsum
  have hpos := hpositive size (by simp)
  obtain ⟨ring, ret, hring, hret, hcall⟩ := read_spec hrep dst (by omega) (by omega)
  let polled : Polled :=
    ⟨{ t.polled.queue with m_ring_buffer := ring }, t.polled.pipe - 1⟩
  have hclear : clear { t.polled with queue := { t.polled.queue with m_ring_buffer := ring } } =
      polled := by
    simp only [clear, h.read_fd, ite_true, polled]
  rw [hclear] at hcall
  refine ⟨⟨polled, rest⟩, ?_, ⟨⟨mem, _, hring, ?_⟩, ?_, h.read_fd, h.write_fd, ?_, ?_⟩, rfl, ?_⟩
  · simp only [Traffic.step, hp, hdst, ite_true, hcall, Option.bind_eq_bind, Option.bind_some, hret,
      ite_false]
  · rw [List.length_drop]
    change rest.sum = queue.length - dst.len.toNat
    omega
  · exact fun size hsize => hpositive size (List.mem_cons_of_mem _ hsize)
  · simp only [polled, List.length_cons] at htokens ⊢
    omega
  · simp only [polled]
    omega
  · simp only [polled]
    omega

-- One step that meets the condition keeps one token for each message.
theorem Counted.step (h : Counted cap 0 t) {op : Op} (hfits : TokenFits cap t op)
    (hstep : t.step cap op = some next) : Counted cap 0 next := by
  cases op with
  | put src =>
      obtain ⟨next', hnext, hkeep, -⟩ := h.put src
      exact Option.some.inj (hnext.symm.trans hstep) ▸ hkeep hfits
  | take dst =>
      cases hp : t.pending with
      | nil => simp [Traffic.step, hp] at hstep
      | cons size rest =>
          have htok := h.tokens
          rw [hp, List.length_cons] at htok
          by_cases hdst : dst.len.toNat = size
          · obtain ⟨next', hnext, hkeep, -⟩ := h.take hp dst hdst (by omega)
            exact Option.some.inj (hnext.symm.trans hstep) ▸ hkeep
          · simp [Traffic.step, hp, hdst] at hstep

theorem Counted.size_lt (h : Counted cap lost t) {size : Nat} {rest : List Nat}
    (hp : t.pending = size :: rest) : size < 2 ^ 64 := by
  obtain ⟨mem, queue, hrep, hsum⟩ := h.ring
  rw [hp, List.sum_cons] at hsum
  have hroom := hrep.room
  have hlt := t.polled.queue.m_ring_buffer.m_size.isLt
  omega

-- Taking messages empties the pipe while the messages without a token stay behind.
theorem Counted.drain (h : Counted cap (lost + 1) t) :
    ∃ takes final, (∀ op ∈ takes, op.isTake) ∧
      Machine.exec (Traffic.step cap) t takes = some final ∧
      Counted cap (lost + 1) final ∧ final.polled.pipe = 0 := by
  induction hn : t.polled.pipe generalizing t with
  | zero => exact ⟨[], t, by simp, rfl, h, hn⟩
  | succ n ih =>
      have htok := h.tokens
      cases hp : t.pending with
      | nil => simp [hp] at htok
      | cons size rest =>
          have hlt := h.size_lt hp
          have hlen : (BitVec.ofNat 64 size).toNat = size := Nat.mod_eq_of_lt hlt
          let dst : Span := ⟨List.replicate size 0, BitVec.ofNat 64 size, by simp [hlen]⟩
          obtain ⟨next, hnext, hkeep, -, hpipe⟩ := h.take hp dst hlen (by omega)
          obtain ⟨takes, final, htakes, hrun, hfinal, hempty⟩ := ih hkeep (by omega)
          refine ⟨.take dst :: takes, final, ?_, ?_, hfinal, hempty⟩
          · intro op hop
            rcases List.mem_cons.mp hop with rfl | hop
            · trivial
            · exact htakes op hop
          · exact Machine.exec_cons_eq_some.mpr ⟨next, hnext, hrun⟩

theorem Counted.not_awake (h : Counted cap (lost + 1) t) (hempty : t.polled.pipe = 0) :
    ¬t.Awake := by
  intro hawake
  have htok := h.tokens
  have hne : t.pending ≠ [] := by
    intro he
    simp [he] at htok
  have := hawake (h.readable_pos_iff.mpr hne)
  omega

-- A token that does not fit is missed later: some further takes put the reader to sleep.
theorem Counted.meets_of_awake (h : Counted cap 0 t) (ops : List Op)
    (hawake : ∀ first takes final, first <+: ops → (∀ op ∈ takes, op.isTake) →
      Machine.exec (Traffic.step cap) t (first ++ takes) = some final → final.Awake) :
    Machine.Meets (Traffic.step cap) (TokenFits cap) t ops := by
  induction ops generalizing t with
  | nil => trivial
  | cons op rest ih =>
      have hfits : TokenFits cap t op := by
        cases op with
        | take dst => trivial
        | put src =>
            by_contra hno
            obtain ⟨next, hnext, -, hlose⟩ := h.put src
            obtain ⟨takes, final, htakes, hrun, hfinal, hempty⟩ := (hlose hno).1.drain
            refine hfinal.not_awake hempty (hawake [.put src] takes final ?_ htakes ?_)
            · exact ⟨rest, rfl⟩
            · exact Machine.exec_cons_eq_some.mpr ⟨next, hnext, hrun⟩
      refine ⟨hfits, fun next hnext => ih (h.step hfits hnext) ?_⟩
      intro first takes final hfirst htakes hrun
      refine hawake (op :: first) takes final ?_ htakes ?_
      · exact List.cons_prefix_cons.mpr ⟨rfl, hfirst⟩
      · exact Machine.exec_cons_eq_some.mpr ⟨next, hnext, hrun⟩

end

-- No reader is left asleep, in the run or when it goes on taking messages, exactly when
-- every accepted write finds room in the pipe for its token.
theorem awake_iff_tokens_fit (cap : Nat) (s : Polled) (size : ULong) (shared : Bool)
    (pipe2 : Option (Nat × Nat)) (memory : Option (Nat → UInt8))
    (hinit : (init s size shared pipe2 memory).2 = 0) (ops : List Op) :
    Machine.Meets (Traffic.step cap) (TokenFits cap)
        ⟨(init s size shared pipe2 memory).1, []⟩ ops ↔
      ∀ first takes final, first <+: ops → (∀ op ∈ takes, op.isTake) →
        Machine.exec (Traffic.step cap) ⟨(init s size shared pipe2 memory).1, []⟩
          (first ++ takes) = some final → final.Awake := by
  obtain ⟨mem, hrep, hpipe, hread, hwrite⟩ := init_spec s size shared pipe2 memory hinit
  generalize (init s size shared pipe2 memory).1 = opened at *
  have hstart : Counted cap 0 ⟨opened, []⟩ :=
    ⟨⟨mem, [], hrep, rfl⟩, by simp, hread, hwrite, by simp [hpipe], by simp [hpipe]⟩
  refine ⟨?_, hstart.meets_of_awake ops⟩
  rintro hmeets first takes final ⟨rest, rfl⟩ htakes hrun
  have hfirst := (Machine.meets_append.mp hmeets).1
  have hrest : ∀ middle, Machine.exec (Traffic.step cap) ⟨opened, []⟩ first = some middle →
      Machine.Meets (Traffic.step cap) (TokenFits cap) middle takes := by
    intro middle _
    refine Machine.meets_of_forall (fun op hop state => ?_) middle
    cases op with
    | put src => exact (htakes _ hop).elim
    | take dst => trivial
  have hinv := Machine.exec_invariant_of_meets (Counted cap 0)
    (fun _ _ _ hinv hok hstep => hinv.step hok hstep) hstart
    (Machine.meets_append.mpr ⟨hfirst, hrest⟩) hrun
  exact hinv.awake

theorem awake_iff_tokens_fit_one_byte :
    Machine.Meets (Traffic.step 1) (TokenFits 1)
        ⟨(init ⟨new, 0⟩ 2 false (some (3, 4)) (some fun _ => 0)).1, []⟩
        [.put ⟨[7], 1, by decide⟩, .take ⟨[0], 1, by decide⟩] ↔
      ∀ first takes final, first <+: [.put ⟨[7], 1, by decide⟩, .take ⟨[0], 1, by decide⟩] →
        (∀ op ∈ takes, op.isTake) →
        Machine.exec (Traffic.step 1)
          ⟨(init ⟨new, 0⟩ 2 false (some (3, 4)) (some fun _ => 0)).1, []⟩
          (first ++ takes) = some final → final.Awake :=
  awake_iff_tokens_fit 1 ⟨new, 0⟩ 2 false (some (3, 4)) (some fun _ => 0) (by decide) _

-- Two messages of one byte each through a pipe of one byte.
theorem second_token_lost :
    ∃ final, Machine.exec (Traffic.step 1)
        ⟨(init ⟨new, 0⟩ 2 false (some (3, 4)) (some fun _ => 0)).1, []⟩
        [.put ⟨[7], 1, by decide⟩, .put ⟨[8], 1, by decide⟩, .take ⟨[0], 1, by decide⟩] =
          some final ∧
      0 < final.polled.queue.get_readable_size.toNat ∧ final.polled.pipe = 0 :=
  ⟨_, rfl, by decide, by decide⟩

end IgLibs.SharedQueue
