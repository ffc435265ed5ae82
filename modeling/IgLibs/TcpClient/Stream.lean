import IgLibs.TcpClient
import IgLibs.Machine

namespace IgLibs.TcpClient

open Word CMemory Circular

-- The part of the peer's byte stream that has been taken from the socket.
def received (calls : List Syscall) : List UInt8 :=
  calls.flatMap fun
    | .recv _ bytes => bytes
    | _ => []

-- Answers of recv(2) that let the loop go on.
def Fragments (answers : List (Answer (List UInt8))) : Prop :=
  ∀ answer ∈ answers, answer = .error .EINTR ∨ ∃ data, answer = .ok data ∧ data ≠ []

def bytes_of (answers : List (Answer (List UInt8))) : List UInt8 :=
  answers.flatMap fun
    | .ok data => data
    | .error _ => []

-- The receive timeout falls between two fragments of the message.
def TimesOutMidway (len : Nat) (answers : List (Answer (List UInt8))) : Prop :=
  ∃ before e rest, answers = before ++ .error e :: rest ∧ (e = .EAGAIN ∨ e = .EWOULDBLOCK) ∧
    Fragments before ∧ bytes_of before ≠ [] ∧ (bytes_of before).length < len

-- The kernel delivers the whole message.
def Completes (len : Nat) (answers : List (Answer (List UInt8))) : Prop :=
  ∃ before data rest, answers = before ++ .ok data :: rest ∧ Fragments before ∧
    (bytes_of before).length < len ∧ (bytes_of before).length + data.length = len

section

variable {c next : TcpClient} {len : ULong} {bytes filled taken : List UInt8}
  {answers : List (Answer (List UInt8))} {exit : Exit}

theorem take_splice (bytes taken data : List UInt8) (htaken : bytes.take taken.length = taken) :
    (splice bytes taken.length data).take (taken.length + data.length) = taken ++ data := by
  unfold splice
  rw [htaken, List.take_append_of_le_length (by simp), List.take_of_length_le (by simp)]

-- What the loop has done when it has taken `taken` of a message.
structure Progress (c : TcpClient) (bytes taken : List UInt8) (c' : TcpClient)
    (bytes' more : List UInt8) : Prop where
  m_fd : c'.m_fd = c.m_fd
  stream : received c'.calls = received c.calls ++ more
  buffer : bytes'.take (taken ++ more).length = taken ++ more
  length : bytes'.length = bytes.length

theorem Progress.refl (htaken : bytes.take taken.length = taken) :
    Progress c bytes taken c bytes [] :=
  ⟨rfl, by simp, by simpa using htaken, rfl⟩

theorem Progress.fragment (htaken : bytes.take taken.length = taken) (data : List UInt8)
    (hfit : taken.length + data.length ≤ bytes.length) :
    Progress c bytes taken (c.record [.recv c.m_fd data]) (splice bytes taken.length data) data := by
  refine ⟨rfl, ?_, ?_, ?_⟩
  · simp [record, received]
  · rw [List.length_append]
    exact take_splice bytes taken data htaken
  · exact length_splice bytes taken.length data hfit

theorem Progress.trans {c' c'' : TcpClient} {bytes' bytes'' more more' : List UInt8}
    (h : Progress c bytes taken c' bytes' more)
    (h' : Progress c' bytes' (taken ++ more) c'' bytes'' more') :
    Progress c bytes taken c'' bytes'' (more ++ more') := by
  refine ⟨h'.m_fd.trans h.m_fd, ?_, ?_, h'.length.trans h.length⟩
  · rw [h'.stream, h.stream, List.append_assoc]
  · rw [← List.append_assoc]
    exact h'.buffer

-- The loop runs over fragments and interruptions.
theorem recv_loop_fragments (c : TcpClient) (before rest : List (Answer (List UInt8)))
    (hbefore : Fragments before)
    (htaken : bytes.take taken.length = taken) (hfit : len.toNat ≤ bytes.length)
    (hlt : taken.length + (bytes_of before).length < len.toNat) :
    ∃ c' bytes', Progress c bytes taken c' bytes' (bytes_of before) ∧
      c.recv_loop len bytes taken.length (before ++ rest) =
        c'.recv_loop len bytes' (taken ++ bytes_of before).length rest := by
  induction before generalizing c bytes taken with
  | nil => exact ⟨c, bytes, Progress.refl htaken, by simp [bytes_of]⟩
  | cons answer before ih =>
      have hrest : Fragments before := fun a hmem => hbefore a (List.mem_cons_of_mem _ hmem)
      rcases hbefore answer (by simp) with rfl | ⟨data, rfl, hdata⟩
      · obtain ⟨c', bytes', hprogress, hcall⟩ := ih c hrest htaken hfit hlt
        refine ⟨c', bytes', hprogress, ?_⟩
        rw [List.cons_append, recv_loop]
        simp only [reduceCtorEq, or_self, ite_false, ite_true]
        exact hcall
      · have hbytes : bytes_of (.ok data :: before) = data ++ bytes_of before := rfl
        rw [hbytes, List.length_append] at hlt
        have hstep : Progress c bytes taken _ _ data :=
          Progress.fragment htaken data (by omega)
        obtain ⟨c', bytes', hprogress, hcall⟩ :=
          ih (c.record [.recv c.m_fd data]) hrest hstep.buffer
            (by rw [hstep.length]; exact hfit) (by rw [List.length_append]; omega)
        refine ⟨c', bytes', hstep.trans hprogress, ?_⟩
        rw [List.cons_append, recv_loop, if_neg hdata, if_neg (by omega)]
        have hmore : ¬len.toNat ≤ taken.length + data.length := by omega
        simp only [hmore, ite_false]
        rw [hbytes, ← List.append_assoc, ← List.length_append]
        exact hcall

-- An answer that ends the loop.
def Last (len got : Nat) : Answer (List UInt8) → Prop
  | .error e => e ≠ .EINTR
  | .ok data => data = [] ∨ got + data.length = len

-- A call that returns has met an answer that ends it behind some fragments.
theorem recv_loop_decompose (c : TcpClient) {got : Nat} {result : TcpClient × List UInt8 × Exit}
    (hgot : got < len.toNat) (hcall : c.recv_loop len bytes got answers = some result) :
    ∃ before last rest, answers = before ++ last :: rest ∧ Fragments before ∧
      got + (bytes_of before).length < len.toNat ∧
      Last len.toNat (got + (bytes_of before).length) last := by
  induction answers generalizing c bytes got with
  | nil => cases hcall
  | cons answer rest ih =>
      have hnil : Fragments [] := fun _ hmem => by cases hmem
      cases answer with
      | error e =>
          by_cases hintr : e = .EINTR
          · subst hintr
            rw [recv_loop] at hcall
            simp only [reduceCtorEq, or_self, ite_false, ite_true] at hcall
            obtain ⟨before, last, rest', rfl, hbefore, hlt, hlast⟩ := ih c hgot hcall
            refine ⟨.error .EINTR :: before, last, rest', rfl, ?_, hlt, hlast⟩
            intro a hmem
            rcases List.mem_cons.mp hmem with rfl | hmem
            · exact .inl rfl
            · exact hbefore a hmem
          · exact ⟨[], _, rest, rfl, hnil, by simpa [bytes_of] using hgot, hintr⟩
      | ok data =>
          by_cases hend : data = []
          · exact ⟨[], _, rest, rfl, hnil, by simpa [bytes_of] using hgot, .inl hend⟩
          rw [recv_loop, if_neg hend] at hcall
          by_cases htoo : len.toNat - got < data.length
          · rw [if_pos htoo] at hcall
            cases hcall
          rw [if_neg htoo] at hcall
          by_cases hdone : len.toNat ≤ got + data.length
          · refine ⟨[], _, rest, rfl, hnil, by simpa [bytes_of] using hgot, .inr ?_⟩
            simp only [bytes_of, List.flatMap_nil, List.length_nil]
            omega
          · simp only [hdone, ite_false] at hcall
            obtain ⟨before, last, rest', rfl, hbefore, hlt, hlast⟩ := ih _ (by omega) hcall
            have hbytes : bytes_of (.ok data :: before) = data ++ bytes_of before := rfl
            refine ⟨.ok data :: before, last, rest', rfl, ?_, ?_, ?_⟩
            · intro a hmem
              rcases List.mem_cons.mp hmem with rfl | hmem
              · exact .inr ⟨data, rfl, hend⟩
              · exact hbefore a hmem
            · rw [hbytes, List.length_append]
              omega
            · rw [hbytes, List.length_append, ← Nat.add_assoc]
              exact hlast

theorem recv_fragments (dst : Span) (before rest : List (Answer (List UInt8)))
    (hopen : 0 ≤ c.m_fd) (hbefore : Fragments before)
    (hlt : (bytes_of before).length < dst.len.toNat) :
    ∃ c' bytes', Progress c dst.bytes [] c' bytes' (bytes_of before) ∧
      c.recv (some dst) (before ++ rest) =
        c'.recv_loop dst.len bytes' (bytes_of before).length rest := by
  have hvalid : ¬(c.m_fd < 0 ∨ dst.len = 0) := by
    rintro (hneg | hzero)
    · omega
    · rw [hzero] at hlt
      exact absurd hlt (Nat.not_lt_zero _)
  simp only [recv, hvalid, ite_false]
  exact recv_loop_fragments c before rest hbefore (by simp) dst.fits (by simpa using hlt)

-- The three ways in which a call that met fragments of less than the message returns.
theorem recv_timeout (dst : Span) {before rest : List (Answer (List UInt8))} {e : Errno}
    (hopen : 0 ≤ c.m_fd) (he : e = .EAGAIN ∨ e = .EWOULDBLOCK) (hbefore : Fragments before)
    (hlt : (bytes_of before).length < dst.len.toNat) :
    ∃ next filled, c.recv (some dst) (before ++ .error e :: rest) = some (next, filled, .timeout) ∧
      next.m_fd = c.m_fd ∧ received next.calls = received c.calls ++ bytes_of before := by
  obtain ⟨c', bytes', hprogress, hcall⟩ := recv_fragments dst before (.error e :: rest) hopen hbefore hlt
  refine ⟨c', bytes', ?_, hprogress.m_fd, hprogress.stream⟩
  rw [hcall, recv_loop, if_pos he]

theorem recv_done (dst : Span) {before rest : List (Answer (List UInt8))} {data : List UInt8}
    (hopen : 0 ≤ c.m_fd) (hbefore : Fragments before)
    (hlt : (bytes_of before).length < dst.len.toNat)
    (hlen : (bytes_of before).length + data.length = dst.len.toNat) :
    ∃ next filled, c.recv (some dst) (before ++ .ok data :: rest) =
        some (next, filled, .done dst.len.toNat) ∧
      next.m_fd = c.m_fd ∧ filled.take dst.len.toNat = bytes_of before ++ data ∧
      received next.calls = received c.calls ++ (bytes_of before ++ data) := by
  obtain ⟨c', bytes', hprogress, hcall⟩ := recv_fragments dst before (.ok data :: rest) hopen hbefore hlt
  have hbuffer : bytes'.take (bytes_of before).length = bytes_of before := hprogress.buffer
  have hdata : data ≠ [] := by
    rintro rfl
    simp only [List.length_nil] at hlen
    omega
  have hlast : Progress c' bytes' (bytes_of before) _ _ data :=
    Progress.fragment hbuffer data (by rw [hprogress.length]; have := dst.fits; omega)
  have hall := hprogress.trans hlast
  refine ⟨c'.record [.recv c'.m_fd data], splice bytes' (bytes_of before).length data, ?_,
    hall.m_fd, ?_, hall.stream⟩
  · rw [hcall, recv_loop, if_neg hdata, if_neg (by omega)]
    simp only [hlen, Nat.le_refl, ite_true]
  · have hfinal := hlast.buffer
    rw [List.length_append, hlen] at hfinal
    exact hfinal

theorem recv_failed (dst : Span) {before rest : List (Answer (List UInt8))}
    {last : Answer (List UInt8)} (hopen : 0 ≤ c.m_fd) (hbefore : Fragments before)
    (hlt : (bytes_of before).length < dst.len.toNat)
    (hlast : last = .ok [] ∨ last = .error .other) :
    ∃ next filled, c.recv (some dst) (before ++ last :: rest) = some (next, filled, .error) ∧
      next.m_fd = -1 := by
  obtain ⟨c', bytes', hprogress, hcall⟩ := recv_fragments dst before (last :: rest) hopen hbefore hlt
  have hclose : c'.close.m_fd = -1 := by
    have hfd : 0 ≤ c'.m_fd := hprogress.m_fd ▸ hopen
    simp only [close, hfd, ite_true]
  refine ⟨c'.close, bytes', ?_, hclose⟩
  rcases hlast with rfl | rfl
  · rw [hcall, recv_loop, if_pos rfl]
  · rw [hcall, recv_loop, if_neg (by decide), if_neg (by decide)]

theorem exit_of_timesOutMidway {dst : Span} (hopen : 0 ≤ c.m_fd)
    (hcall : c.recv (some dst) answers = some (next, filled, exit))
    (h : TimesOutMidway dst.len.toNat answers) :
    exit = .timeout ∧ received next.calls ≠ received c.calls := by
  obtain ⟨before, e, rest, rfl, he, hbefore, hne, hlt⟩ := h
  obtain ⟨other, filled', hother, _, hstream⟩ := recv_timeout dst hopen he hbefore hlt
  cases hcall.symm.trans hother
  refine ⟨rfl, fun hsame => hne ?_⟩
  rw [hstream] at hsame
  simpa using hsame

theorem exit_of_completes {dst : Span} (hopen : 0 ≤ c.m_fd)
    (hcall : c.recv (some dst) answers = some (next, filled, exit))
    (h : Completes dst.len.toNat answers) : exit = .done dst.len.toNat := by
  obtain ⟨before, data, rest, rfl, hbefore, hlt, hlen⟩ := h
  obtain ⟨_, _, hother, _⟩ := recv_done dst hopen hbefore hlt hlen
  cases hcall.symm.trans hother
  rfl

-- How a call of non-zero length on an open connection returns, by its answers.
theorem recv_cases {dst : Span} (hopen : 0 ≤ c.m_fd) (hlen : dst.len ≠ 0)
    (hcall : c.recv (some dst) answers = some (next, filled, exit)) :
    (exit = .error ∧ next.m_fd = -1) ∨
      (exit = .timeout ∧ next.m_fd = c.m_fd ∧
        (TimesOutMidway dst.len.toNat answers ∨ received next.calls = received c.calls)) ∨
      exit = .done dst.len.toNat ∧ next.m_fd = c.m_fd ∧ filled.take dst.len.toNat ≠ [] ∧
        received next.calls = received c.calls ++ filled.take dst.len.toNat ∧
        Completes dst.len.toNat answers := by
  have hvalid : ¬(c.m_fd < 0 ∨ dst.len = 0) := not_or.mpr ⟨by omega, hlen⟩
  have hpos : 0 < dst.len.toNat := by
    rcases Nat.eq_zero_or_pos dst.len.toNat with hzero | hpos
    · exact absurd (BitVec.eq_of_toNat_eq hzero) hlen
    · exact hpos
  have hloop := hcall
  simp only [recv, hvalid, ite_false] at hloop
  obtain ⟨before, last, rest, rfl, hbefore, hlt, hlast⟩ := recv_loop_decompose c hpos hloop
  rw [Nat.zero_add] at hlt hlast
  cases last with
  | error e =>
      by_cases hagain : e = .EAGAIN ∨ e = .EWOULDBLOCK
      · obtain ⟨_, _, hother, hfd, hstream⟩ := recv_timeout dst hopen hagain hbefore hlt
        cases hcall.symm.trans hother
        refine .inr (.inl ⟨rfl, hfd, ?_⟩)
        by_cases hempty : bytes_of before = []
        · exact .inr (by rw [hstream, hempty, List.append_nil])
        · exact .inl ⟨before, e, rest, rfl, hagain, hbefore, hempty, hlt⟩
      · have he : e = .other := by
          cases e with
          | EAGAIN => exact absurd (.inl rfl) hagain
          | EWOULDBLOCK => exact absurd (.inr rfl) hagain
          | EINTR => exact absurd rfl hlast
          | other => rfl
        obtain ⟨_, _, hother, hfd⟩ :=
          recv_failed dst hopen hbefore hlt (.inr (congrArg Except.error he))
        cases hcall.symm.trans hother
        exact .inl ⟨rfl, hfd⟩
  | ok data =>
      rcases hlast with rfl | hsum
      · obtain ⟨_, _, hother, hfd⟩ := recv_failed dst hopen hbefore hlt (.inl rfl)
        cases hcall.symm.trans hother
        exact .inl ⟨rfl, hfd⟩
      · obtain ⟨_, _, hother, hfd, hfilled, hstream⟩ :=
          recv_done dst hopen hbefore hlt hsum
        cases hcall.symm.trans hother
        refine .inr (.inr ⟨rfl, hfd, ?_, ?_, before, data, rest, rfl, hbefore, hlt, hsum⟩)
        · intro hempty
          have hlength := congrArg List.length (hfilled.symm.trans hempty)
          rw [List.length_append, List.length_nil] at hlength
          omega
        · rw [hfilled, hstream]

end

-- A call of recv with a buffer of non-zero length, and the answers to its system calls.
structure Call where
  dst : Span
  nonzero : dst.len ≠ 0
  answers : List (Answer (List UInt8))

-- A client whose owner appends the buffer of each successful call to what it has so far.
structure Reader where
  client : TcpClient
  delivered : List UInt8

def Reader.step (r : Reader) (call : Call) : Option Reader := do
  let (client, filled, exit) ← r.client.recv (some call.dst) call.answers
  some ⟨client, if 0 < exit.value then r.delivered ++ filled.take call.dst.len.toNat
    else r.delivered⟩

-- No timeout falls behind a fragment, and a full length is positive as an int.
def WholeMessages (r : Reader) (call : Call) : Prop :=
  0 ≤ r.client.m_fd → ¬TimesOutMidway call.dst.len.toNat call.answers ∧
    (Completes call.dst.len.toNat call.answers → 0 < toInt32 call.dst.len.toNat)

-- While the connection is open, everything taken from it has been delivered.
def InStep (start : TcpClient) (r : Reader) : Prop :=
  0 ≤ r.client.m_fd → received r.client.calls = received start.calls ++ r.delivered

section

variable {start : TcpClient} {r next : Reader} {call : Call}

theorem Reader.step_eq_some : r.step call = some next ↔
    ∃ filled exit, r.client.recv (some call.dst) call.answers = some (next.client, filled, exit) ∧
      next.delivered = if 0 < exit.value then r.delivered ++ filled.take call.dst.len.toNat
        else r.delivered := by
  unfold Reader.step
  constructor
  · intro h
    obtain ⟨⟨client, filled, exit⟩, hcall, hnext⟩ := Option.bind_eq_some_iff.mp h
    cases hnext
    exact ⟨filled, exit, hcall, rfl⟩
  · rintro ⟨filled, exit, hcall, hdelivered⟩
    refine Option.bind_eq_some_iff.mpr ⟨_, hcall, ?_⟩
    exact congrArg some (by cases next; simp_all)

theorem recv_closed {dst : Span} {c : TcpClient} {answers : List (Answer (List UInt8))}
    (hclosed : c.m_fd < 0) : c.recv (some dst) answers = some (c, dst.bytes, .error) := by
  simp only [recv, hclosed, true_or, ite_true]

-- A call keeps the reader in step exactly when it meets the condition.
theorem step_inStep_iff (hgood : InStep start r)
    (hstep : r.step call = some next) : InStep start next ↔ WholeMessages r call := by
  obtain ⟨filled, exit, hcall, hdelivered⟩ := Reader.step_eq_some.mp hstep
  by_cases hopen : 0 ≤ r.client.m_fd
  · have hsync := hgood hopen
    have hwhole : WholeMessages r call ↔ ¬TimesOutMidway call.dst.len.toNat call.answers ∧
        (Completes call.dst.len.toNat call.answers → 0 < toInt32 call.dst.len.toNat) :=
      ⟨fun h => h hopen, fun h _ => h⟩
    rw [hwhole]
    rcases recv_cases hopen call.nonzero hcall with
      ⟨rfl, hfd⟩ | ⟨rfl, hfd, hhow⟩ | ⟨rfl, hfd, hne, hstream, hcompletes⟩
    · refine iff_of_true (fun h => absurd h (by rw [hfd]; decide)) ⟨fun h => ?_, fun h => ?_⟩
      · cases (exit_of_timesOutMidway hopen hcall h).1
      · cases exit_of_completes hopen hcall h
    · have hsame : next.delivered = r.delivered := hdelivered
      have hincomplete : ¬Completes call.dst.len.toNat call.answers := fun h => by
        cases exit_of_completes hopen hcall h
      unfold InStep
      rw [hfd, hsame, ← hsync]
      constructor
      · intro hstill
        refine ⟨fun h => ?_, fun h => absurd h hincomplete⟩
        exact (exit_of_timesOutMidway hopen hcall h).2 (hstill hopen)
      · rintro ⟨hwhole, _⟩ _
        rcases hhow with hmidway | hsame
        · exact absurd hmidway hwhole
        · exact hsame
    · have hnot : ¬TimesOutMidway call.dst.len.toNat call.answers := fun h => by
        cases (exit_of_timesOutMidway hopen hcall h).1
      have hvalue : (Exit.done call.dst.len.toNat).value = toInt32 call.dst.len.toNat := rfl
      rw [hvalue] at hdelivered
      unfold InStep
      rw [hfd, hstream, hsync, hdelivered]
      constructor
      · intro hstill
        refine ⟨hnot, fun _ => ?_⟩
        by_contra hneg
        have heq := hstill hopen
        rw [if_neg hneg] at heq
        exact hne (by simpa using heq)
      · rintro ⟨_, hpos⟩ _
        rw [if_pos (hpos hcompletes), List.append_assoc]
  · rw [recv_closed (by omega)] at hcall
    refine iff_of_true (fun h => ?_) fun h => absurd h hopen
    simp only [Option.some.injEq, Prod.mk.injEq] at hcall
    rw [← hcall.1] at h
    exact absurd h hopen

theorem wholeMessages_of_none (hnone : r.step call = none) : WholeMessages r call := by
  have hcall : r.client.recv (some call.dst) call.answers = none := by
    cases hrecv : r.client.recv (some call.dst) call.answers with
    | none => rfl
    | some result => simp [Reader.step, hrecv] at hnone
  intro hopen
  constructor
  · rintro ⟨before, e, rest, hanswers, he, hbefore, _, hlt⟩
    obtain ⟨_, _, hother, _⟩ := recv_timeout call.dst hopen he hbefore hlt
    rw [hanswers, hother] at hcall
    cases hcall
  · rintro ⟨before, data, rest, hanswers, hbefore, hlt, hlen⟩
    obtain ⟨_, _, hother, _⟩ := recv_done call.dst hopen hbefore hlt hlen
    rw [hanswers, hother] at hcall
    cases hcall

theorem timeout_takes_nothing {client : TcpClient} {filled : List UInt8} {exit : Exit}
    (hopen : 0 ≤ r.client.m_fd) (hwhole : WholeMessages r call)
    (hcall : r.client.recv (some call.dst) call.answers = some (client, filled, exit))
    (hexit : exit.value = TC_TIMEOUT) : received client.calls = received r.client.calls := by
  obtain ⟨hmidway, hlength⟩ := hwhole hopen
  rcases recv_cases hopen call.nonzero hcall with
    ⟨rfl, _⟩ | ⟨_, _, hhow⟩ | ⟨rfl, _, _, _, hcompletes⟩
  · cases hexit
  · rcases hhow with h | hsame
    · exact absurd h hmidway
    · exact hsame
  · have hpos := hlength hcompletes
    have hzero : toInt32 call.dst.len.toNat = 0 := hexit
    omega

end

-- The successful calls deliver all that has been taken from an open connection exactly when
-- no timeout falls between two fragments and no full length turns into a non-positive int.
-- Then a call that returns TC_TIMEOUT has taken nothing.
theorem reader_in_step_iff (start : TcpClient) (calls : List Call) :
    (Machine.Meets Reader.step WholeMessages ⟨start, []⟩ calls ↔
      ∀ first final, first <+: calls → Machine.exec Reader.step ⟨start, []⟩ first = some final →
        InStep start final) ∧
    (Machine.Meets Reader.step WholeMessages ⟨start, []⟩ calls →
      ∀ first call r client filled exit, first ++ [call] <+: calls →
        Machine.exec Reader.step ⟨start, []⟩ first = some r → 0 ≤ r.client.m_fd →
        r.client.recv (some call.dst) call.answers = some (client, filled, exit) →
        exit.value = TC_TIMEOUT → received client.calls = received r.client.calls) := by
  constructor
  · refine Machine.meets_iff_forall_prefix (fun _ => True) (InStep start)
      (fun _ _ _ _ _ => trivial) (fun _ _ _ _ hgood hstep => step_inStep_iff hgood hstep)
      (fun _ _ hnone => wholeMessages_of_none hnone) trivial ?_
    intro _
    exact (List.append_nil _).symm
  · rintro hmeets first call r client filled exit ⟨rest, rfl⟩ hrun hopen hcall hexit
    rw [List.append_assoc] at hmeets
    have hwhole := ((Machine.meets_append.mp hmeets).2 r hrun).1
    exact timeout_takes_nothing hopen hwhole hcall hexit

-- One byte of a message of two, then the timeout.
theorem fragment_lost :
    ∃ r, Machine.exec Reader.step ⟨⟨3, [], [49], [], 80, 0, []⟩, []⟩
        [⟨⟨[0, 0], 2, by decide⟩, by decide, [.ok [7], .error .EAGAIN]⟩] = some r ∧
      r.client.m_fd = 3 ∧ received r.client.calls = [7] ∧ r.delivered = [] :=
  ⟨_, rfl, rfl, rfl, rfl⟩

end IgLibs.TcpClient
