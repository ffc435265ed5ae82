import IgLibs.TcpClient.Changes
import IgLibs.Ledger

namespace IgLibs.TcpClient

open Word CMemory CString

-- The message that a caller hands to send.
def message (buf : Span) : List UInt8 := buf.bytes.take buf.len.toNat

-- Data goes out again only on a descriptor that has been opened since.
def Reopens (later : List Syscall) : Prop :=
  ∀ first call rest, later = first ++ call :: rest → carries_data call = true →
    ∃ fd, .socket (some fd) ∈ first

-- The answers of send(2) that a call uses: the last one ends it, and the sizes among them are
-- those of the pieces that the kernel took.
def Uses (answers : List (Answer Nat)) (exit : Exit) (sizes : List Nat) : Prop :=
  ∃ before last rest, answers = before ++ last :: rest ∧ Ends exit last ∧
    sizes = (before ++ [last]).filterMap Except.toOption

-- What the loop of send does from an offset on, with the bytes that each send(2) took.
structure Sent (c : TcpClient) (buf : Span) (sent_bytes : Nat) (next : TcpClient) (exit : Exit)
    (taken : List (List UInt8)) : Prop where
  calls : next.calls = c.calls ++ taken.map (.send c.m_fd) ++
    if exit = .error then [.shutdown c.m_fd, .close c.m_fd] else []
  first : taken.flatten <+: (message buf).drop sent_bytes
  done : ∀ len, exit = .done len → len = buf.len.toNat ∧
    taken.flatten = (message buf).drop sent_bytes ∧ next.m_fd = c.m_fd
  timeout : exit = .timeout → sent_bytes = 0 ∧ taken.flatten = [] ∧ next.m_fd = c.m_fd
  error : exit = .error → next.m_fd = -1

section

variable {c next : TcpClient} {buf : Span} {answers : List (Answer Nat)} {exit : Exit}
  {base later : List Syscall}

theorem length_message (buf : Span) : (message buf).length = buf.len.toNat := by
  rw [message, List.length_take, Nat.min_eq_left buf.fits]

theorem close_of_nonneg (hfd : 0 ≤ c.m_fd) :
    c.close.m_fd = -1 ∧ c.close.calls = c.calls ++ [.shutdown c.m_fd, .close c.m_fd] := by
  simp only [close, hfd, ite_true, record, and_self]

-- What the kernel takes at an offset is the next piece of the message.
theorem take_offered {sent_bytes r : Nat} (hr : r ≤ buf.len.toNat - sent_bytes) :
    (buf.bytes.drop sent_bytes).take r = ((message buf).drop sent_bytes).take r := by
  rw [message, List.drop_take, List.take_take, Nat.min_eq_left hr]

theorem Uses.cons {sizes : List Nat} (h : Uses answers exit sizes) (answer : Answer Nat) :
    Uses (answer :: answers) exit ([answer].filterMap Except.toOption ++ sizes) := by
  obtain ⟨before, last, rest, rfl, hends, rfl⟩ := h
  refine ⟨answer :: before, last, rest, rfl, hends, ?_⟩
  rw [← List.filterMap_append]
  rfl

theorem length_piece {sent_bytes r : Nat} (hr : r ≤ buf.len.toNat - sent_bytes) :
    (((message buf).drop sent_bytes).take r).length = r := by
  rw [List.length_take, List.length_drop, length_message, Nat.min_eq_left hr]

-- A piece that the kernel took goes in front of what it takes from there on.
theorem Sent.cons {sent_bytes r : Nat} {taken : List (List UInt8)}
    (hr : r ≤ buf.len.toNat - sent_bytes)
    (h : Sent (c.record [.send c.m_fd (((message buf).drop sent_bytes).take r)]) buf
      (sent_bytes + r) next exit taken) :
    Sent c buf sent_bytes next exit (((message buf).drop sent_bytes).take r :: taken) := by
  have hsplit : ((message buf).drop sent_bytes).take r ++ (message buf).drop (sent_bytes + r) =
      (message buf).drop sent_bytes := by
    rw [← List.drop_drop, List.take_append_drop]
  constructor
  · rw [h.calls]
    simp [record]
  · have hfirst := (List.prefix_append_right_inj (((message buf).drop sent_bytes).take r)).mpr h.first
    rwa [hsplit] at hfirst
  · intro len hexit
    obtain ⟨hlen, hall, hfd⟩ := h.done len hexit
    exact ⟨hlen, by rw [List.flatten_cons, hall, hsplit], hfd⟩
  · intro hexit
    obtain ⟨hzero, hnone, hfd⟩ := h.timeout hexit
    obtain ⟨rfl, rfl⟩ : sent_bytes = 0 ∧ r = 0 := by omega
    exact ⟨rfl, by rw [List.flatten_cons, hnone, List.take_zero, List.append_nil], hfd⟩
  · exact h.error

theorem send_loop_sent {sent_bytes : Nat} (hfd : 0 ≤ c.m_fd)
    (hcall : c.send_loop buf sent_bytes answers = some (next, exit)) :
    ∃ taken, Sent c buf sent_bytes next exit taken ∧
      Uses answers exit (taken.map List.length) := by
  induction answers generalizing c sent_bytes with
  | nil => cases hcall
  | cons answer rest ih =>
      rcases send_loop_cases hcall with
        ⟨hzero, rfl, rfl, e, rfl, hends⟩ | ⟨hrest, rfl⟩ | ⟨rfl, rfl, e, rfl, hends⟩ |
          ⟨r, c', hr, rfl, rfl, hsent⟩
      · exact ⟨[], ⟨by simp, List.nil_prefix, by simp, fun _ => ⟨hzero, rfl, rfl⟩, by simp⟩,
          [], .error e, rest, rfl, hends, rfl⟩
      · obtain ⟨taken, htaken, huses⟩ := ih hfd hrest
        exact ⟨taken, htaken, huses.cons (.error .EINTR)⟩
      · obtain ⟨hclosed, hcalls⟩ := close_of_nonneg hfd
        exact ⟨[], ⟨by simp [hcalls], List.nil_prefix, by simp, by simp, fun _ => hclosed⟩,
          [], .error e, rest, rfl, hends, rfl⟩
      · rw [take_offered hr] at hsent
        rcases hsent with ⟨hdone, rfl, rfl⟩ | hrest
        · have hlen := length_message buf
          have hall : ((message buf).drop (sent_bytes + r)) = [] :=
            List.drop_eq_nil_of_le (by omega)
          let c' := c.record [.send c.m_fd (((message buf).drop sent_bytes).take r)]
          have hend : Sent c' buf (sent_bytes + r) c' (.done buf.len.toNat) [] :=
            ⟨by simp, List.nil_prefix, by simp [hall], by simp, by simp⟩
          refine ⟨_, Sent.cons hr hend, ?_⟩
          rw [List.map_cons, length_piece hr]
          exact ⟨[], .ok r, rest, rfl, trivial, rfl⟩
        · obtain ⟨taken, htaken, huses⟩ := @ih (c.record _) (sent_bytes + r) hfd hrest
          refine ⟨_, Sent.cons hr htaken, ?_⟩
          rw [List.map_cons, length_piece hr]
          exact huses.cons (.ok r)

theorem send_sent (hfd : 0 ≤ c.m_fd) (hlen : buf.len ≠ 0)
    (hcall : c.send (some buf) answers = some (next, exit)) :
    ∃ taken, Sent c buf 0 next exit taken ∧ Uses answers exit (taken.map List.length) := by
  have hvalid : ¬(c.m_fd < 0 ∨ buf.len = 0) := not_or.mpr ⟨by omega, hlen⟩
  simp only [send, hvalid, ite_false] at hcall
  exact send_loop_sent hfd hcall

theorem Reopens.append {more : List Syscall} (h : Reopens later)
    (hmore : ∀ call ∈ more, carries_data call = true → ∃ fd, .socket (some fd) ∈ later) :
    Reopens (later ++ more) := by
  have hledger : Ledger.Admitted
      (fun first call => carries_data call = true → ∃ fd, .socket (some fd) ∈ first) later := h
  apply hledger.append
  rintro first call rest rfl hcall
  obtain ⟨fd, hmem⟩ := hmore call (by simp) hcall
  exact ⟨fd, List.mem_append_left _ hmem⟩

-- Since `base` the client has sent data only behind a new descriptor, and a descriptor that
-- it holds is one that it opened since.
def Guarded (base : List Syscall) (c : TcpClient) : Prop :=
  ∃ later, c.calls = base ++ later ∧ Reopens later ∧
    (0 ≤ c.m_fd → ∃ fd, .socket (some fd) ∈ later)

theorem Guarded.of_closed (hfd : c.m_fd < 0) : Guarded c.calls c := by
  refine ⟨[], by simp, fun first call rest h => ?_, fun h => by omega⟩
  cases first <;> cases h

theorem Guarded.change (h : Guarded base c) (hchange : c.Change next) : Guarded base next := by
  obtain ⟨later, heq, hreopens, hopen⟩ := h
  cases hchange with
  | call call hdata =>
      refine ⟨later ++ [call], by simp [record, heq], hreopens.append ?_, fun hfd => ?_⟩
      · intro other hmem hcall
        obtain rfl := List.mem_singleton.mp hmem
        exact hopen (hdata hcall)
      · obtain ⟨fd, hmem⟩ := hopen hfd
        exact ⟨fd, List.mem_append_left _ hmem⟩
  | opened fd =>
      refine ⟨later ++ [.socket (some fd)], by simp [record, heq], hreopens.append ?_, ?_⟩
      · intro call hmem hcall
        obtain rfl := List.mem_singleton.mp hmem
        cases hcall
      · exact fun _ => ⟨fd, by simp⟩
  | closed => exact ⟨later, heq, hreopens, fun hfd : (0 : Int) ≤ -1 => absurd hfd (by decide)⟩
  | aimed ip => exact ⟨later, heq, hreopens, hopen⟩
  | ported port => exact ⟨later, heq, hreopens, hopen⟩
  | timed timeout => exact ⟨later, heq, hreopens, hopen⟩

theorem Guarded.step (h : Guarded base c) {op : Op} (hstep : c.step op = some next) :
    Guarded base next := by
  have hstored : Guarded base (c.stored op) := by
    cases op <;> exact h
  exact Changes.keeps (Guarded base) (fun _ _ hc hchange => hc.change hchange)
    (step_changes hstep) hstored

theorem Guarded.exec (h : Guarded base c) {ops : List Op}
    (hrun : Machine.exec TcpClient.step c ops = some next) : Guarded base next :=
  Machine.exec_invariant (Guarded base) (fun _ _ _ hs hstep => hs.step hstep) h hrun

end

-- The exits of send, with the bytes that each send(2) took, as many as it answered. A message
-- sent in part leaves a closed client, and whatever the client does next, data goes out only on
-- a new descriptor.
theorem send_all_or_closed {c next : TcpClient} {buf : Span} {answers : List (Answer Nat)}
    {exit : Exit} (hfd : 0 ≤ c.m_fd) (hlen : buf.len ≠ 0)
    (hcall : c.send (some buf) answers = some (next, exit)) :
    ∃ taken : List (List UInt8),
      next.calls = c.calls ++ taken.map (.send c.m_fd) ++
        (if exit = .error then [.shutdown c.m_fd, .close c.m_fd] else []) ∧
      Uses answers exit (taken.map List.length) ∧
      taken.flatten <+: message buf ∧
      (∀ len, exit = .done len →
        len = buf.len.toNat ∧ taken.flatten = message buf ∧ next.m_fd = c.m_fd) ∧
      (exit = .timeout → taken.flatten = [] ∧ next.m_fd = c.m_fd) ∧
      (exit = .error → next.m_fd = -1) ∧
      (taken.flatten ≠ [] → taken.flatten ≠ message buf →
        ∀ ops final, Machine.exec step next ops = some final →
          ∃ later, final.calls = next.calls ++ later ∧ Reopens later) := by
  obtain ⟨taken, hsent, huses⟩ := send_sent hfd hlen hcall
  refine ⟨taken, hsent.calls, huses, by simpa using hsent.first, ?_, ?_, hsent.error, ?_⟩
  · simpa using hsent.done
  · exact fun hexit => (hsent.timeout hexit).2
  · intro hsome hpart ops final hrun
    have hclosed : next.m_fd < 0 := by
      cases exit with
      | error => rw [hsent.error rfl]; decide
      | timeout => exact absurd (hsent.timeout rfl).2.1 hsome
      | done len => exact absurd (by simpa using (hsent.done len rfl).2.1) hpart
    obtain ⟨later, hcalls, hreopens, -⟩ := (Guarded.of_closed hclosed).exec hrun
    exact ⟨later, hcalls, hreopens⟩

-- Two bytes of three go out, then the call times out and closes the socket.
theorem send_all_or_closed_partly :
    ∃ next, ({ new with m_fd := 7 } : TcpClient).send (some ⟨[1, 2, 3], 3, by decide⟩)
        [.error .EINTR, .ok 2, .error .EAGAIN] = some (next, .error) ∧
      next.calls = [.send 7 [1, 2], .shutdown 7, .close 7] ∧ next.m_fd = -1 ∧
      ∃ taken : List (List UInt8), next.calls = taken.map (.send 7) ++ [.shutdown 7, .close 7] ∧
        Uses [.error .EINTR, .ok 2, .error .EAGAIN] .error (taken.map List.length) ∧
        taken.flatten <+: [1, 2, 3] := by
  obtain ⟨next, hcall, hnext⟩ : ∃ next, ({ new with m_fd := 7 } : TcpClient).send
      (some ⟨[1, 2, 3], 3, by decide⟩) [.error .EINTR, .ok 2, .error .EAGAIN] =
        some (next, .error) ∧ next.calls = [.send 7 [1, 2], .shutdown 7, .close 7] := ⟨_, rfl, rfl⟩
  obtain ⟨taken, hcalls, huses, hfirst, -, -, herror, -⟩ :=
    send_all_or_closed (by decide) (by decide) hcall
  exact ⟨next, hcall, hnext, herror rfl, taken, hcalls, huses, hfirst⟩

end IgLibs.TcpClient
