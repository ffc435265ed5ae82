import IgLibs.TcpClient.Stream

namespace IgLibs.TcpClient

open Word CMemory

-- Answers of send(2) that let the loop go on.
def Pieces (answers : List (Answer Nat)) : Prop :=
  ∀ answer ∈ answers, answer = .error .EINTR ∨ ∃ r, answer = .ok r

def taken_by (answers : List (Answer Nat)) : Nat :=
  (answers.map fun
    | .ok r => r
    | .error _ => 0).sum

-- The kernel takes the whole message.
def Transfers (len : Nat) (answers : List (Answer Nat)) : Prop :=
  ∃ before r rest, answers = before ++ .ok r :: rest ∧ Pieces before ∧
    taken_by before < len ∧ taken_by before + r = len

-- A caller can tell by the value alone that all was transferred.
structure Tells (value : Int) (len : Nat) : Prop where
  all : value = len
  positive : 0 < value
  no_timeout : value ≠ TC_TIMEOUT
  no_error : value ≠ TC_ERROR

section

variable {c : TcpClient} {buf : Span} {answers : List (Answer Nat)}

theorem send_loop_pieces {before : List (Answer Nat)} (hbefore : Pieces before)
    (rest : List (Answer Nat)) (c : TcpClient) {sent_bytes : Nat}
    (hlt : sent_bytes + taken_by before < buf.len.toNat) :
    ∃ c' : TcpClient, c.send_loop buf sent_bytes (before ++ rest) =
      c'.send_loop buf (sent_bytes + taken_by before) rest := by
  induction before generalizing c sent_bytes with
  | nil => exact ⟨c, rfl⟩
  | cons answer before ih =>
      have hmore : Pieces before := fun a hmem => hbefore a (List.mem_cons_of_mem _ hmem)
      rcases hbefore answer List.mem_cons_self with rfl | ⟨r, rfl⟩
      · have hsame : taken_by (.error .EINTR :: before) = taken_by before := Nat.zero_add _
        rw [hsame] at hlt ⊢
        obtain ⟨c', hcall⟩ := ih hmore c hlt
        refine ⟨c', ?_⟩
        rw [List.cons_append, send_loop]
        simp only [reduceCtorEq, or_self, false_and, ite_false, ite_true]
        exact hcall
      · have hsum : taken_by (.ok r :: before) = r + taken_by before := rfl
        rw [hsum, ← Nat.add_assoc] at hlt ⊢
        have hroom : ¬buf.len.toNat - sent_bytes < r := by omega
        have hopen : ¬buf.len.toNat ≤ sent_bytes + r := by omega
        obtain ⟨c', hcall⟩ :=
          ih hmore (c.record [.send c.m_fd ((buf.bytes.drop sent_bytes).take r)]) hlt
        refine ⟨c', ?_⟩
        rw [List.cons_append, send_loop, if_neg hroom]
        simp only [hopen, ite_false]
        exact hcall

theorem send_done (hopen : 0 ≤ c.m_fd) (h : Transfers buf.len.toNat answers) :
    ∃ next, c.send (some buf) answers = some (next, .done buf.len.toNat) := by
  obtain ⟨before, r, rest, rfl, hbefore, hlt, hlen⟩ := h
  have hvalid : ¬(c.m_fd < 0 ∨ buf.len = 0) := by
    rintro (hneg | hzero)
    · omega
    · rw [hzero] at hlt
      exact absurd hlt (Nat.not_lt_zero _)
  have hstart : 0 + taken_by before < buf.len.toNat := by omega
  obtain ⟨c', hcall⟩ := send_loop_pieces hbefore (.ok r :: rest) c hstart
  have hroom : ¬buf.len.toNat - taken_by before < r := by omega
  refine ⟨c'.record [.send c'.m_fd ((buf.bytes.drop (taken_by before)).take r)], ?_⟩
  simp only [send, hvalid, ite_false]
  rw [hcall, Nat.zero_add, send_loop, if_neg hroom]
  simp only [hlen, Nat.le_refl, ite_true]

-- An int holds the lengths below 2^31 and no other.
theorem tells_iff {len : Nat} (hpos : 0 < len) :
    Tells (Exit.done len).value len ↔ len < 2 ^ 31 := by
  constructor
  · intro h
    have hrange : toInt32 len < 2 ^ 31 := Int.bmod_lt (by decide)
    have hall : toInt32 len = len := h.all
    omega
  · intro hlt
    have hvalue : (Exit.done len).value = len := toInt32_of_lt (by omega) (by omega)
    rw [hvalue]
    exact ⟨rfl, by omega, show (len : Int) ≠ 0 by omega, show (len : Int) ≠ -1 by omega⟩

end

-- Whatever pieces the kernel transfers a whole message in, the value that send and recv return
-- for it tells so exactly if the length fits an int.
theorem whole_transfer_tells_iff {c : TcpClient} (hopen : 0 ≤ c.m_fd) (buf : Span) :
    (∀ answers, Transfers buf.len.toNat answers →
      ∃ next exit, c.send (some buf) answers = some (next, exit) ∧
        (Tells exit.value buf.len.toNat ↔ buf.len.toNat < 2 ^ 31)) ∧
    ∀ answers, Completes buf.len.toNat answers →
      ∃ next filled exit, c.recv (some buf) answers = some (next, filled, exit) ∧
        (Tells exit.value buf.len.toNat ↔ buf.len.toNat < 2 ^ 31) := by
  constructor
  · intro answers h
    obtain ⟨next, hcall⟩ := send_done hopen h
    obtain ⟨before, r, rest, -, -, hlt, -⟩ := h
    exact ⟨next, _, hcall, tells_iff (Nat.zero_lt_of_lt hlt)⟩
  · rintro answers ⟨before, data, rest, rfl, hbefore, hlt, hlen⟩
    obtain ⟨next, filled, hcall, -⟩ := recv_done buf hopen hbefore hlt hlen
    exact ⟨next, filled, _, hcall, tells_iff (Nat.zero_lt_of_lt hlt)⟩

-- Two bytes in two pieces, with an interruption in between.
theorem whole_transfer_tells_iff_two :
    let c : TcpClient := { new with m_fd := 3 }
    let buf : Span := ⟨[7, 8], 2, by decide⟩
    (∃ next exit, c.send (some buf) [.ok 1, .error .EINTR, .ok 1] = some (next, exit) ∧
        Tells exit.value 2) ∧
      ∃ next filled exit, c.recv (some buf) [.error .EINTR, .ok [5], .ok [6]] =
        some (next, filled, exit) ∧ Tells exit.value 2 := by
  intro c buf
  obtain ⟨hsend, hrecv⟩ := @whole_transfer_tells_iff c (by decide) buf
  constructor
  · obtain ⟨next, exit, hcall, htells⟩ := hsend [.ok 1, .error .EINTR, .ok 1]
      ⟨[.ok 1, .error .EINTR], 1, [], rfl, by simp [Pieces], by decide, by decide⟩
    exact ⟨next, exit, hcall, htells.mpr (by decide)⟩
  · obtain ⟨next, filled, exit, hcall, htells⟩ := hrecv [.error .EINTR, .ok [5], .ok [6]]
      ⟨[.error .EINTR, .ok [5]], [6], [], rfl, by simp [Fragments], by decide, by decide⟩
    exact ⟨next, filled, exit, hcall, htells.mpr (by decide)⟩

-- A message of 2^32 bytes goes out in full, and send returns TC_TIMEOUT for it.
theorem whole_transfer_times_out :
    ∃ (buf : Span) (next : TcpClient) (exit : Exit), buf.len.toNat = 2 ^ 32 ∧
      Transfers buf.len.toNat [.ok 2147479552, .ok 2147479552, .ok 8192] ∧
      ({ new with m_fd := 3 } : TcpClient).send (some buf)
        [.ok 2147479552, .ok 2147479552, .ok 8192] = some (next, exit) ∧
      exit.value = TC_TIMEOUT := by
  let buf : Span := ⟨List.replicate (2 ^ 32) 0, 4294967296, by rw [List.length_replicate]; decide⟩
  have htransfers : Transfers buf.len.toNat [.ok 2147479552, .ok 2147479552, .ok 8192] :=
    ⟨[.ok 2147479552, .ok 2147479552], 8192, [], rfl, by simp [Pieces], by decide, by decide⟩
  obtain ⟨next, hcall⟩ := @send_done { new with m_fd := 3 } buf _ (by decide) htransfers
  exact ⟨buf, next, _, rfl, htransfers, hcall, by decide⟩

end IgLibs.TcpClient
