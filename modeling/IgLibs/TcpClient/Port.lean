import IgLibs.TcpClient.Attempts

namespace IgLibs.TcpClient

open Word CString

-- A decimal port number, of any number of digits.
structure ValidPort (port : List UInt8) : Prop where
  nonempty : port ≠ []
  digits : ∀ b ∈ port, isdigit b = true
  bound : decimal port ≤ 65535

section

variable {host port : List UInt8}

theorem c_str_of_digits (h : ∀ b ∈ port, isdigit b = true) : c_str port = port :=
  c_str_of_notMem fun hmem => absurd (h 0 hmem) (by decide)

theorem strtol_of_digits (h : ∀ b ∈ c_str port, isdigit b = true) :
    strtol port = min (decimal (c_str port) : Int) (2 ^ 63 - 1) := by
  unfold strtol
  generalize c_str port = text at *
  cases text with
  | nil => decide
  | cons b rest =>
      obtain ⟨hspace, hminus, hplus⟩ := isdigit_spec (h b (by simp))
      have hall : (b :: rest).takeWhile isdigit = b :: rest :=
        List.takeWhile_eq_self_iff.mpr h
      rw [List.dropWhile_cons_of_neg (by simp [hspace])]
      dsimp only
      split
      · rename_i heq
        exact absurd (List.cons.inj heq).1 hminus
      · rename_i heq
        exact absurd (List.cons.inj heq).1 hplus
      · rw [hall]
        omega

-- What is left of the bound 2^63 - 1 as an int is -1, so only the wrapped value may pass.
theorem atoi_of_digits (h : ∀ b ∈ c_str port, isdigit b = true) :
    (0 ≤ atoi port ∧ atoi port ≤ 65535 ↔
      decimal (c_str port) < 2 ^ 63 - 1 ∧ decimal (c_str port) % 2 ^ 32 ≤ 65535) ∧
    (decimal (c_str port) < 2 ^ 31 → atoi port = decimal (c_str port)) := by
  unfold atoi
  rw [strtol_of_digits h]
  generalize decimal (c_str port) = value
  constructor
  · unfold toInt32
    rw [Int.bmod_def]
    split_ifs <;> omega
  · intro hlt
    rw [min_eq_left (by omega), toInt32_of_lt (by omega) (by omega)]

theorem is_all_digit_iff (hport : port ≠ []) :
    BossCommon.is_all_digit port = true ↔ ∀ b ∈ c_str port, isdigit b = true := by
  rw [BossCommon.is_all_digit, if_neg hport, List.all_eq_true]

-- The checks of connect_host, as conditions on the text of the port.
theorem admitted_iff (hhost : host ≠ []) (hport : port ≠ []) :
    Admitted host port ↔ (∀ b ∈ c_str port, isdigit b = true) ∧
      decimal (c_str port) < 2 ^ 63 - 1 ∧ decimal (c_str port) % 2 ^ 32 ≤ 65535 := by
  have hrejected : ¬Rejected host port ↔ ∀ b ∈ c_str port, isdigit b = true := by
    rw [← is_all_digit_iff hport]
    simp [Rejected, hhost, hport]
  rw [Admitted, hrejected]
  exact and_congr_right fun h => (atoi_of_digits h).1

theorem ValidPort.toNat_ofInt_atoi (h : ValidPort port) :
    (BitVec.ofInt 16 (atoi port)).toNat = decimal port := by
  have hbound := h.bound
  have hdigits : ∀ b ∈ c_str port, isdigit b = true := by
    rw [c_str_of_digits h.digits]
    exact h.digits
  have hvalue := (atoi_of_digits hdigits).2
  rw [c_str_of_digits h.digits] at hvalue
  rw [hvalue (by omega), BitVec.ofInt_natCast, BitVec.toNat_ofNat, Nat.mod_eq_of_lt (by omega)]

end

-- Whatever the addresses, connect(host, port) attempts only connections to the port that its
-- argument spells, unless the argument is no valid port and the C string in front of the first
-- NUL has only digits, with a value below 2^63 - 1 that wraps into the range of a port.
theorem connect_port_iff (host port : List UInt8) :
    (∀ (c : TcpClient) (results : Option (List Resolved)) (later : List Syscall), c.m_fd < 0 →
      (c.connect_to host port results).1.calls = c.calls ++ later →
      ∀ addr port', .connect addr port' ∈ attempts later →
        ValidPort port ∧ port'.toNat = decimal port) ↔
    host = [] ∨ port = [] ∨ ValidPort port ∨ (∃ b ∈ c_str port, isdigit b = false) ∨
      2 ^ 63 - 1 ≤ decimal (c_str port) ∨ 65535 < decimal (c_str port) % 2 ^ 32 := by
  constructor
  · intro h
    by_contra hno
    push Not at hno
    obtain ⟨hhost, hport, hinvalid, hdigits, hlt, hmod⟩ := hno
    have hadmitted : Admitted host port :=
      (admitted_iff hhost hport).mpr ⟨fun b hmem => by simpa using hdigits b hmem, hlt, hmod⟩
    obtain ⟨later, hcalls, hattempts⟩ :=
      @connect_host_attempted { new with m_str_host := host, m_str_port := port }
        (show (-1 : Int) < 0 by decide) (some [accepting])
    rw [if_pos hadmitted, Option.getD_some, tried_accepting] at hattempts
    refine hinvalid (h new (some [accepting]) later (by decide) hcalls
      ⟨127, 0, 0, 1⟩ (BitVec.ofInt 16 (atoi port)) ?_).1
    rw [hattempts]
    simp
  · intro hcond c results later hfd hcalls addr port' hmem
    obtain ⟨later', hcalls', hattempts⟩ :=
      @connect_host_attempted { c with m_str_host := host, m_str_port := port } hfd results
    obtain rfl : later = later' := List.append_cancel_left (hcalls.symm.trans hcalls')
    by_cases hadmitted : Admitted host port
    · rw [if_pos hadmitted] at hattempts
      have hhost : host ≠ [] := fun hnil => hadmitted.1 (.inl hnil)
      have hport : port ≠ [] := fun hnil => hadmitted.1 (.inr (.inl hnil))
      obtain ⟨hdigits, hlt, hmod⟩ := (admitted_iff hhost hport).mp hadmitted
      have hvalid : ValidPort port := by
        rcases hcond with hnil | hnil | hvalid | ⟨b, hb, hnot⟩ | hge | hwrap
        · exact absurd hnil hhost
        · exact absurd hnil hport
        · exact hvalid
        · exact absurd (hdigits b hb) (by simp [hnot])
        · omega
        · omega
      rw [hattempts] at hmem
      obtain rfl : BitVec.ofInt 16 (atoi port) = port' := by
        simp only [List.mem_cons, reduceCtorEq, false_or, List.mem_map, Attempt.connect.injEq] at hmem
        obtain ⟨_, _, _, hport'⟩ := hmem
        exact hport'
      exact ⟨hvalid, hvalid.toNat_ofInt_atoi⟩
    · rw [if_neg hadmitted] at hattempts
      rw [hattempts] at hmem
      cases hmem

-- 4294967376 = 2^32 + 80 connects to port 80.
theorem connect_port_wraps :
    let port : List UInt8 := [52, 50, 57, 52, 57, 54, 55, 51, 55, 54]
    attempts (new.connect_to [104] port (some [accepting])).1.calls =
        [.resolve [104], .connect ⟨127, 0, 0, 1⟩ 80] ∧
      ¬ValidPort port ∧ decimal port = 2 ^ 32 + 80 :=
  ⟨by decide, fun h => absurd h.bound (by decide), by decide⟩

end IgLibs.TcpClient
