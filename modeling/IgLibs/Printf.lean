import IgLibs.CString

namespace IgLibs.Printf

open CString

def digit (n : Nat) : UInt8 := UInt8.ofNat (48 + n % 10)

-- Decimal digits from the last one on, in front of those that are there.
def push_digits : Nat → Nat → List UInt8 → List UInt8
  | 0, _, digits => digits
  | fuel + 1, n, digits =>
      if n < 10 then digit n :: digits else push_digits fuel (n / 10) (digit n :: digits)

def digits (n : Nat) : List UInt8 := push_digits (n + 1) n []

-- %d and %ld
def signed (i : Int) : List UInt8 := if i < 0 then 45 :: digits i.natAbs else digits i.toNat

-- %0wd
def zero_padded (width : Nat) (i : Int) : List UInt8 :=
  if i < 0 then
    45 :: (List.replicate (width - 1 - (digits i.natAbs).length) 48 ++ digits i.natAbs)
  else List.replicate (width - (digits i.toNat).length) 48 ++ digits i.toNat

-- %-ws
def left_aligned (width : Nat) (s : List UInt8) : List UInt8 :=
  s ++ List.replicate (width - s.length) 32

-- What snprintf leaves in an array of a size, without the NUL.
def snprintf (size : Nat) (text : List UInt8) : List UInt8 := text.take (size - 1)

theorem toNat_digit (n : Nat) : (digit n).toNat = 48 + n % 10 := by
  have hlt := Nat.mod_lt n (Nat.zero_lt_succ 9)
  rw [digit, UInt8.toNat_ofNat']
  omega

theorem isdigit_digit (n : Nat) : isdigit (digit n) = true := by
  have hvalue := toNat_digit n
  have hlt := Nat.mod_lt n (Nat.zero_lt_succ 9)
  have hlo : (48 : UInt8) ≤ digit n := by
    rw [UInt8.le_iff_toNat_le, hvalue]
    exact Nat.le_add_right 48 _
  have hhi : digit n ≤ 57 := by
    rw [UInt8.le_iff_toNat_le, hvalue]
    change 48 + n % 10 ≤ 57
    omega
  simp [isdigit, hlo, hhi]

theorem push_digits_append (fuel n : Nat) (tail : List UInt8) :
    push_digits fuel n tail = push_digits fuel n [] ++ tail := by
  induction fuel generalizing n tail with
  | zero => rfl
  | succ fuel ih =>
      rw [push_digits, push_digits]
      split
      · rfl
      · rw [ih, ih (n / 10) [digit n], List.append_assoc]
        rfl

theorem push_digits_fuel {fuel fuel' n : Nat} (h : n < fuel) (h' : n < fuel') (tail : List UInt8) :
    push_digits fuel n tail = push_digits fuel' n tail := by
  induction fuel generalizing fuel' n tail with
  | zero => omega
  | succ fuel ih =>
      cases fuel' with
      | zero => omega
      | succ fuel' =>
          rw [push_digits, push_digits]
          split
          · rfl
          · exact ih (by omega) (by omega) _

theorem digits_of_lt {n : Nat} (h : n < 10) : digits n = [digit n] := by
  rw [digits, push_digits, if_pos h]

theorem digits_of_le {n : Nat} (h : 10 ≤ n) : digits n = digits (n / 10) ++ [digit n] := by
  rw [digits, push_digits, if_neg (by omega), push_digits_append, digits]
  rw [push_digits_fuel (by omega : n / 10 < n) (Nat.lt_succ_self (n / 10))]

theorem length_digits_pos (n : Nat) : 0 < (digits n).length := by
  by_cases hsmall : n < 10
  · rw [digits_of_lt hsmall]
    exact Nat.one_pos
  · rw [digits_of_le (by omega), List.length_append, List.length_singleton]
    omega

theorem decimal_concat (text : List UInt8) (b : UInt8) :
    decimal (text ++ [b]) = 10 * decimal text + (b.toNat - 48) := by
  rw [decimal, List.foldl_append]
  rfl

-- The digits of a number spell it.
theorem decimal_push_digits {fuel n : Nat} (hfuel : n < fuel) :
    decimal (push_digits fuel n []) = n := by
  induction fuel generalizing n with
  | zero => omega
  | succ fuel ih =>
      rw [push_digits]
      have hdigit := toNat_digit n
      split
      · rename_i hsmall
        have hone : decimal [digit n] = (digit n).toNat - 48 := by
          rw [decimal, List.foldl_cons, List.foldl_nil, Nat.mul_zero, Nat.zero_add]
        rw [hone, hdigit]
        omega
      · rw [push_digits_append, decimal_concat, ih (by omega), hdigit]
        omega

@[simp] theorem decimal_digits (n : Nat) : decimal (digits n) = n :=
  decimal_push_digits (Nat.lt_succ_self n)

theorem isdigit_of_mem_digits {n : Nat} {b : UInt8} (h : b ∈ digits n) : isdigit b = true := by
  have hall : ∀ fuel n, ∀ b ∈ push_digits fuel n [], isdigit b = true := by
    intro fuel
    induction fuel with
    | zero => exact fun _ _ hmem => absurd hmem List.not_mem_nil
    | succ fuel ih =>
        intro n b hmem
        rw [push_digits] at hmem
        split at hmem
        · rw [List.mem_singleton.mp hmem]
          exact isdigit_digit n
        · rw [push_digits_append] at hmem
          rcases List.mem_append.mp hmem with hmem | hmem
          · exact ih _ b hmem
          · rw [List.mem_singleton.mp hmem]
            exact isdigit_digit n
  exact hall _ _ b h

theorem length_digits_le {n width : Nat} (hwidth : 0 < width) (hlt : n < 10 ^ width) :
    (digits n).length ≤ width := by
  have hall : ∀ fuel n width, 0 < width → n < 10 ^ width → n < fuel →
      (push_digits fuel n []).length ≤ width := by
    intro fuel
    induction fuel with
    | zero => exact fun _ _ _ _ h => absurd h (Nat.not_lt_zero _)
    | succ fuel ih =>
        intro n width hwidth hlt hfuel
        rw [push_digits]
        split
        · exact hwidth
        · rename_i hbig
          have htwo : 2 ≤ width := by
            by_contra hone
            have hw : width = 1 := by omega
            rw [hw] at hlt
            omega
          have hpow : 10 ^ width = 10 ^ (width - 1) * 10 := by
            rw [← Nat.pow_succ]
            congr 1
            omega
          have hrest := ih (n / 10) (width - 1) (by omega)
            (Nat.div_lt_of_lt_mul (by omega)) (by omega)
          rw [push_digits_append, List.length_append, List.length_singleton]
          omega
  exact hall (n + 1) n width hwidth hlt (Nat.lt_succ_self n)

theorem decimal_replicate_append (count : Nat) (text : List UInt8) :
    decimal (List.replicate count 48 ++ text) = decimal text := by
  induction count with
  | zero => rfl
  | succ count ih => exact ih

-- A number that fits its field fills it.
theorem length_zero_padded {width : Nat} {i : Int} (hwidth : 0 < width) (hlo : 0 ≤ i)
    (hhi : i < 10 ^ width) : (zero_padded width i).length = width := by
  have hnat : i.toNat < 10 ^ width := by
    rw [← Int.toNat_of_nonneg hlo] at hhi
    exact_mod_cast hhi
  have hle := length_digits_le hwidth hnat
  rw [zero_padded, if_neg (by omega), List.length_append, List.length_replicate]
  omega

theorem decimal_zero_padded {width : Nat} {i : Int} (hlo : 0 ≤ i) :
    (decimal (zero_padded width i) : Int) = i := by
  rw [zero_padded, if_neg (by omega), decimal_replicate_append, decimal_digits]
  omega

theorem isdigit_of_mem_zero_padded {width i : Nat} {b : UInt8} (h : b ∈ zero_padded width i) : isdigit b = true := by
  rw [zero_padded, if_neg (by omega)] at h
  rcases List.mem_append.mp h with h | h
  · rw [List.eq_of_mem_replicate h]
    rfl
  · exact isdigit_of_mem_digits h

theorem toNat_of_isdigit {b : UInt8} (h : isdigit b = true) : 48 ≤ b.toNat ∧ b.toNat ≤ 57 := by
  obtain ⟨hlo, hhi⟩ := Bool.and_eq_true_iff.mp h
  exact ⟨UInt8.le_iff_toNat_le.mp (of_decide_eq_true hlo),
    UInt8.le_iff_toNat_le.mp (of_decide_eq_true hhi)⟩

-- Digits in front outweigh those behind them.
theorem decimal_from_lt {a b : List UInt8} (ha : ∀ c ∈ a, isdigit c = true)
    (hb : ∀ c ∈ b, isdigit c = true) (hlength : a.length = b.length) {n m : Nat} (h : n < m) :
    a.foldl (fun n b => 10 * n + (b.toNat - 48)) n < b.foldl (fun n b => 10 * n + (b.toNat - 48)) m := by
  induction a generalizing b n m with
  | nil =>
      obtain rfl := List.eq_nil_of_length_eq_zero hlength.symm
      exact h
  | cons c a ih =>
      cases b with
      | nil => cases hlength
      | cons d b =>
          rw [List.forall_mem_cons] at ha hb
          have hc := toNat_of_isdigit ha.1
          have hfront : 10 * n + (c.toNat - 48) < 10 * m + (d.toNat - 48) := by omega
          exact ih ha.2 hb.2 (Nat.succ.inj hlength) hfront

-- Texts of as many digits are in the order of the numbers that they spell.
theorem append_lt_of_decimal_lt {a b : List UInt8} (ha : ∀ c ∈ a, isdigit c = true)
    (hb : ∀ c ∈ b, isdigit c = true) (hlength : a.length = b.length)
    (h : decimal a < decimal b) (rest rest' : List UInt8) : a ++ rest < b ++ rest' := by
  have hall : ∀ n, a.foldl (fun n b => 10 * n + (b.toNat - 48)) n <
      b.foldl (fun n b => 10 * n + (b.toNat - 48)) n → a ++ rest < b ++ rest' := by
    clear h
    induction a generalizing b with
    | nil =>
        intro n h
        obtain rfl := List.eq_nil_of_length_eq_zero hlength.symm
        exact absurd h (Nat.lt_irrefl _)
    | cons c a ih =>
        intro n h
        cases b with
        | nil => cases hlength
        | cons d b =>
            rw [List.forall_mem_cons] at ha hb
            have hrest := Nat.succ.inj hlength
            have hc := toNat_of_isdigit ha.1
            have hd := toNat_of_isdigit hb.1
            rw [List.cons_append, List.cons_append, List.cons_lt_cons_iff]
            rcases Nat.lt_trichotomy c.toNat d.toNat with hlt | heq | hgt
            · exact .inl (UInt8.lt_iff_toNat_lt.mpr hlt)
            · obtain rfl := UInt8.toNat_inj.mp heq
              exact .inr ⟨rfl, ih ha.2 hb.2 hrest _ h⟩
            · have hfront : 10 * n + (d.toNat - 48) < 10 * n + (c.toNat - 48) := by omega
              exact absurd h (Nat.lt_asymm (decimal_from_lt hb.2 ha.2 hrest.symm hfront))
  exact hall 0 h

theorem zero_padded_lt {width i j : Nat} (hwidth : 0 < width) (hj : j < 10 ^ width) (h : i < j)
    (rest rest' : List UInt8) : zero_padded width i ++ rest < zero_padded width j ++ rest' := by
  have hlength : ∀ {n : Nat}, n < 10 ^ width → (zero_padded width n).length = width :=
    fun hn => length_zero_padded hwidth (Int.natCast_nonneg _) (by exact_mod_cast hn)
  have hdecimal : ∀ n : Nat, decimal (zero_padded width n) = n :=
    fun n => by exact_mod_cast decimal_zero_padded (Int.natCast_nonneg n)
  apply append_lt_of_decimal_lt
  · exact fun _ hmem => isdigit_of_mem_zero_padded hmem
  · exact fun _ hmem => isdigit_of_mem_zero_padded hmem
  · rw [hlength (Nat.lt_trans h hj), hlength hj]
  · rw [hdecimal, hdecimal]
    exact h

end IgLibs.Printf
