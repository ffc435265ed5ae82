import IgLibs.Word
import Mathlib.Data.List.TakeWhile

namespace IgLibs.CString

-- The bytes that C sees behind the pointer to a string: those before the first NUL.
def c_str (s : List UInt8) : List UInt8 := s.takeWhile (· ≠ 0)

theorem c_str_of_notMem {s : List UInt8} (h : 0 ∉ s) : c_str s = s := by
  apply List.takeWhile_eq_self_iff.mpr
  intro b hmem
  have hne : b ≠ 0 := fun hb => h (hb ▸ hmem)
  simp [hne]

def isspace (b : UInt8) : Bool := b = 32 || (9 ≤ b && b ≤ 13)

def isdigit (b : UInt8) : Bool := 48 ≤ b && b ≤ 57

def decimal (digits : List UInt8) : Nat :=
  digits.foldl (fun n b => 10 * n + (b.toNat - 48)) 0

-- strtol in base ten, with a 64-bit long: it stops at the bounds instead of wrapping.
def strtol (s : List UInt8) : Int :=
  let value : Int := match (c_str s).dropWhile isspace with
    | 45 :: rest => -(decimal (rest.takeWhile isdigit))
    | 43 :: rest => decimal (rest.takeWhile isdigit)
    | rest => decimal (rest.takeWhile isdigit)
  max (-2 ^ 63) (min value (2 ^ 63 - 1))

def atoi (s : List UInt8) : Int := Word.toInt32 (strtol s)

private theorem isdigit_of_nat : ∀ n : Fin 256, isdigit (UInt8.ofFin n) = true →
    isspace (UInt8.ofFin n) = false ∧ UInt8.ofFin n ≠ 45 ∧ UInt8.ofFin n ≠ 43 := by
  decide +kernel

-- A digit is no space and no sign.
theorem isdigit_spec {b : UInt8} (h : isdigit b = true) : isspace b = false ∧ b ≠ 45 ∧ b ≠ 43 :=
  isdigit_of_nat b.toFin h

-- The four bytes of an IPv4 address, in network order.
structure InAddr where
  a : UInt8
  b : UInt8
  c : UInt8
  d : UInt8
deriving DecidableEq

-- A decimal octet without leading zeros.
def octet (s : List UInt8) : Option UInt8 :=
  if s ≠ [] ∧ s.all isdigit ∧ (s.head? = some 48 → s.length = 1) ∧ decimal s ≤ 255 then
    some (UInt8.ofNat (decimal s))
  else none

def octet_text (n : UInt8) : List UInt8 :=
  if n < 10 then [n + 48]
  else if n < 100 then [n / 10 + 48, n % 10 + 48]
  else [n / 100 + 48, n / 10 % 10 + 48, n % 10 + 48]

-- inet_pton and inet_ntop for AF_INET
def inet_pton (s : List UInt8) : Option InAddr :=
  match (c_str s).splitOn 46 with
  | [a, b, c, d] => do some ⟨← octet a, ← octet b, ← octet c, ← octet d⟩
  | _ => none

def inet_ntop (addr : InAddr) : List UInt8 :=
  [46].intercalate [octet_text addr.a, octet_text addr.b, octet_text addr.c, octet_text addr.d]

private theorem octet_of_nat :
    ∀ n : Fin 256, octet (octet_text (UInt8.ofFin n)) = some (UInt8.ofFin n) := by
  decide +kernel

@[simp] theorem octet_octet_text (n : UInt8) : octet (octet_text n) = some n :=
  octet_of_nat n.toFin

private theorem octet_text_of_nat :
    ∀ n : Fin 256, (octet_text (UInt8.ofFin n)).all (fun b => b != 46 && b != 0) = true := by
  decide +kernel

theorem octet_text_ne (n : UInt8) {b : UInt8} (h : b ∈ octet_text n) : b ≠ 46 ∧ b ≠ 0 := by
  have hb := List.all_eq_true.mp (octet_text_of_nat n.toFin) b h
  rwa [Bool.and_eq_true, bne_iff_ne, bne_iff_ne] at hb

theorem zero_notMem_inet_ntop (addr : InAddr) : 0 ∉ inet_ntop addr := by
  intro hmem
  simp only [inet_ntop, List.intercalate, List.intersperse, List.flatten_cons, List.flatten_nil,
    List.mem_append, List.mem_singleton, List.not_mem_nil, or_false] at hmem
  rcases hmem with h | h | h | h | h | h | h
  · exact (octet_text_ne _ h).2 rfl
  · cases h
  · exact (octet_text_ne _ h).2 rfl
  · cases h
  · exact (octet_text_ne _ h).2 rfl
  · cases h
  · exact (octet_text_ne _ h).2 rfl

-- A printed address reads back as the same address.
@[simp] theorem inet_pton_inet_ntop (addr : InAddr) : inet_pton (inet_ntop addr) = some addr := by
  unfold inet_pton
  rw [c_str_of_notMem (zero_notMem_inet_ntop addr), inet_ntop, List.splitOn_intercalate]
  · simp
  · intro text htext hmem
    simp only [List.mem_cons, List.not_mem_nil, or_false] at htext
    rcases htext with rfl | rfl | rfl | rfl
    · exact (octet_text_ne _ hmem).1 rfl
    · exact (octet_text_ne _ hmem).1 rfl
    · exact (octet_text_ne _ hmem).1 rfl
    · exact (octet_text_ne _ hmem).1 rfl
  · simp

end IgLibs.CString
