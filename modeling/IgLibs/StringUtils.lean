import IgLibs.CString

namespace IgLibs.BossCommon

open CString

-- The loop stops at the first NUL, which a std::string may hold in its middle.
def is_all_digit (s : List UInt8) : Bool :=
  if s = [] then false else (c_str s).all isdigit

-- The characters up to the delimiter, which is dropped, or up to the end of the stream.
-- A stream with nothing left fails.
def getline (iss : List UInt8) (delim : UInt8) : Option (List UInt8 × List UInt8) :=
  if iss = [] then none
  else some (iss.takeWhile (· ≠ delim), (iss.dropWhile (· ≠ delim)).tail)

def split_loop (delim : UInt8) : Nat → List UInt8 → List (List UInt8)
  | 0, _ => []
  | fuel + 1, iss => match getline iss delim with
    | none => []
    | some (item, rest) => item :: split_loop delim fuel rest

-- Every getline takes a character at least, so the loop ends within s.length rounds.
def split (s : List UInt8) (delim : UInt8) : List (List UInt8) :=
  split_loop delim s.length s

-- The loop of split, which pushes the items on elems.
def push_items (delim : UInt8) : Nat → List UInt8 → List (List UInt8) → List (List UInt8)
  | 0, _, elems => elems
  | fuel + 1, iss, elems => match getline iss delim with
    | none => elems
    | some (item, rest) => push_items delim fuel rest (elems ++ [item])

-- split as the source has it, with the vector that it clears and fills.
def split_into (s : List UInt8) (delim : UInt8) (elems : List (List UInt8)) : List (List UInt8) :=
  push_items delim s.length s (elems.take 0)

-- string::erase, which throws for a position behind the end.
def erase (s : List UInt8) (pos cnt : Nat) : Option (List UInt8) :=
  if s.length < pos then none else some (s.take pos ++ s.drop (pos + cnt))

-- The first loop of trim. A read past the end of the string has no result, and neither has a
-- loop that runs out of fuel.
def trim_head (s charlist : List UInt8) : Nat → Nat → Option Nat
  | 0, _ => none
  | fuel + 1, cnt =>
      if cnt = s.length then some cnt
      else do
        let c ← s[cnt]?
        if c ∈ charlist then trim_head s charlist fuel (cnt + 1) else some cnt

-- The second loop, from pos down to 0, where it does not look.
def trim_tail (s charlist : List UInt8) : Nat → Nat → Option (Nat × Nat)
  | 0, cnt => some (0, cnt)
  | pos + 1, cnt => do
      let c ← s[pos + 1]?
      if c ∈ charlist then trim_tail s charlist pos (cnt + 1) else some (pos + 1, cnt)

-- The two halves of trim; in between it returns if nothing is left.
def trim_front (s charlist : List UInt8) : Option (List UInt8) := do
  let cnt ← trim_head s charlist (s.length + 1) 0
  if cnt ≠ 0 then erase s 0 cnt else some s

def trim_back (s charlist : List UInt8) : Option (List UInt8) := do
  let (pos, cnt) ← trim_tail s charlist (s.length - 1) 0
  if cnt ≠ 0 then erase s (pos + 1) cnt else some s

def trim (s charlist : List UInt8) : Option (List UInt8) := do
  let s ← trim_front s charlist
  if s = [] then some s else trim_back s charlist

-- What >> makes of the digits it found for a uint32_t, and whether it sets failbit. No digits
-- are 0, a number that does not fit is 2^32 - 1, and a minus sign negates modulo 2^32.
def uint32_of_digits (negative : Bool) (digits : List UInt8) : BitVec 32 × Bool :=
  if digits = [] then (0, true)
  else if 2 ^ 32 ≤ decimal digits then (BitVec.allOnes 32, true)
  else
    let value := BitVec.ofNat 32 (decimal digits)
    (if negative then -value else value, false)

-- ss >> out. A stream with nothing but white space leaves out as it was.
def extract (ss : List UInt8) (out : BitVec 32) : BitVec 32 × Bool :=
  match ss.dropWhile isspace with
  | [] => (out, true)
  | 45 :: rest => uint32_of_digits true (rest.takeWhile isdigit)
  | 43 :: rest => uint32_of_digits false (rest.takeWhile isdigit)
  | rest => uint32_of_digits false (rest.takeWhile isdigit)

-- strtodigit<uint32_t>, which does not look at the state of the stream.
def strtodigit (str : List UInt8) (out : BitVec 32) : BitVec 32 := (extract str out).1

-- What is returned and what out holds then. `none` is the NULL pointer.
def str2int (p_str : Option (List UInt8)) (out : BitVec 32) : Int × BitVec 32 :=
  match p_str with
  | none => (-1, out)
  | some p_str =>
      let str := c_str p_str
      if is_all_digit str then (0, strtodigit str out) else (-1, out)

-- How far the masks of is_utf8 let i jump for a byte that is not ASCII.
def utf8_jump (byte : UInt8) : Option Nat :=
  if byte &&& 0xE0 = 0xC0 then some 2
  else if byte &&& 0xF0 = 0xE0 then some 3
  else if byte &&& 0xF8 = 0xF0 then some 4
  else none

-- The inner loop, which ends at pos = i. A read past the end of the string has no result,
-- and neither has a loop that runs out of fuel.
def is_utf8_tail (s : List UInt8) (i : Nat) : Nat → Nat → Option Bool
  | 0, _ => none
  | fuel + 1, pos =>
      if pos = i then some true
      else do
        let byte ← s[pos]?
        if byte &&& 0xC0 = 0x80 then is_utf8_tail s i fuel (pos + 1) else some false

-- The size of a string is below 2^63, so i + 4 does not overflow.
def is_utf8_loop (s : List UInt8) : Nat → Nat → Option Bool
  | 0, _ => none
  | fuel + 1, i =>
      if i = s.length then some true
      else do
        let byte ← s[i]?
        if byte &&& 0x80 = 0 then is_utf8_loop s fuel (i + 1)
        else match utf8_jump byte with
          | none => some false
          | some jump =>
              if i + jump > s.length then some false
              else if ← is_utf8_tail s (i + jump) fuel (i + 1) then is_utf8_loop s fuel (i + jump)
              else some false

def is_utf8 (fuel : Nat) (s : List UInt8) : Option Bool := is_utf8_loop s fuel 0

end IgLibs.BossCommon
