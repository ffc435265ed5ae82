import IgLibs.Circular
import IgLibs.Word

namespace IgLibs.CMemory

open IgLibs.Word

-- The memory block behind a pointer; `none` is the NULL pointer.
abbrev Block := Option (List UInt8)

-- `none` is a fault: at least one byte through NULL or outside a block.
def memcpy (dst : Block) (doff : ULong) (src : Block) (soff n : ULong) : Option Block :=
  if n = 0 then some dst
  else match dst, src with
    | some d, some s =>
        if doff.toNat + n.toNat ≤ d.length ∧ soff.toNat + n.toNat ≤ s.length then
          some (some (Circular.splice d doff.toNat ((s.drop soff.toNat).take n.toNat)))
        else none
    | _, _ => none

theorem memcpy_some (dst src : List UInt8) (doff soff n : ULong)
    (hdst : doff.toNat + n.toNat ≤ dst.length) (hsrc : soff.toNat + n.toNat ≤ src.length) :
    memcpy (some dst) doff (some src) soff n =
      some (some (Circular.splice dst doff.toNat ((src.drop soff.toNat).take n.toNat))) := by
  by_cases hn : n = 0
  · simp [memcpy, hn, Circular.splice]
  · rw [memcpy, if_neg hn]
    simp only [hdst, hsrc, and_self, ite_true]

theorem memcpy_zero (dst : Block) (doff : ULong) (src : Block) (soff : ULong) :
    memcpy dst doff src soff 0 = some dst := rfl

-- Through NULL only the empty copy is defined.
theorem memcpy_to_null (src : Block) (doff soff n : ULong) :
    memcpy none doff src soff n = if n = 0 then some none else none := rfl

theorem memcpy_from_null (dst : Block) (doff soff n : ULong) :
    memcpy dst doff none soff n = if n = 0 then some dst else none := by
  cases dst <;> rfl

private theorem toNat_zero64 : (0 : ULong).toNat = 0 := rfl

-- Two copies into a ring, the second one from slot zero on, store `n` items in a row.
theorem memcpy_store_wrap (mem bytes : List UInt8) (pos : Nat) (slot l n : ULong)
    (hslot : slot.toNat = pos % mem.length) (hl : l.toNat = min n.toNat (mem.length - slot.toNat))
    (hpos : 0 < mem.length) (hmem : n.toNat ≤ mem.length) (hbytes : n.toNat ≤ bytes.length) :
    ∃ middle, memcpy (some mem) slot (some bytes) 0 l = some middle ∧
      memcpy middle 0 (some bytes) l (n - l) =
        some (some (Circular.fill mem pos (bytes.take n.toNat))) := by
  have hlt := Nat.mod_lt pos hpos
  have hrest : (n - l).toNat = n.toNat - l.toNat :=
    BitVec.toNat_sub_of_le (by rw [BitVec.le_def]; omega)
  have hitems : (bytes.take n.toNat).length = n.toNat := by rw [List.length_take]; omega
  have hfirst : (bytes.take n.toNat).take l.toNat = bytes.take l.toNat := by
    rw [List.take_take]
    congr 1
    omega
  have hlen := Circular.length_splice mem slot.toNat (bytes.take l.toNat)
    (by rw [List.length_take]; omega)
  have hstore := Circular.splice_wrap_eq_fill mem pos (bytes.take n.toNat) l.toNat
    (by omega) (by omega)
  rw [hfirst, List.drop_take, ← hslot] at hstore
  refine ⟨_, memcpy_some mem bytes slot 0 l (by omega) (by rw [toNat_zero64]; omega), ?_⟩
  rw [toNat_zero64, List.drop_zero]
  rw [memcpy_some _ _ _ _ _ (by rw [toNat_zero64, hlen]; omega) (by omega)]
  rw [toNat_zero64, hrest, hstore]

-- Two copies out of a ring, the second one from slot zero on, load `n` items in a row.
theorem memcpy_load_wrap (mem bytes : List UInt8) (pos : Nat) (slot l n : ULong)
    (hslot : slot.toNat = pos % mem.length) (hl : l.toNat = min n.toNat (mem.length - slot.toNat))
    (hpos : 0 < mem.length) (hmem : n.toNat ≤ mem.length) (hbytes : n.toNat ≤ bytes.length) :
    ∃ middle, memcpy (some bytes) 0 (some mem) slot l = some middle ∧
      memcpy middle l (some mem) 0 (n - l) =
        some (some (Circular.fetch mem pos n.toNat ++ bytes.drop n.toNat)) := by
  have hlt := Nat.mod_lt pos hpos
  have hrest : (n - l).toNat = n.toNat - l.toNat :=
    BitVec.toNat_sub_of_le (by rw [BitVec.le_def]; omega)
  have hload := Circular.take_wrap_eq_fetch mem pos n.toNat l.toNat hmem (by omega)
  rw [← hslot] at hload
  let first := (mem.drop slot.toNat).take l.toNat
  have hfirst : first.length = l.toNat := by rw [List.length_take, List.length_drop]; omega
  have hlen := Circular.length_splice bytes 0 first (by omega)
  refine ⟨_, memcpy_some bytes mem 0 slot l (by rw [toNat_zero64]; omega) (by omega), ?_⟩
  rw [toNat_zero64]
  change memcpy (some (Circular.splice bytes 0 first)) l (some mem) 0 (n - l) = _
  rw [memcpy_some _ _ _ _ _ (by rw [hlen]; omega) (by rw [toNat_zero64]; omega)]
  rw [toNat_zero64, hrest, List.drop_zero, ← hload]
  -- the first block stays in front of the second one
  have hsplit : Circular.splice bytes 0 first = first ++ bytes.drop l.toNat := by
    simp [Circular.splice, hfirst]
  have hsecond : (mem.take (n.toNat - l.toNat)).length = n.toNat - l.toNat := by
    rw [List.length_take]; omega
  rw [hsplit, Circular.splice, hsecond, List.take_append_of_le_length (by omega),
    List.take_of_length_le (by omega), List.drop_append, hfirst,
    List.drop_of_length_le (by omega), List.drop_drop]
  simp only [List.nil_append]
  congr 4
  omega

-- A caller's buffer with the length passed along with it.
structure Span where
  bytes : List UInt8
  len : ULong
  fits : len.toNat ≤ bytes.length
deriving DecidableEq

end IgLibs.CMemory
