import Mathlib.Data.List.Basic
import Mathlib.Data.List.Range
import Mathlib.Data.Nat.ModEq

namespace IgLibs.Circular

variable {α : Type*}

-- Positions run freely and are reduced modulo the number of slots on access.
-- The ring holds `queue` when its items stand in consecutive slots from `pos` on.
def Holds (mem : List α) (pos : Nat) (queue : List α) : Prop :=
  ∀ i (hi : i < queue.length), mem[(pos + i) % mem.length]? = some queue[i]

-- Stores items into consecutive slots, one slot at a time.
def fill (mem : List α) : Nat → List α → List α
  | _, [] => mem
  | pos, item :: rest => fill (mem.set (pos % mem.length) item) (pos + 1) rest

-- Replaces a block of `mem` that starts at `off` and does not wrap.
def splice (mem : List α) (off : Nat) (items : List α) : List α :=
  mem.take off ++ items ++ mem.drop (off + items.length)

-- Loads items from consecutive slots, one slot at a time.
def fetch (mem : List α) (pos n : Nat) : List α :=
  (List.range n).filterMap fun i => mem[(pos + i) % mem.length]?

theorem holds_nil (mem : List α) (pos : Nat) : Holds mem pos [] := by
  intro i hi
  simp at hi

theorem Holds.congr_pos {mem queue : List α} {pos pos' : Nat} (hmem : Holds mem pos queue)
    (hpos : pos % mem.length = pos' % mem.length) : Holds mem pos' queue := by
  intro i hi
  rw [Nat.add_mod, ← hpos, ← Nat.add_mod]
  exact hmem i hi

theorem Holds.drop {mem queue : List α} {pos : Nat} (hmem : Holds mem pos queue) (n : Nat) :
    Holds mem (pos + n) (queue.drop n) := by
  intro i hi
  rw [List.length_drop] at hi
  rw [List.getElem_drop, Nat.add_assoc]
  exact hmem (n + i) (by omega)

theorem Holds.take {mem queue : List α} {pos : Nat} (hmem : Holds mem pos queue) (n : Nat) :
    Holds mem pos (queue.take n) := by
  intro i hi
  rw [List.length_take] at hi
  rw [List.getElem_take]
  exact hmem i (by omega)

-- Two positions less than a whole turn apart have different slots.
theorem slot_ne {size i j : Nat} (pos : Nat) (hij : i < j) (hj : j < i + size) :
    (pos + i) % size ≠ (pos + j) % size := by
  intro he
  have hd : size ∣ (pos + j) - (pos + i) := (Nat.modEq_iff_dvd' (by omega)).mp he
  have := Nat.le_of_dvd (by omega) hd
  omega

-- The slot just past the queue takes one more item while the ring is not full.
theorem Holds.push {mem queue : List α} {pos : Nat} (hmem : Holds mem pos queue)
    (hroom : queue.length < mem.length) (item : α) :
    Holds (mem.set ((pos + queue.length) % mem.length) item) pos (queue ++ [item]) := by
  intro i hi
  rw [List.length_append, List.length_singleton] at hi
  rw [List.length_set]
  by_cases hlast : i = queue.length
  · subst hlast
    rw [List.getElem?_set_self (Nat.mod_lt _ (by omega)),
      List.getElem_append_right (Nat.le_refl _)]
    simp
  · have hold : i < queue.length := by omega
    rw [List.getElem?_set_ne (slot_ne pos hold (by omega)).symm, List.getElem_append_left hold]
    exact hmem i hold

@[simp] theorem length_fill (mem : List α) (pos : Nat) (items : List α) :
    (fill mem pos items).length = mem.length := by
  induction items generalizing mem pos with
  | nil => rfl
  | cons item rest ih => simp [fill, ih]

theorem Holds.fill {mem queue : List α} {pos : Nat} (hmem : Holds mem pos queue)
    (items : List α) (hroom : queue.length + items.length ≤ mem.length) :
    Holds (fill mem (pos + queue.length) items) pos (queue ++ items) := by
  induction items generalizing mem queue with
  | nil => simpa [Circular.fill] using hmem
  | cons item rest ih =>
      rw [List.length_cons] at hroom
      have hp := hmem.push (by omega) item
      have hrest := ih hp (by simp; omega)
      simpa [Circular.fill, Nat.add_assoc] using hrest

theorem fill_append (mem : List α) (pos : Nat) (first second : List α) :
    fill mem pos (first ++ second) = fill (fill mem pos first) (pos + first.length) second := by
  induction first generalizing mem pos with
  | nil => rfl
  | cons item rest ih =>
      simp only [List.cons_append, fill, ih, List.length_cons]
      congr 1
      omega

theorem fill_congr_pos (mem : List α) (pos pos' : Nat) (items : List α)
    (hpos : pos % mem.length = pos' % mem.length) : fill mem pos items = fill mem pos' items := by
  induction items generalizing mem pos pos' with
  | nil => rfl
  | cons item rest ih =>
      simp only [fill, hpos]
      apply ih
      rw [List.length_set, Nat.add_mod, hpos, ← Nat.add_mod]

theorem length_splice (mem : List α) (off : Nat) (items : List α)
    (hfit : off + items.length ≤ mem.length) : (splice mem off items).length = mem.length := by
  simp only [splice, List.length_append, List.length_take, List.length_drop]
  omega

private theorem take_succ_set (mem : List α) (off : Nat) (item : α) (hoff : off < mem.length) :
    (mem.set off item).take (off + 1) = mem.take off ++ [item] := by
  rw [List.take_add_one, List.take_set_of_le (Nat.le_refl _), List.getElem?_set_self hoff]
  rfl

-- A block store that stays inside the ring is the item-by-item store.
theorem splice_eq_fill (mem : List α) (off : Nat) (items : List α)
    (hfit : off + items.length ≤ mem.length) : splice mem off items = fill mem off items := by
  induction items generalizing mem off with
  | nil => simp [splice, fill]
  | cons item rest ih =>
      rw [List.length_cons] at hfit
      rw [fill, Nat.mod_eq_of_lt (by omega), ← ih _ _ (by rw [List.length_set]; omega)]
      simp only [splice, List.length_cons]
      rw [take_succ_set mem off item (by omega), List.drop_set_of_lt (by omega)]
      simp [Nat.add_assoc, Nat.add_comm 1]

private theorem zero_mod_eq_wrap {size pos cut : Nat} (hslot : pos % size < size)
    (hcut : cut = size - pos % size) : 0 % size = (pos + cut) % size := by
  have hdiv := Nat.div_add_mod pos size
  have he : pos + cut = size * (pos / size + 1) := by rw [Nat.mul_add]; omega
  rw [he, Nat.mul_mod_right, Nat.zero_mod]

-- The two block stores of a write, up to the physical end and from slot zero on,
-- are the item-by-item store at the masked position.
theorem splice_wrap_eq_fill (mem : List α) (pos : Nat) (items : List α) (cut : Nat)
    (hfit : items.length ≤ mem.length)
    (hcut : cut = min items.length (mem.length - pos % mem.length)) :
    splice (splice mem (pos % mem.length) (items.take cut)) 0 (items.drop cut) =
      fill mem pos items := by
  cases items with
  | nil => simp [splice, fill]
  | cons item rest =>
      have hpos : 0 < mem.length := Nat.lt_of_lt_of_le (by simp) hfit
      have hslot := Nat.mod_lt pos hpos
      have htake : ((item :: rest).take cut).length = cut := by rw [List.length_take]; omega
      have hfirst : pos % mem.length + ((item :: rest).take cut).length ≤ mem.length := by omega
      rw [splice_eq_fill _ 0 _ (by
        rw [length_splice _ _ _ hfirst, List.length_drop]; omega)]
      rw [splice_eq_fill _ _ _ hfirst,
        fill_congr_pos mem (pos % mem.length) pos _ (Nat.mod_mod _ _)]
      -- either the first block holds every item, or it ends at the physical end
      by_cases hall : cut = (item :: rest).length
      · rw [hall, List.drop_length, List.take_length]
        rfl
      · have hwrap := zero_mod_eq_wrap hslot (show cut = mem.length - pos % mem.length by omega)
        rw [fill_congr_pos (fill mem pos _) 0 (pos + cut) _
          (by rw [length_fill]; exact hwrap)]
        conv_rhs => rw [← List.take_append_drop cut (item :: rest), fill_append, htake]

theorem fetch_add (mem : List α) (pos m n : Nat) :
    fetch mem pos (m + n) = fetch mem pos m ++ fetch mem (pos + m) n := by
  simp only [fetch, List.range_add, List.filterMap_append, List.filterMap_map,
    Function.comp_def, Nat.add_assoc]

theorem fetch_congr_pos (mem : List α) (pos pos' : Nat) (n : Nat)
    (hpos : pos % mem.length = pos' % mem.length) : fetch mem pos n = fetch mem pos' n := by
  unfold fetch
  congr 1
  funext i
  rw [Nat.add_mod, hpos, ← Nat.add_mod]

theorem fetch_succ (mem : List α) (pos n : Nat) :
    fetch mem pos (n + 1) = fetch mem pos n ++ (mem[(pos + n) % mem.length]?).toList := by
  rw [fetch_add]
  cases h : mem[(pos + n) % mem.length]? <;> simp [fetch, h]

theorem Holds.fetch {mem queue : List α} {pos : Nat} (hmem : Holds mem pos queue) (n : Nat)
    (hn : n ≤ queue.length) : fetch mem pos n = queue.take n := by
  induction n with
  | zero => rfl
  | succ n ih =>
      rw [fetch_succ, ih (by omega), List.take_add_one, hmem n (by omega),
        List.getElem?_eq_getElem (by omega)]

theorem length_fetch (mem : List α) (pos n : Nat) (hpos : 0 < mem.length) :
    (fetch mem pos n).length = n := by
  induction n with
  | zero => rfl
  | succ n ih =>
      have hlt := Nat.mod_lt (pos + n) hpos
      rw [fetch_succ, List.length_append, ih, List.getElem?_eq_getElem hlt]
      rfl

theorem holds_fetch (mem : List α) (pos n : Nat) (hpos : 0 < mem.length) :
    Holds mem pos (fetch mem pos n) := by
  induction n with
  | zero => exact holds_nil mem pos
  | succ n ih =>
      intro i hi
      have hlen := length_fetch mem pos n hpos
      have hlt := Nat.mod_lt (pos + n) hpos
      have hsucc := fetch_succ mem pos n
      rw [List.getElem?_eq_getElem hlt, Option.toList_some] at hsucc
      simp only [hsucc] at hi ⊢
      rw [List.length_append, List.length_singleton, hlen] at hi
      by_cases hlast : i < n
      · rw [List.getElem_append_left (by omega)]
        exact ih i (by omega)
      · have he : i = n := by omega
        subst he
        rw [List.getElem?_eq_getElem hlt, List.getElem_append_right (by omega)]
        simp

-- The slot of the j-th byte of a copy that is cut at the physical end.
theorem cut_slot_eq {size pos n cut j : Nat} (hsize : 0 < size) (hn : n ≤ size)
    (hcut : cut = min n (size - pos % size)) (hj : j < n) :
    (if j < cut then pos % size + j else j - cut) = (pos + j) % size := by
  have hslot := Nat.mod_lt pos hsize
  have hmod := Nat.mod_add_mod pos size j
  split
  · have hlt : pos % size + j < size := by omega
    exact (Nat.mod_eq_of_lt hlt).symm.trans hmod
  · have he : pos % size + j = size + (j - cut) := by omega
    rw [← hmod, he, Nat.add_mod_left, Nat.mod_eq_of_lt (by omega)]

-- A block load that stays inside the ring is the item-by-item load.
theorem take_drop_eq_fetch (mem : List α) (off n : Nat) (hfit : off + n ≤ mem.length) :
    (mem.drop off).take n = fetch mem off n := by
  induction n with
  | zero => simp [Circular.fetch]
  | succ n ih =>
      rw [fetch_succ, ← ih (by omega), List.take_add_one, List.getElem?_drop,
        Nat.mod_eq_of_lt (by omega)]

-- The two block loads of a read are the item-by-item load at the masked position.
theorem take_wrap_eq_fetch (mem : List α) (pos n cut : Nat) (hfit : n ≤ mem.length)
    (hcut : cut = min n (mem.length - pos % mem.length)) :
    (mem.drop (pos % mem.length)).take cut ++ mem.take (n - cut) = fetch mem pos n := by
  by_cases hn : n = 0
  · subst hn
    simp [hcut, Circular.fetch]
  have hslot := Nat.mod_lt pos (show 0 < mem.length by omega)
  have hrest : mem.take (n - cut) = fetch mem 0 (n - cut) := by
    simpa using take_drop_eq_fetch mem 0 (n - cut) (by omega)
  rw [take_drop_eq_fetch _ _ _ (by omega), hrest,
    fetch_congr_pos mem (pos % mem.length) pos _ (Nat.mod_mod _ _)]
  by_cases hall : cut = n
  · simp [hall, Circular.fetch]
  · have hwrap := zero_mod_eq_wrap hslot (show cut = mem.length - pos % mem.length by omega)
    rw [fetch_congr_pos mem 0 (pos + cut) (n - cut) hwrap, ← fetch_add]
    congr 1
    omega

end IgLibs.Circular
