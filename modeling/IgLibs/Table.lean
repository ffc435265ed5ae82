import Mathlib.Data.List.AList
import Mathlib.Data.Set.Card

namespace IgLibs

-- A map container: keys with their values, in the order in which it is walked.
abbrev Table (κ ν : Type*) := AList fun _ : κ => ν

namespace Table

variable {κ ν : Type*}

-- The same pairs in another order, as a container may choose when it changes.
def reorder (t : Table κ ν) (entries : List (Sigma fun _ : κ => ν))
    (h : entries.Perm t.entries) : Table κ ν :=
  ⟨entries, (List.perm_nodupKeys h).mpr t.nodupKeys⟩

theorem lookup_reorder [DecidableEq κ] (t : Table κ ν) (entries : List (Sigma fun _ : κ => ν))
    (h : entries.Perm t.entries) (key : κ) : (t.reorder entries h).lookup key = t.lookup key :=
  AList.perm_lookup h

theorem eq_empty_of_lookup [DecidableEq κ] {t : Table κ ν} (h : ∀ key, t.lookup key = none) :
    t = ∅ := by
  apply AList.ext
  apply List.eq_nil_iff_forall_not_mem.mpr
  rintro ⟨key, value⟩ hmem
  have hlookup : value ∈ t.lookup key := AList.mem_lookup_iff.mpr hmem
  rw [h key] at hlookup
  cases hlookup

section

variable [DecidableEq κ]

-- Setting a key; one that is there already keeps its value unless it may be overwritten.
def put (overwrite : Bool) (t : Table κ ν) (entry : κ × ν) : Table κ ν :=
  if overwrite ∨ t.lookup entry.1 = none then t.insert entry.1 entry.2 else t

theorem lookup_put_self (overwrite : Bool) (t : Table κ ν) (key : κ) (value : ν) :
    (put overwrite t (key, value)).lookup key
      = if overwrite then some value else (t.lookup key).or (some value) := by
  unfold put
  cases overwrite with
  | true => simp
  | false => cases hold : t.lookup key <;> simp [hold]

theorem lookup_put_of_ne (overwrite : Bool) (t : Table κ ν) {key other : κ} (value : ν)
    (hne : key ≠ other) : (put overwrite t (other, value)).lookup key = t.lookup key := by
  unfold put
  split
  · exact AList.lookup_insert_ne hne
  · rfl

variable [BEq κ] [LawfulBEq κ]

-- With overwriting, the last entry of a key counts.
theorem lookup_foldl_put_true (entries : List (κ × ν)) (t : Table κ ν) (key : κ) :
    (entries.foldl (put true) t).lookup key = (entries.reverse.lookup key).or (t.lookup key) := by
  induction entries generalizing t with
  | nil => rfl
  | cons entry entries ih =>
      obtain ⟨other, value⟩ := entry
      rw [List.foldl_cons, ih, List.reverse_cons, List.lookup_append, Option.or_assoc,
        List.lookup_cons, List.lookup_nil]
      by_cases hkey : key = other
      · subst hkey
        rw [lookup_put_self]
        simp
      · rw [lookup_put_of_ne true t value hkey, beq_eq_false_iff_ne.mpr hkey]
        rfl

-- Without it, the value that was there counts, and then the first entry of the key.
theorem lookup_foldl_put_false (entries : List (κ × ν)) (t : Table κ ν) (key : κ) :
    (entries.foldl (put false) t).lookup key = (t.lookup key).or (entries.lookup key) := by
  induction entries generalizing t with
  | nil => simp
  | cons entry entries ih =>
      obtain ⟨other, value⟩ := entry
      rw [List.foldl_cons, ih, List.lookup_cons]
      by_cases hkey : key = other
      · subst hkey
        rw [lookup_put_self]
        simp
      · rw [lookup_put_of_ne false t value hkey, beq_eq_false_iff_ne.mpr hkey]

end

-- A walk over different keys meets a result once for each key that gives it.
theorem count_filterMap_of_nodup {β : Type*} [DecidableEq β] (f : κ → Option β) {keys : List κ}
    (hkeys : keys.Nodup) (result : β) :
    (keys.filterMap f).count result = {key | key ∈ keys ∧ f key = some result}.ncard := by
  classical
  have hset : {key | key ∈ keys ∧ f key = some result} =
      ((keys.filter fun key => f key = some result).toFinset : Set κ) := by
    ext key
    simp
  rw [hset, Set.ncard_coe_finset, List.toFinset_card_of_nodup (hkeys.filter _),
    List.count_filterMap, List.countP_eq_length_filter]
  simp only [beq_eq_decide]

-- A walk over the entries is one over the keys.
theorem filterMap_entries [DecidableEq κ] {β : Type*} (f : κ → ν → Option β) (t : Table κ ν) :
    t.entries.filterMap (fun e => f e.1 e.2) =
      t.keys.filterMap fun key => (t.lookup key).bind (f key) := by
  have hkeys : t.keys = t.entries.map Sigma.fst := rfl
  rw [hkeys, List.filterMap_map]
  apply List.filterMap_congr
  intro e hmem
  have hlookup : t.lookup e.1 = some e.2 := AList.mem_lookup_iff.mpr hmem
  rw [Function.comp_apply, hlookup]
  rfl

-- The number of keys whose value meets a condition.
def countP (t : Table κ ν) (p : ν → Bool) : Nat := t.entries.countP fun e => p e.2

theorem countP_true (t : Table κ ν) : t.countP (fun _ => true) = t.entries.length :=
  congrFun List.countP_true t.entries

section

variable [DecidableEq κ]

theorem countP_insert {t : Table κ ν} {key : κ} (h : t.lookup key = none) (new : ν) (p : ν → Bool) :
    countP (t.insert key new) p = t.countP p + if p new then 1 else 0 := by
  have hmem : key ∉ t := AList.lookup_eq_none.mp h
  unfold countP
  rw [AList.entries_insert_of_notMem hmem, List.countP_cons]

theorem countP_erase {t : Table κ ν} {key : κ} {old : ν} (h : t.lookup key = some old)
    (p : ν → Bool) : countP (t.erase key) p + (if p old then 1 else 0) = t.countP p := by
  have hmem : ⟨key, old⟩ ∈ t.entries := AList.mem_lookup_iff.mp h
  obtain ⟨found, before, after, hbefore, hentries, herase⟩ :=
    List.exists_of_kerase (AList.mem_keys.mp (AList.lookup_isSome.mp (by rw [h]; rfl)))
  have hfound : found = old := by
    have hlookup : ⟨key, found⟩ ∈ t.entries := by rw [hentries]; simp
    exact Option.some.inj ((AList.mem_lookup_iff.mpr hlookup).symm.trans h)
  subst hfound
  unfold countP
  change (t.entries.kerase key).countP _ + _ = _
  rw [herase, hentries, List.countP_append, List.countP_append, List.countP_cons, Nat.add_assoc]

theorem keys_erase_perm {t : Table κ ν} {key : κ} {rest : List κ}
    (h : (key :: rest).Perm t.keys) : (AList.keys (t.erase key)).Perm rest := by
  have herase := h.symm.erase key
  rw [List.erase_cons_head] at herase
  rwa [AList.keys_erase]

theorem erase_eq_self {t : Table κ ν} {key : κ} (h : t.lookup key = none) : t.erase key = t := by
  apply AList.ext
  exact List.kerase_of_notMem_keys (AList.lookup_eq_none.mp h)

end

section

variable [DecidableEq ν]

-- The number of keys mapped to a value.
def holders (t : Table κ ν) (value : ν) : Nat := t.entries.countP fun e => e.2 = value

theorem holders_reorder (t : Table κ ν) (entries : List (Sigma fun _ : κ => ν))
    (h : entries.Perm t.entries) (value : ν) : (t.reorder entries h).holders value = t.holders value :=
  h.countP_eq _

variable [DecidableEq κ]

theorem holders_insert {t : Table κ ν} {key : κ} (h : t.lookup key = none) (new value : ν) :
    holders (t.insert key new) value = t.holders value + if new = value then 1 else 0 := by
  change countP (t.insert key new) (fun v => decide (v = value)) = _
  rw [countP_insert h]
  simp only [decide_eq_true_eq]
  rfl

theorem holders_erase {t : Table κ ν} {key : κ} {old : ν} (h : t.lookup key = some old) (value : ν) :
    holders (t.erase key) value + (if old = value then 1 else 0) = t.holders value := by
  have hcount := countP_erase h fun v => decide (v = value)
  simp only [decide_eq_true_eq] at hcount
  exact hcount

end

end Table

end IgLibs
