import Mathlib.Data.List.Nodup

namespace IgLibs.Cursor

variable {ν : Type*} (key : ν → Nat)

-- A container of nodes, each with a key that no other node ever has. An iterator is the key
-- of the node it is at, or `none` at the end.
def begin (nodes : List ν) : Option Nat := nodes.head?.map key

-- The node at an iterator, none if it has been erased.
def find (n : Nat) (nodes : List ν) : Option ν := nodes.find? fun node => key node = n

-- The nodes behind the one at an iterator.
def ahead (n : Nat) : List ν → List ν
  | [] => []
  | node :: rest => if key node = n then rest else ahead n rest

-- ++it
def next (n : Nat) (nodes : List ν) : Option Nat := begin key (ahead key n nodes)

def erase (n : Nat) (nodes : List ν) : List ν := nodes.filter fun node => key node ≠ n

def modify (n : Nat) (f : ν → ν) (nodes : List ν) : List ν :=
  nodes.map fun node => if key node = n then f node else node

variable {key}

-- The nodes as an iterator splits them.
structure Split (nodes : List ν) (it : Option Nat) (before rest : List ν) : Prop where
  nodes_eq : nodes = before ++ rest
  it_eq : it = begin key rest
  nodup : (nodes.map key).Nodup

section

variable {nodes before rest : List ν} {node : ν}

theorem Split.rest_eq_nil {it : Option Nat} (h : @Split _ key nodes it before rest)
    (hit : it = none) : rest = [] := by
  have hbegin := h.it_eq.symm.trans hit
  cases rest with
  | nil => rfl
  | cons head rest => cases hbegin

theorem keys_ne_of_nodup (h : ((before ++ node :: rest).map key).Nodup) :
    ∀ other ∈ before ++ rest, key other ≠ key node := by
  rw [List.map_append, List.map_cons, List.nodup_middle, ← List.map_append, List.nodup_cons] at h
  intro other hmem he
  exact h.1 (he ▸ List.mem_map_of_mem hmem)

theorem mem_before_iff (h : ((before ++ node :: rest).map key).Nodup) {other : ν} :
    other ∈ before ↔ other ∈ before ++ node :: rest ∧ other ∉ node :: rest := by
  have hdisjoint := List.disjoint_of_nodup_append h.of_map
  rw [List.mem_append]
  constructor
  · exact fun hmem => ⟨.inl hmem, fun hrest => hdisjoint hmem hrest⟩
  · exact fun hmem => hmem.1.resolve_right hmem.2

theorem find_eq_none_iff {n : Nat} : find key n nodes = none ↔ ∀ node ∈ nodes, key node ≠ n := by
  simp [find]

theorem mem_of_find {n : Nat} (h : find key n nodes = some node) : node ∈ nodes ∧ key node = n :=
  ⟨List.mem_of_find?_eq_some h, by simpa using List.find?_some h⟩

theorem find_of_mem (h : (nodes.map key).Nodup) (hmem : node ∈ nodes) :
    find key (key node) nodes = some node := by
  obtain ⟨before, rest, rfl⟩ := List.append_of_mem hmem
  rw [find, List.find?_append, List.find?_eq_none.mpr, Option.none_or, List.find?_cons_of_pos]
  · simp
  · intro other hother
    simpa using keys_ne_of_nodup h other (List.mem_append_left rest hother)

theorem ahead_sublist (n : Nat) (nodes : List ν) : (ahead key n nodes).Sublist nodes := by
  induction nodes with
  | nil => exact List.Sublist.refl _
  | cons node rest ih =>
      rw [ahead]
      split
      · exact List.sublist_cons_self ..
      · exact ih.cons node

theorem ahead_middle (h : ((before ++ node :: rest).map key).Nodup) :
    ahead key (key node) (before ++ node :: rest) = rest := by
  have hne := keys_ne_of_nodup h
  clear h
  induction before with
  | nil => simp [ahead]
  | cons head before ih =>
      rw [List.cons_append, ahead, if_neg (hne head (by simp))]
      exact ih fun other hmem => hne other (List.mem_cons_of_mem head hmem)

theorem next_middle (h : ((before ++ node :: rest).map key).Nodup) :
    next key (key node) (before ++ node :: rest) = begin key rest := by
  rw [next, ahead_middle h]

-- Erasing another node leaves the others on their side of the iterator.
theorem ahead_erase {n m : Nat} (hne : m ≠ n) (nodes : List ν) :
    ahead key n (erase key m nodes) = erase key m (ahead key n nodes) := by
  induction nodes with
  | nil => rfl
  | cons node rest ih =>
      by_cases hm : key node = m
      · rw [erase, List.filter_cons_of_neg (by simpa using hm), ahead, if_neg (by omega)]
        exact ih
      · rw [erase, List.filter_cons_of_pos (by simpa using hm), ahead, ahead]
        by_cases hn : key node = n
        · rw [if_pos hn, if_pos hn, erase]
        · rw [if_neg hn, if_neg hn]
          exact ih

theorem erase_middle (h : ((before ++ node :: rest).map key).Nodup) :
    erase key (key node) (before ++ node :: rest) = before ++ rest := by
  have hne := keys_ne_of_nodup h
  have hkept : (before ++ rest).filter (fun other => key other ≠ key node) = before ++ rest :=
    List.filter_eq_self.mpr fun other hmem => by simpa using hne other hmem
  rw [erase, List.filter_append, List.filter_cons_of_neg (by simp), ← List.filter_append, hkept]

theorem modify_middle (h : ((before ++ node :: rest).map key).Nodup) (f : ν → ν) :
    modify key (key node) f (before ++ node :: rest) = before ++ f node :: rest := by
  have hne := keys_ne_of_nodup h
  have hkept : ∀ part : List ν, (∀ other ∈ part, other ∈ before ++ rest) →
      part.map (fun other => if key other = key node then f other else other) = part := by
    intro part hpart
    conv_rhs => rw [← List.map_id part]
    exact List.map_congr_left fun other hmem => if_neg (hne other (hpart other hmem))
  rw [modify, List.map_append, List.map_cons, if_pos rfl, hkept before (by simp +contextual),
    hkept rest (by simp +contextual)]

-- A node that was written in its place and then perhaps erased.
theorem erase_modify_middle (h : ((before ++ node :: rest).map key).Nodup) {f : ν → ν}
    (hf : key (f node) = key node) (erased : Prop) [Decidable erased] :
    (if erased then erase key (key node) (modify key (key node) f (before ++ node :: rest))
      else modify key (key node) f (before ++ node :: rest)) =
      (before ++ if erased then [] else [f node]) ++ rest := by
  rw [modify_middle h]
  by_cases herased : erased
  · have hnodup : ((before ++ f node :: rest).map key).Nodup := by
      rwa [List.map_append, List.map_cons, hf, ← List.map_cons, ← List.map_append]
    rw [if_pos herased, if_pos herased, List.append_nil, ← hf, erase_middle hnodup]
  · rw [if_neg herased, if_neg herased, List.append_assoc, List.singleton_append]

theorem keys_sublist_middle {f : ν → ν} (hf : key (f node) = key node) (erased : Prop)
    [Decidable erased] :
    (((before ++ if erased then [] else [f node]) ++ rest).map key).Sublist
      ((before ++ node :: rest).map key) := by
  simp only [List.map_append, List.map_cons, List.append_assoc]
  refine List.Sublist.append_left ?_ _
  by_cases herased : erased
  · rw [if_pos herased]
    exact List.sublist_cons_self ..
  · rw [if_neg herased, List.map_singleton, hf]
    exact List.Sublist.refl _

end

end IgLibs.Cursor
