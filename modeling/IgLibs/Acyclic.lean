import Mathlib.Data.Finset.Card
import Mathlib.Logic.Relation

namespace IgLibs.Acyclic

variable {α : Type*} (R : α → α → Prop) (nodes : Finset α)

open Classical in
-- The number of nodes below a node, along any number of steps.
noncomputable def height (a : α) : Nat :=
  (nodes.filter fun b => Relation.TransGen R a b).card

variable {R nodes} {a b : α}

-- A node on no cycle is higher than its successors.
theorem height_lt_height (hacyclic : ¬ Relation.TransGen R b b) (hstep : R a b) (hb : b ∈ nodes) :
    height R nodes b < height R nodes a := by
  classical
  apply Finset.card_lt_card
  rw [Finset.ssubset_iff_of_subset]
  · refine ⟨b, Finset.mem_filter.mpr ⟨hb, Relation.TransGen.single hstep⟩, ?_⟩
    intro hmem
    exact hacyclic (Finset.mem_filter.mp hmem).2
  · intro c hmem
    rw [Finset.mem_filter] at hmem ⊢
    exact ⟨hmem.1, Relation.TransGen.head hstep hmem.2⟩

theorem height_lt_card (hacyclic : ¬ Relation.TransGen R a a) (ha : a ∈ nodes) :
    height R nodes a < nodes.card := by
  classical
  apply Finset.card_lt_card
  rw [Finset.ssubset_iff_of_subset (Finset.filter_subset _ _)]
  refine ⟨a, ha, ?_⟩
  intro hmem
  exact hacyclic (Finset.mem_filter.mp hmem).2

-- A rank that falls at every step excludes cycles.
theorem not_transGen_self (rank : α → Nat) (hrank : ∀ a b, R a b → rank b < rank a) (a : α) :
    ¬ Relation.TransGen R a a := by
  have hfall : ∀ {b}, Relation.TransGen R a b → rank b < rank a := by
    intro b hpath
    induction hpath with
    | single hstep => exact hrank _ _ hstep
    | tail _ hstep ih => exact Nat.lt_trans (hrank _ _ hstep) ih
  intro hcycle
  exact Nat.lt_irrefl _ (hfall hcycle)

end IgLibs.Acyclic
