import Mathlib.Data.List.Basic

namespace IgLibs.Ledger

variable {ε : Type*} {admits : List ε → ε → Prop}

-- Each entry of a ledger is one that the entries before it admit.
def Admitted (admits : List ε → ε → Prop) (ledger : List ε) : Prop :=
  ∀ before entry after, ledger = before ++ entry :: after → admits before entry

variable {ledger entries : List ε} {entry : ε}

theorem admitted_nil : Admitted admits [] := by
  intro before entry after hsplit
  cases before <;> cases hsplit

theorem Admitted.left (h : Admitted admits (ledger ++ entries)) : Admitted admits ledger := by
  intro before entry after hsplit
  exact h before entry (after ++ entries) (by rw [hsplit, List.append_assoc, List.cons_append])

theorem Admitted.append (h : Admitted admits ledger)
    (hentries : ∀ before entry after, entries = before ++ entry :: after →
      admits (ledger ++ before) entry) : Admitted admits (ledger ++ entries) := by
  intro before entry after hsplit
  rcases List.append_eq_append_iff.mp hsplit with ⟨middle, rfl, hmiddle⟩ | ⟨middle, hmiddle, hlast⟩
  · exact hentries middle entry after hmiddle
  · cases middle with
    | nil =>
        have hfirst := hentries [] entry after hlast.symm
        rwa [List.append_nil, hmiddle, List.append_nil] at hfirst
    | cons head tail =>
        obtain ⟨rfl, rfl⟩ := List.cons.inj hlast
        exact h before _ tail hmiddle

theorem admitted_concat :
    Admitted admits (ledger ++ [entry]) ↔ Admitted admits ledger ∧ admits ledger entry := by
  constructor
  · exact fun h => ⟨h.left, h ledger entry [] rfl⟩
  · rintro ⟨h, hentry⟩
    apply h.append
    intro before other after hsplit
    cases before with
    | nil =>
        obtain rfl := (List.cons.inj hsplit).1
        rwa [List.append_nil]
    | cons head tail =>
        have hlength := congrArg List.length hsplit
        simp at hlength

end IgLibs.Ledger
