import Mathlib.Logic.Relation
import Mathlib.Order.WellFoundedSet

/-!
# Acyclic relations on finite sets

Going backwards along an acyclic relation one comes to a root, when only finitely many elements
are met on the way.
-/

namespace Relation

variable {α : Type*} {r r' : α → α → Prop}

/-- No element is related to itself by a chain. -/
def Acyclic (r : α → α → Prop) : Prop := ∀ a, ¬ TransGen r a a

theorem Acyclic.mono (h : Acyclic r) (hr : ∀ a b, r' a b → r a b) : Acyclic r' :=
  fun a ha => h a (TransGen.mono hr a a ha)

/-- A relation that only goes up is acyclic. -/
theorem acyclic_of_lt [Preorder α] (h : ∀ a b, r a b → a < b) : Acyclic r := by
  have hlt : ∀ a b, TransGen r a b → a < b := by
    intro a b hab
    induction hab with
    | single hab => exact h _ _ hab
    | tail _ hbc ih => exact ih.trans (h _ _ hbc)
  exact fun a ha => lt_irrefl a (hlt a a ha)

/-- **Roots.** If every element of a finite set is a root or has a predecessor in it, a chain leads
from a root to each of them. -/
theorem Acyclic.exists_root (h : Acyclic r) {S : Set α} (hS : S.Finite) {root : α → Prop}
    (hpred : ∀ a ∈ S, root a ∨ ∃ b ∈ S, r b a) {a : α} (ha : a ∈ S) :
    ∃ b, root b ∧ ReflTransGen r b a := by
  have : IsStrictOrder α (TransGen r) := { irrefl := h, trans := fun _ _ _ => .trans }
  have hwf : S.WellFoundedOn (TransGen r) := hS.wellFoundedOn
  have step (a : α) (ha : a ∈ S)
      (ih : ∀ b ∈ S, TransGen r b a → ∃ c, root c ∧ ReflTransGen r c b) :
      ∃ b, root b ∧ ReflTransGen r b a := by
    rcases hpred a ha with hroot | ⟨b, hb, hba⟩
    · exact ⟨a, hroot, .refl⟩
    · obtain ⟨c, hc, hcb⟩ := ih b hb (.single hba)
      exact ⟨c, hc, hcb.tail hba⟩
  exact hwf.induction ha step

end Relation
