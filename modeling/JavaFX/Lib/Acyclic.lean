/-
Relations without cycles.

A relation without cycles that only gains steps into one point keeps having none, if nothing that
this point leads to gains a step.
-/
import Mathlib.Logic.Relation

namespace JavaFX

/-- No point leads back to itself. -/
def Acyclic {α : Type} (R : α → α → Prop) : Prop := ∀ x, ¬ Relation.TransGen R x x

namespace Acyclic

open Relation

variable {α : Type} {R R' : α → α → Prop}

theorem mono (h : Acyclic R) (hsub : ∀ a b, R' a b → R a b) : Acyclic R' :=
  fun x hx => h x (TransGen.mono hsub _ _ hx)

section
variable {p : α}

variable {a b : α}

/-- What the point leads to has no new steps. -/
theorem transGen_of_reached (hnew : ∀ a b, R' a b → R a b ∨ b = p ∧ ¬ ReflTransGen R p a)
    (ha : ReflTransGen R p a) (h : TransGen R' a b) : TransGen R a b := by
  have hstep : ∀ {a b : α}, ReflTransGen R p a → R' a b → R a b := fun ha hab =>
    (hnew _ _ hab).resolve_right fun hnot => hnot.2 ha
  induction h with
  | single hab => exact .single (hstep ha hab)
  | tail _ hbc ih => exact ih.tail (hstep (ha.trans ih.to_reflTransGen) hbc)

/-- A way in the new relation is one in the old relation, or leads through the point. -/
theorem transGen_or_reached (hnew : ∀ a b, R' a b → R a b ∨ b = p ∧ ¬ ReflTransGen R p a)
    (h : TransGen R' a b) : TransGen R a b ∨ ReflTransGen R p b := by
  induction h with
  | single hab =>
    rcases hnew _ _ hab with hab | ⟨rfl, -⟩
    · exact .inl (.single hab)
    · exact .inr .refl
  | tail _ hbc ih =>
    rcases hnew _ _ hbc with hbc | ⟨rfl, -⟩
    · exact ih.imp (fun hab => hab.tail hbc) fun hpb => hpb.tail hbc
    · exact .inr .refl

/-- **New steps into one point** make no cycle. -/
theorem attach (h : Acyclic R) (hnew : ∀ a b, R' a b → R a b ∨ b = p ∧ ¬ ReflTransGen R p a) : Acyclic R' := by
  intro x hx
  rcases transGen_or_reached hnew hx with hcycle | hreached
  · exact h x hcycle
  · exact h x (transGen_of_reached hnew hreached hx)

end

end Acyclic

end JavaFX
