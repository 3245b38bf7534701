/-
Recursion into smaller arguments, by fuel.

`f (fuel + 1) i` is made by `body` from what `f fuel` is at arguments below `i`.  Then any
fuel above `i` gives the same, and `descend` is what it gives.
-/
import Mathlib.Data.Nat.Init

namespace Descent

variable {γ : Type}

/-- What enough fuel gives. -/
def descend (f : Nat → Nat → γ) (i : Nat) : γ := f (i + 1) i

/-- The body looks at smaller arguments only. -/
def Descends (f : Nat → Nat → γ) (body : (Nat → γ) → Nat → γ) : Prop :=
  (∀ fuel i, f (fuel + 1) i = body (f fuel) i) ∧ ∀ g g' i, (∀ q < i, g q = g' q) → body g i = body g' i

variable {f : Nat → Nat → γ} {body : (Nat → γ) → Nat → γ}

theorem Descends.eq_descend (h : Descends f body) : ∀ (i fuel : Nat), i < fuel → f fuel i = descend f i := by
  intro i
  induction i using Nat.strongRecOn with
  | ind i ih =>
    intro fuel hfuel
    obtain ⟨fuel, rfl⟩ : ∃ n, fuel = n + 1 := ⟨fuel - 1, by omega⟩
    rw [descend, h.1, h.1]
    exact h.2 _ _ i fun q hq => (ih q hq fuel (by omega)).trans (ih q hq i hq).symm

/-- **The recursion without fuel.** -/
theorem Descends.descend_eq (h : Descends f body) (i : Nat) : descend f i = body (descend f) i := by
  rw [descend, h.1]
  exact h.2 _ _ i fun q hq => h.eq_descend q i hq

end Descent
