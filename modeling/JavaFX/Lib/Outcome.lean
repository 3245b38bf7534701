/-
What a call that may fail does, said without saying whether it fails.

`Ensures x thrown returned` holds of a computation whose failure, if it fails, is
one of `thrown` and whose value, if it returns, is one of `returned`.  It is what a
loop can keep from one round to the next when some round calls code that may
throw: the rule of `bind` hands the property of the value on and lets the failure
through.
-/
import Mathlib.Data.List.Forall2

universe u v w

namespace Outcome

variable {ε : Type u} {α : Type v} {β : Type w} {thrown : ε → Prop} {returned : α → Prop}

def Ensures (x : Except ε α) (thrown : ε → Prop) (returned : α → Prop) : Prop :=
  match x with
  | .ok a => returned a
  | .error e => thrown e

theorem Ensures.ok {a : α} (h : returned a) : Ensures (.ok a : Except ε α) thrown returned := h

theorem Ensures.error {e : ε} (h : thrown e) : Ensures (.error e : Except ε α) thrown returned := h

variable {x : Except ε α}

theorem Ensures.mono {returned' : α → Prop} (h : Ensures x thrown returned)
    (himp : ∀ a, returned a → returned' a) : Ensures x thrown returned' := by
  cases x with
  | ok a => exact himp a h
  | error e => exact h

variable {f : α → Except ε β} {y : β}

theorem Ensures.bind {returned' : β → Prop}
    (h : Ensures x thrown returned) (hf : ∀ a, returned a → Ensures (f a) thrown returned') :
    Ensures (x.bind f) thrown returned' := by
  cases x with
  | ok a => exact hf a h
  | error e => exact h

theorem map_eq_ok {f : α → β} (h : x.map f = .ok y) : ∃ a, x = .ok a ∧ f a = y := by
  cases x with
  | error e => cases h
  | ok a =>
    cases h
    exact ⟨a, rfl, rfl⟩

theorem bind_eq_ok (h : x.bind f = .ok y) : ∃ a, x = .ok a ∧ f a = .ok y := by
  cases x with
  | error e => cases h
  | ok a => exact ⟨a, rfl, h⟩

/-- A computation that may throw nothing returns. -/
theorem Ensures.returns (h : Ensures x thrown returned)
    (hthrown : ∀ e, ¬ thrown e) : ∃ a, x = .ok a ∧ returned a := by
  cases x with
  | ok a => exact ⟨a, rfl, h⟩
  | error e => exact absurd h (hthrown e)

/-! ### Lists -/

theorem mapM_eq_ok {f : α → Except ε β} {l : List α} {l' : List β} :
    l.mapM f = .ok l' ↔ List.Forall₂ (fun a b => f a = .ok b) l l' := by
  induction l generalizing l' with
  | nil => simp [pure, Except.pure, eq_comm]
  | cons a l ih =>
    rw [List.mapM_cons, List.forall₂_cons_left_iff]
    cases ha : f a with
    | error e => simp [bind, Except.bind]
    | ok b => cases hl : l.mapM f <;> simp [bind, Except.bind, pure, Except.pure, ← ih, hl, eq_comm]

theorem mapM_ok {f : α → Except ε β} {g : α → β} {l : List α} (h : ∀ a ∈ l, f a = .ok (g a)) :
    l.mapM f = .ok (l.map g) :=
  mapM_eq_ok.mpr (List.forall₂_map_right_iff.mpr (List.forall₂_same.mpr h))

end Outcome
