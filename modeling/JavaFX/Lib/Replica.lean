/-
Replicas.

A source takes steps, and every step tells some changes.  A replica sees nothing but the changes,
and applies them one after the other.  If it is right after a step, it is right after a run.
-/
import Mathlib.Logic.Basic

namespace Replica

variable {S D T : Type}

/-- What is told on the way from one state of the source to another. -/
inductive Run (step : S → List D → S → Prop) (s : S) : List D → S → Prop
  | nil : Run step s [] s
  | snoc {s' s'' : S} {told new : List D} (h : Run step s told s') (hstep : step s' new s'') :
    Run step s (told ++ new) s''

variable {step : S → List D → S → Prop} {s s' : S} {told : List D} {m : Type → Type} [Monad m] [LawfulMonad m]
  (apply : T → D → m T) (view : S → T) (Inv : S → Prop)

/-- **A replica that is right after every step is right after every run.** -/
theorem Run.follows (h : Run step s told s') (hs : Inv s) (hstep : ∀ s told s', Inv s → step s told s' →
    Inv s' ∧ told.foldlM apply (view s) = pure (view s')) : Inv s' ∧ told.foldlM apply (view s) = pure (view s') := by
  induction h with
  | nil => exact ⟨hs, rfl⟩
  | snoc h hnew ih =>
    obtain ⟨hinv, hfirst⟩ := ih
    obtain ⟨hinv', hthen⟩ := hstep _ _ _ hinv hnew
    exact ⟨hinv', by rw [List.foldlM_append, hfirst, pure_bind, hthen]⟩

end Replica
