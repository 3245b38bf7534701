/-
Ways up through a line of places.

An ascent takes the places `pos k = start`, `pos (k - 1)`, …, `pos 0` one after the
other.  What may stand at the place of the `i`-th step is up to `ok`, and `step i` says
how one place follows the other.  The rule that takes the first step off is what a
search needs that goes up step by step.
-/
import Mathlib.Logic.Function.Basic

structure Ascent (step : Nat → Nat → Nat → Prop) (ok : Nat → Nat → Prop) (k start : Nat)
    (pos : Nat → Nat) : Prop where
  starts : pos k = start
  fits : ∀ i ≤ k, ok i (pos i)
  steps : ∀ i < k, step i (pos (i + 1)) (pos i)

namespace Ascent

variable {step : Nat → Nat → Nat → Prop} {ok : Nat → Nat → Prop} {k start : Nat}

theorem zero : (∃ pos, Ascent step ok 0 start pos) ↔ ok 0 start := by
  constructor
  · rintro ⟨pos, h⟩
    have := h.fits 0 (Nat.le_refl 0)
    rwa [h.starts] at this
  · intro h
    refine ⟨fun _ => start, rfl, ?_, ?_⟩
    · intro i hi
      obtain rfl : i = 0 := by omega
      exact h
    · intro i hi
      omega

variable {pos : Nat → Nat}

theorem tail (h : Ascent step ok (k + 1) start pos) : Ascent step ok k (pos k) pos :=
  ⟨rfl, fun i hi => h.fits i (by omega), fun i hi => h.steps i (by omega)⟩

theorem cons {next : Nat} (h : Ascent step ok k next pos) (hok : ok (k + 1) start) (hstep : step k start next) :
    Ascent step ok (k + 1) start (fun i => if i = k + 1 then start else pos i) := by
  refine ⟨if_pos rfl, ?_, ?_⟩
  · intro i hi
    by_cases hik : i = k + 1
    · subst hik
      simpa using hok
    · simp only [if_neg hik]
      exact h.fits i (by omega)
  · intro i hi
    have hne : i ≠ k + 1 := by omega
    simp only [if_neg hne]
    by_cases hik : i = k
    · subst hik
      simp only [h.starts]
      exact hstep
    · rw [if_neg (by omega)]
      exact h.steps i (by omega)

theorem succ : (∃ pos, Ascent step ok (k + 1) start pos) ↔
    ok (k + 1) start ∧ ∃ next, step k start next ∧ ∃ pos, Ascent step ok k next pos := by
  constructor
  · rintro ⟨pos, h⟩
    have hok := h.fits (k + 1) (Nat.le_refl _)
    have hstep := h.steps k (by omega)
    rw [h.starts] at hok hstep
    exact ⟨hok, pos k, hstep, pos, h.tail⟩
  · rintro ⟨hok, next, hstep, pos, h⟩
    exact ⟨_, h.cons hok hstep⟩

theorem mono {ok' : Nat → Nat → Prop} (h : Ascent step ok k start pos)
    (himp : ∀ i ≤ k, ∀ p, ok i p → ok' i p) : Ascent step ok' k start pos :=
  ⟨h.starts, fun i hi => himp i hi _ (h.fits i hi), h.steps⟩

end Ascent
