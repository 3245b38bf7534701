/-
Binary search over a probe.

The loop halves an interval of indices and asks a probe which way to go, so it
covers every search that differs only in what it compares: a key in a sorted
array, a position in a list of disjoint intervals.  What it returns is
pinned down by `search_found` and `search_missing` for any probe whatsoever: they
say only what the neighbours of the answer told the loop.
-/
import Mathlib.Data.List.Basic

namespace BinarySearch

/-- Where a search ended: at an index, or in front of one. -/
inductive Result
  | found (i : Nat)
  | missing (i : Nat)
deriving Repr, DecidableEq

/-- `lt` sends the loop to the right of `i`, `gt` to the left, `eq` stops it. -/
def loop (probe : Nat → Ordering) : Nat → Nat → Nat → Result
  | 0, lo, _ => .missing lo
  | fuel + 1, lo, hi =>
    if lo < hi then
      let mid := (lo + (hi - 1)) / 2
      match probe mid with
      | .lt => loop probe fuel (mid + 1) hi
      | .gt => loop probe fuel lo mid
      | .eq => .found mid
    else .missing lo

/-- Search `[0, n)`.  Every round drops an index, so `n` rounds are enough. -/
def search (probe : Nat → Ordering) (n : Nat) : Result :=
  loop probe n 0 n

variable {probe : Nat → Ordering}

theorem loop_found : ∀ (fuel lo hi i : Nat), loop probe fuel lo hi = .found i → lo ≤ i ∧ i < hi ∧ probe i = .eq := by
  intro fuel
  induction fuel with
  | zero => intro lo hi i h; simp [loop] at h
  | succ fuel ih =>
    intro lo hi i h
    rw [loop] at h
    by_cases hlt : lo < hi
    · rw [if_pos hlt] at h
      simp only at h
      split at h
      · obtain ⟨h1, h2, h3⟩ := ih _ _ _ h
        exact ⟨by omega, h2, h3⟩
      · obtain ⟨h1, h2, h3⟩ := ih _ _ _ h
        exact ⟨h1, by omega, h3⟩
      · rename_i heq
        simp only [Result.found.injEq] at h
        subst h
        exact ⟨by omega, by omega, heq⟩
    · rw [if_neg hlt] at h
      simp at h

/-- With enough rounds, a failed search knows what its two neighbours answered. -/
theorem loop_missing (n : Nat) : ∀ (fuel lo hi i : Nat), hi - lo ≤ fuel → lo ≤ hi → hi ≤ n →
    (lo = 0 ∨ probe (lo - 1) = .lt) → (hi = n ∨ probe hi = .gt) →
    loop probe fuel lo hi = .missing i →
    i ≤ n ∧ (i = 0 ∨ probe (i - 1) = .lt) ∧ (i = n ∨ probe i = .gt) := by
  intro fuel
  induction fuel with
  | zero =>
    intro lo hi i hfuel hle hn hlo hhi h
    simp only [loop, Result.missing.injEq] at h
    have : hi = i := by omega
    subst h; subst this
    exact ⟨hn, hlo, hhi⟩
  | succ fuel ih =>
    intro lo hi i hfuel hle hn hlo hhi h
    rw [loop] at h
    by_cases hlt : lo < hi
    · rw [if_pos hlt] at h
      simp only at h
      split at h
      · rename_i hp
        exact ih _ _ _ (by omega) (by omega) hn (Or.inr (by simpa using hp)) hhi h
      · rename_i hp
        exact ih _ _ _ (by omega) (by omega) (by omega) hlo (Or.inr hp) h
      · simp at h
    · rw [if_neg hlt] at h
      simp only [Result.missing.injEq] at h
      have : hi = i := by omega
      subst h; subst this
      exact ⟨hn, hlo, hhi⟩

variable {n i : Nat}

/-- The index a search stops at is one the probe accepted. -/
theorem search_found (h : search probe n = .found i) : i < n ∧ probe i = .eq := by
  obtain ⟨-, h2, h3⟩ := loop_found n 0 n i h
  exact ⟨h2, h3⟩

/-- **A failed search stands between an index that sent it right and one that
sent it left**, whatever the probe. -/
theorem search_missing (h : search probe n = .missing i) :
    i ≤ n ∧ (i = 0 ∨ probe (i - 1) = .lt) ∧ (i = n ∨ probe i = .gt) :=
  loop_missing n n 0 n i (by omega) (by omega) (Nat.le_refl n) (Or.inl rfl) (Or.inl rfl) h

end BinarySearch
