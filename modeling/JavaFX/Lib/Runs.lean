/-
Maximal runs of integers.

A set of integers given by half open ranges, in ascending order and with a gap between any
two of them: then every range is a run of the set that cannot be extended.
-/
import Mathlib.Data.List.Pairwise

namespace Runs

/-- The ranges are the maximal runs of what satisfies `P`. -/
structure MaximalRuns (P : Int → Prop) (ranges : List (Int × Int)) : Prop where
  nonempty : ∀ r ∈ ranges, r.1 < r.2
  apart : ranges.Pairwise fun r q => r.2 < q.1
  covers : ∀ j, P j ↔ ∃ r ∈ ranges, r.1 ≤ j ∧ j < r.2

/-- Ranges of length one are maximal if no two of them touch. -/
theorem maximalRuns_singletons {l : List Int} (h : l.Pairwise (· < ·)) :
    MaximalRuns (· ∈ l) (l.map fun j => (j, j + 1)) ↔ ∀ j ∈ l, j + 1 ∉ l := by
  constructor
  · rintro ⟨-, hapart, -⟩ j hj hsucc
    rw [List.pairwise_map] at hapart
    rcases List.mem_iff_getElem.mp hj with ⟨a, ha, rfl⟩
    rcases List.mem_iff_getElem.mp hsucc with ⟨b, hb, heq⟩
    rcases Nat.lt_trichotomy a b with hab | rfl | hba
    · have := List.pairwise_iff_getElem.mp hapart a b ha hb hab
      omega
    · omega
    · have := List.pairwise_iff_getElem.mp h b a hb ha hba
      omega
  · intro hgap
    refine ⟨?_, ?_, fun j => ?_⟩
    · intro r hr
      obtain ⟨j, -, rfl⟩ := List.mem_map.mp hr
      omega
    · refine List.pairwise_map.mpr (h.imp_of_mem fun {j k} hj hk hjk => ?_)
      have hne : j + 1 ≠ k := fun heq => hgap j hj (heq ▸ hk)
      omega
    · constructor
      · exact fun hj => ⟨(j, j + 1), List.mem_map_of_mem hj, Int.le_refl j, Int.lt_succ j⟩
      · rintro ⟨r, hr, hle, hlt⟩
        obtain ⟨k, hk, rfl⟩ := List.mem_map.mp hr
        obtain rfl : k = j := by omega
        exact hk

end Runs
