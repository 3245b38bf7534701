/-
A line cut into segments, given by their lengths.

`offset` is where a segment begins.  Segments may be empty, so a place can be where several of them
begin; but a stretch that is not empty lies in one segment at most, and none lies across the
beginning of a segment.
-/
import Mathlib.Algebra.BigOperators.Group.List.Basic
import Mathlib.Algebra.GroupWithZero.Nat

namespace Segments

open List

variable {lens : List Nat} {a b c k : Nat}

/-- Where a segment begins. -/
def offset (lens : List Nat) (k : Nat) : Nat := (lens.take k).sum

@[simp] theorem offset_zero (lens : List Nat) : offset lens 0 = 0 := by
  simp [offset]

theorem offset_succ {n : Nat} (h : lens[k]? = some n) : offset lens (k + 1) = offset lens k + n := by
  obtain ⟨hk, rfl⟩ := List.getElem?_eq_some_iff.mp h
  rw [offset, offset, take_succ_eq_append_getElem hk, sum_append, sum_singleton]

theorem offset_le_succ (lens : List Nat) (k : Nat) : offset lens k ≤ offset lens (k + 1) := by
  cases h : lens[k]? with
  | some n =>
    rw [offset_succ h]
    omega
  | none =>
    rw [List.getElem?_eq_none_iff] at h
    exact Nat.le_of_eq (by rw [offset, offset, take_of_length_le h, take_of_length_le (by omega)])

variable {j : Nat}

theorem offset_mono (lens : List Nat) {k : Nat} (h : j ≤ k) : offset lens j ≤ offset lens k := by
  induction h with
  | refl => exact Nat.le_refl _
  | step _ ih => exact Nat.le_trans ih (offset_le_succ lens _)

theorem offset_length (h : lens.length ≤ k) : offset lens k = lens.sum := by
  rw [offset, take_of_length_le h]

/-- A place in front of the end has segments behind it. -/
theorem lt_length_of_offset_lt (h : offset lens k < lens.sum) : k < lens.length := by
  by_contra hk
  rw [offset_length (by omega)] at h
  omega

/-- The stretch from `a` to `b` lies in a segment. -/
def Within (lens : List Nat) (k a b : Nat) : Prop := offset lens k ≤ a ∧ b ≤ offset lens (k + 1)

theorem Within.mono (h : Within lens k a c) (hbc : b ≤ c) : Within lens k a b := ⟨h.1, Nat.le_trans hbc h.2⟩

theorem Within.unique (h : Within lens k a b) (hab : a < b) (hfrom : offset lens j ≤ a)
    (hto : a < offset lens (j + 1)) : k = j := by
  obtain ⟨hk, hk'⟩ := h
  rcases Nat.lt_trichotomy k j with hlt | heq | hgt
  · have := offset_mono lens (show k + 1 ≤ j from hlt)
    omega
  · exact heq
  · have := offset_mono lens (show j + 1 ≤ k from hgt)
    omega

theorem not_within (hab : a < b) (hbc : b < c) (hb : offset lens j = b) : ¬ Within lens k a c := by
  rintro ⟨hk, hk'⟩
  rcases Nat.lt_or_ge k j with hlt | hge
  · have := offset_mono lens (show k + 1 ≤ j from hlt)
    omega
  · have := offset_mono lens hge
    omega

/-- Two places are in one segment. -/
def Together (lens : List Nat) (a b : Nat) : Prop := ∃ k, offset lens k ≤ a ∧ b < offset lens (k + 1)

theorem not_together (hab : a < b) (hb : offset lens j = b) : ¬ Together lens a b := by
  rintro ⟨k, hk, hk'⟩
  exact not_within hab (Nat.lt_succ_self b) hb ⟨hk, hk'⟩

/-- A later segment begins at this place. -/
def Boundary (lens : List Nat) (b : Nat) : Prop := ∃ k, 0 < k ∧ k < lens.length ∧ offset lens k = b

end Segments
