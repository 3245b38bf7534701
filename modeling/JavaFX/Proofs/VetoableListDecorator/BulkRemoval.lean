/-
What the decorator proposes when a collection is removed.

The last range of the array would have to grow when the next index is adjacent to it, but the
index is compared with the beginning of that range instead of its end.  So every index has a
range of its own, and these are the runs of the removed indexes only if no two are adjacent.
-/
import JavaFX.Collections.VetoableListDecorator
import JavaFX.Proofs.Scene.ChildrenList
import JavaFX.Lib.Runs

namespace JavaFX.VetoableListDecorator

open Runs ChildrenCall List

variable {E : Type}

/-! ### The removed indexes -/

/-- The index of the root list is one of an element that goes. -/
def Removed (offset : Nat) (q : E → Bool) (subList : List E) (j : Int) : Prop :=
  ∃ (k : Nat) (e : E), j = (offset + k : Nat) ∧ subList[k]? = some e ∧ q e = true

theorem mem_goingFrom (q : E → Bool) : ∀ (es : List E) {i : Nat} {j : Int},
    j ∈ (goingFrom q i es).map Int.ofNat ↔ Removed i q es j := by
  intro es
  induction es with
  | nil =>
    intro i j
    simp [goingFrom, Removed]
  | cons e es ih =>
    intro i j
    have htail : Removed (i + 1) q es j ↔ ∃ (k : Nat) (x : E), j = (i + (k + 1) : Nat) ∧ es[k]? = some x ∧ q x = true := by
      unfold Removed
      simp only [Nat.add_assoc, Nat.add_comm 1]
    have hcons : Removed i q (e :: es) j ↔ (j = i ∧ q e = true) ∨ Removed (i + 1) q es j := by
      rw [htail]
      constructor
      · rintro ⟨k, x, hj, hx, hq⟩
        cases k with
        | zero =>
          obtain rfl : e = x := by simpa using hx
          exact Or.inl ⟨by simpa using hj, hq⟩
        | succ k => exact Or.inr ⟨k, x, hj, by simpa using hx, hq⟩
      · rintro (⟨rfl, hq⟩ | ⟨k, x, hj, hx, hq⟩)
        · exact ⟨0, e, rfl, rfl, hq⟩
        · exact ⟨k + 1, x, hj, by simpa using hx, hq⟩
    rw [hcons, ← ih]
    by_cases hq : q e = true
    · simp [goingFrom, hq]
    · simp [goingFrom, hq]

theorem goingFrom_increasing (q : E → Bool) : ∀ (es : List E) (i : Nat),
    ((goingFrom q i es).map Int.ofNat).Pairwise (· < ·) := by
  intro es
  induction es with
  | nil => exact fun _ => List.Pairwise.nil
  | cons e es ih =>
    intro i
    by_cases hq : q e = true
    · rw [goingFrom, if_pos hq, map_cons, pairwise_cons]
      refine ⟨fun j hj => ?_, ih (i + 1)⟩
      obtain ⟨k, -, rfl, -⟩ := (mem_goingFrom q es).mp hj
      show (i : Int) < _
      omega
    · rw [goingFrom, if_neg hq]
      exact ih (i + 1)

/-! ### The proposal -/

variable [DecidableEq E]

/-- Whether an element goes. -/
def goes (c : List E) (complement : Bool) (e : E) : Bool := decide (e ∈ c) ^^ complement

/-- Nothing is proposed if nothing goes; otherwise the ranges are the runs of what goes. -/
structure ProposesRuns (offset : Nat) (c : List E) (complement : Bool) (subList : List E) : Prop where
  nothing : proposeRemoval offset c complement subList = none ↔ ∀ j, ¬ Removed offset (goes c complement) subList j
  runs : ∀ p, proposeRemoval offset c complement subList = some p →
    p.toBeAdded = [] ∧ MaximalRuns (Removed offset (goes c complement) subList) p.indexes

theorem removeFromList_singletons (offset : Nat) (c : List E) (complement : Bool) (subList : List E) :
    removeFromList c complement offset subList []
      = ((goingFrom (goes c complement) offset subList).map Int.ofNat).map fun j => (j, j + 1) := by
  rw [removeFromList_eq c complement subList offset (by simp), map_map]
  rfl

/-- **A bulk removal proposes the runs of what it removes** exactly if no two adjacent elements
go. -/
theorem proposesRuns_iff (offset : Nat) (c : List E) (complement : Bool) (subList : List E) :
    ProposesRuns offset c complement subList ↔ ∀ (k : Nat) (e e' : E), subList[k]? = some e →
      subList[k + 1]? = some e' → goes c complement e = true → goes c complement e' = false := by
  have hmem : ∀ j, j ∈ (goingFrom (goes c complement) offset subList).map Int.ofNat ↔
      Removed offset (goes c complement) subList j := fun j => mem_goingFrom _ _
  have hsingle := maximalRuns_singletons (goingFrom_increasing (goes c complement) subList offset)
  simp only [hmem] at hsingle
  rw [← removeFromList_singletons] at hsingle
  have hgap : (∀ (k : Nat) (e e' : E), subList[k]? = some e → subList[k + 1]? = some e' →
      goes c complement e = true → goes c complement e' = false) ↔
      ∀ j, Removed offset (goes c complement) subList j → ¬ Removed offset (goes c complement) subList (j + 1) := by
    constructor
    · rintro h j ⟨k, e, rfl, he, hq⟩ ⟨m, e', hj, he', hq'⟩
      obtain rfl : m = k + 1 := by omega
      rw [h k e e' he he' hq] at hq'
      cases hq'
    · intro h k e e' he he' hq
      refine Bool.eq_false_iff.mpr fun hq' => ?_
      exact h _ ⟨k, e, rfl, he, hq⟩ ⟨k + 1, e', by omega, he', hq'⟩
  rw [hgap, ← hsingle]
  have hnothing : removeFromList c complement offset subList [] = [] ↔
      ∀ j, ¬ Removed offset (goes c complement) subList j := by
    rw [removeFromList_singletons, map_eq_nil_iff, eq_nil_iff_forall_not_mem]
    exact forall_congr' fun j => not_congr (hmem j)
  constructor
  · intro h
    cases hranges : removeFromList c complement offset subList [] with
    | nil =>
      refine ⟨by simp, List.Pairwise.nil, fun j => ?_⟩
      simpa using hnothing.mp hranges j
    | cons r ranges =>
      exact (h.runs ⟨[], r :: ranges⟩ (by rw [proposeRemoval, hranges])).2
  · intro h
    constructor
    · unfold proposeRemoval
      rw [← hnothing]
      cases removeFromList c complement offset subList [] <;> simp
    · unfold proposeRemoval
      intro p hp
      cases hranges : removeFromList c complement offset subList [] with
      | nil =>
        rw [hranges] at hp
        cases hp
      | cons r ranges =>
        rw [hranges] at hp
        obtain rfl := Option.some.inj hp
        exact ⟨rfl, hranges ▸ h⟩

/-- Of six elements those at 2, 3 and 5: the ranges of 2 and 3 are not joined. -/
theorem adjacent_not_joined : ¬ ProposesRuns 0 [2, 3, 5] false [0, 1, 2, 3, 4, (5 : Nat)] := by
  intro h
  have hruns := (h.runs ⟨[], [(2, 3), (3, 4), (5, 6)]⟩ (by decide)).2.apart
  revert hruns
  decide

end JavaFX.VetoableListDecorator
