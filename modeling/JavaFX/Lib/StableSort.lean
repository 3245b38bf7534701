/-
Rearrangements that keep equal elements in order.

Two elements are tied when each is at most the other.  A rearrangement is stable if the elements
tied with `x` come in the same order as before, for every `x`.  Said so, stability composes, and it
can be checked step by step; together with the order it determines the result.
-/
import Mathlib.Data.List.Perm.Basic

universe u

namespace StableSort

open List

variable {α : Type u} {r : α → α → Bool}

/-- The elements tied with `x`. -/
def ties (r : α → α → Bool) (x : α) (l : List α) : List α := l.filter fun y => r x y && r y x

/-- Elements that are tied come in the same order in both lists. -/
def KeepsTies (r : α → α → Bool) (l l' : List α) : Prop := ∀ x, ties r x l' = ties r x l

variable {l l' : List α}

theorem mem_ties {x y : α} : y ∈ ties r x l ↔ y ∈ l ∧ r x y = true ∧ r y x = true := by
  simp [ties]

@[simp] theorem ties_append (x : α) (l l' : List α) : ties r x (l ++ l') = ties r x l ++ ties r x l' :=
  filter_append _ _

theorem ties_cons (x y : α) (l : List α) :
    ties r x (y :: l) = if r x y && r y x then y :: ties r x l else ties r x l := by
  rw [ties, filter_cons]
  rfl

@[simp] theorem ties_nil (x : α) : ties r x [] = [] := rfl

theorem KeepsTies.refl (l : List α) : KeepsTies r l l := fun _ => rfl

theorem KeepsTies.trans {l'' : List α} (h : KeepsTies r l l') (h' : KeepsTies r l' l'') : KeepsTies r l l'' :=
  fun x => (h' x).trans (h x)

theorem KeepsTies.append {l₁ l₁' l₂ l₂' : List α} (h₁ : KeepsTies r l₁ l₁') (h₂ : KeepsTies r l₂ l₂') :
    KeepsTies r (l₁ ++ l₂) (l₁' ++ l₂') := by
  intro x
  rw [ties_append, ties_append, h₁ x, h₂ x]

section
variable (htrans : ∀ x y z, r x y = true → r y z = true → r x z = true)
include htrans

variable {y : α} {l : List α}

theorem ties_eq_nil {x : α} (habove : ∀ z ∈ l, r z y = false) (hxy : r x y = true) : ties r x l = [] := by
  rw [eq_nil_iff_forall_not_mem]
  intro z hz
  obtain ⟨hmem, -, hzx⟩ := mem_ties.mp hz
  have hzy := htrans z x y hzx hxy
  rw [habove z hmem] at hzy
  cases hzy

/-- An element moves to the front over elements that are above it. -/
theorem keepsTies_move (habove : ∀ z ∈ l, r z y = false) : KeepsTies r (l ++ [y]) (y :: l) := by
  intro x
  rw [ties_append, ties_cons, ties_cons]
  split
  · next htied =>
      rw [Bool.and_eq_true] at htied
      rw [ties_eq_nil htrans habove htied.1]
      rfl
  · simp

theorem keepsTies_merge : ∀ {l l' : List α}, l.Pairwise (fun x y => r x y = true) →
    KeepsTies r (l ++ l') (l.merge l' r) := by
  intro l
  induction l with
  | nil =>
    intro l' _
    simpa using KeepsTies.refl l'
  | cons x l ih =>
    intro l' hsorted
    obtain ⟨hx, hl⟩ := List.pairwise_cons.mp hsorted
    induction l' with
    | nil => simpa using KeepsTies.refl (x :: l)
    | cons y l' ih' =>
      by_cases hxy : r x y = true
      · rw [cons_merge_cons_pos _ _ _ hxy]
        exact (KeepsTies.refl [x]).append (ih hl)
      · rw [cons_merge_cons_neg _ _ _ hxy]
        -- All that is left of the first list is above `y`.
        have habove : ∀ z ∈ x :: l, r z y = false := by
          intro z hz
          rw [Bool.eq_false_iff]
          intro hzy
          rcases List.mem_cons.mp hz with rfl | hz
          · exact hxy hzy
          · exact hxy (htrans x z y (hx z hz) hzy)
        have hmove := (keepsTies_move htrans habove).append (KeepsTies.refl l')
        rw [append_assoc] at hmove
        exact hmove.trans ((KeepsTies.refl [y]).append ih')

variable (htotal : ∀ x y, (r x y || r y x) = true)
include htotal

omit htrans in
/-- **The order and the ties determine a list.** -/
theorem eq_of_keepsTies : ∀ {l l' : List α}, l.Pairwise (fun x y => r x y = true) →
    l'.Pairwise (fun x y => r x y = true) → KeepsTies r l l' → l' = l := by
  have hrefl : ∀ x, r x x = true := fun x => by simpa using htotal x x
  have hmem : ∀ {l l' : List α} {x : α}, KeepsTies r l l' → x ∈ l' → x ∈ l := by
    intro l l' x h hx
    have hties : x ∈ ties r x l' := mem_ties.mpr ⟨hx, hrefl x, hrefl x⟩
    rw [h x] at hties
    exact (mem_ties.mp hties).1
  intro l
  induction l with
  | nil =>
    intro l' _ _ h
    cases l' with
    | nil => rfl
    | cons y l' => cases hmem h mem_cons_self
  | cons x l ih =>
    intro l' hsorted hsorted' h
    cases l' with
    | nil => cases hmem (fun z => (h z).symm) (mem_cons_self)
    | cons y l' =>
      obtain ⟨hx, hl⟩ := List.pairwise_cons.mp hsorted
      obtain ⟨hy, hl'⟩ := List.pairwise_cons.mp hsorted'
      -- Both heads are least elements, hence tied.
      have hxy : r x y = true := by
        rcases List.mem_cons.mp (hmem h mem_cons_self) with rfl | hmem'
        · exact hrefl _
        · exact hx y hmem'
      have hyx : r y x = true := by
        rcases List.mem_cons.mp (hmem (fun z => (h z).symm) (mem_cons_self)) with rfl | hmem'
        · exact hrefl _
        · exact hy x hmem'
      have heq : y = x := by
        have hhead := h x
        rw [ties_cons, ties_cons, hxy, hyx, hrefl x] at hhead
        exact (List.cons.inj hhead).1
      subst heq
      rw [ih hl hl' fun z => ?_]
      have htail := h z
      rw [ties_cons, ties_cons] at htail
      split at htail
      · exact (List.cons.inj htail).2
      · exact htail

theorem keepsTies_mergeSort (l : List α) : KeepsTies r l (l.mergeSort r) := by
  intro x
  have hsublist : (ties r x l).Sublist (l.mergeSort r) := by
    refine sublist_mergeSort htrans htotal ?_ filter_sublist
    refine pairwise_of_forall_mem_list fun y hy z hz => ?_
    exact htrans y x z (mem_ties.mp hy).2.2 (mem_ties.mp hz).2.1
  have hfilter := hsublist.filter fun y => r x y && r y x
  have hself : (ties r x l).filter (fun y => r x y && r y x) = ties r x l := by
    simp [ties]
  rw [hself] at hfilter
  have hlength : (ties r x (l.mergeSort r)).length = (ties r x l).length :=
    ((mergeSort_perm l r).filter _).length_eq
  exact (hfilter.eq_of_length hlength.symm).symm

end

theorem KeepsTies.pairwise {R : α → α → Prop} (h : KeepsTies r l l') (hl : l.Pairwise R) (x : α) :
    l'.Pairwise fun y z => (r x y = true ∧ r y x = true) → (r x z = true ∧ r z x = true) → R y z := by
  have hties : (ties r x l').Pairwise R := by
    rw [h x]
    exact hl.filter _
  rw [ties, pairwise_filter] at hties
  refine hties.imp fun hyz hy hz => hyz ?_ ?_
  · rw [hy.1, hy.2, Bool.and_self]
  · rw [hz.1, hz.2, Bool.and_self]

end StableSort
