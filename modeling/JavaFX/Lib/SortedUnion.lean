/-
Elements added to a sorted list.

A list in strictly ascending order is determined by what is in it.  When elements are added,
the list that results has them in one block exactly when no old element lies between two of
them; the block then starts at the rank of the least of them.
-/
import Mathlib.Data.List.Sort

namespace SortedUnion

open List

variable {α : Type} [LinearOrder α]

/-- The number of elements below `a`, which is the position of `a` if it is there. -/
def rank (l : List α) (a : α) : Nat := (l.filter (· < a)).length

theorem rank_le_length (l : List α) (a : α) : rank l a ≤ l.length := length_filter_le _ _

/-! ### Ranks -/

variable {l : List α} {a : α}

section

variable (h : l.Pairwise (· < ·))
include h

/-- A sorted list is what lies below `a` and then the rest. -/
theorem filter_append_filter (a : α) :
    l.filter (· < a) ++ l.filter (fun b => ¬ b < a) = l := by
  induction l with
  | nil => rfl
  | cons b l ih =>
    obtain ⟨hb, hl⟩ := List.pairwise_cons.mp h
    by_cases hba : b < a
    · rw [filter_cons_of_pos (by simpa using hba), filter_cons_of_neg (by simpa using hba), cons_append, ih hl]
    · have hnone : l.filter (· < a) = [] :=
        List.filter_eq_nil_iff.mpr fun c hc => by
          simpa using le_trans (not_lt.mp hba) (hb c hc).le
      have hall : l.filter (fun c => ¬ c < a) = l :=
        List.filter_eq_self.mpr fun c hc => by
          simpa using le_trans (not_lt.mp hba) (hb c hc).le
      rw [filter_cons_of_neg (by simpa using hba), filter_cons_of_pos (by simpa using hba), hnone, hall]
      rfl

theorem take_rank (a : α) : l.take (rank l a) = l.filter (· < a) := by
  have heq := congrArg (take (rank l a)) (filter_append_filter h a)
  rw [rank, take_left] at heq
  exact heq.symm

theorem drop_rank (a : α) : l.drop (rank l a) = l.filter (fun b => ¬ b < a) := by
  have heq := congrArg (drop (rank l a)) (filter_append_filter h a)
  rw [rank, drop_left] at heq
  exact heq.symm

/-- The elements below `a`, `a` itself and the elements above it. -/
theorem rank_add (ha : a ∈ l) : rank l a + 1 + (l.filter (a < ·)).length = l.length := by
  have hrest : l.filter (fun b => ¬ b < a) = a :: l.filter (a < ·) := by
    refine List.Pairwise.eq_of_mem_iff (h.filter _) ?_ ?_
    · exact List.pairwise_cons.mpr ⟨fun b hb => by simpa using (List.mem_filter.mp hb).2, h.filter _⟩
    · intro b
      simp only [mem_filter, mem_cons, not_lt, decide_eq_true_eq]
      constructor
      · rintro ⟨hb, hab⟩
        rcases eq_or_lt_of_le hab with heq | hlt
        · exact Or.inl heq.symm
        · exact Or.inr ⟨hb, hlt⟩
      · rintro (rfl | ⟨hb, hab⟩)
        · exact ⟨ha, le_refl b⟩
        · exact ⟨hb, hab.le⟩
  have hlength := congrArg length (filter_append_filter h a)
  rw [length_append, hrest, length_cons] at hlength
  unfold rank
  omega

end

/-! ### Adding elements -/

/-- `new` is `old` with the elements `added`, none of which was there. -/
structure Adds (old added new : List α) : Prop where
  sorted_old : old.Pairwise (· < ·)
  sorted_added : added.Pairwise (· < ·)
  sorted_new : new.Pairwise (· < ·)
  mem : ∀ a, a ∈ new ↔ a ∈ old ∨ a ∈ added
  fresh : ∀ a ∈ added, a ∉ old

/-- No element of `old` lies between two of `added`. -/
def Compact (old added : List α) : Prop := ∀ a ∈ added, ∀ b ∈ added, ∀ c ∈ old, ¬ (a < c ∧ c < b)

variable {old added new : List α}

theorem Adds.length (h : Adds old added new) : new.length = old.length + added.length := by
  have hnodup : (old ++ added).Nodup :=
    List.nodup_append.mpr ⟨h.sorted_old.nodup, h.sorted_added.nodup, by
      rintro a ha b hb rfl
      exact h.fresh a hb ha⟩
  have hperm : new.Perm (old ++ added) :=
    (perm_ext_iff_of_nodup h.sorted_new.nodup hnodup).mpr fun a => by simp [h.mem a]
  rw [hperm.length_eq, length_append]

theorem Adds.eq_nil (h : Adds old added new) (heq : new = old) : added = [] := by
  have hlength := h.length
  rw [heq] at hlength
  exact eq_nil_of_length_eq_zero (by omega)

theorem Adds.rank_eq (h : Adds old added new) (ha : ∀ b ∈ added, a ≤ b) : rank new a = rank old a := by
  have hfilter : new.filter (· < a) = old.filter (· < a) := by
    refine List.Pairwise.eq_of_mem_iff (h.sorted_new.filter _) (h.sorted_old.filter _) fun b => ?_
    simp only [mem_filter, h.mem, decide_eq_true_eq]
    constructor
    · rintro ⟨hb | hb, hlt⟩
      · exact ⟨hb, hlt⟩
      · exact absurd hlt (not_lt.mpr (ha b hb))
    · rintro ⟨hb, hlt⟩
      exact ⟨Or.inl hb, hlt⟩
  rw [rank, rank, hfilter]

/-- **With nothing between them, the added elements form a block.** -/
theorem Adds.block {rest : List α} (h : Adds old (a :: rest) new) (hc : Compact old (a :: rest)) :
    new = old.take (rank old a) ++ (a :: rest) ++ old.drop (rank old a) := by
  have hleast : ∀ b ∈ a :: rest, a ≤ b := by
    intro b hb
    rcases List.mem_cons.mp hb with rfl | hb
    · exact le_refl b
    · exact ((List.pairwise_cons.mp h.sorted_added).1 b hb).le
  have ha : a ∉ old := h.fresh a (by simp)
  rw [take_rank h.sorted_old, drop_rank h.sorted_old]
  refine List.Pairwise.eq_of_mem_iff h.sorted_new ?_ ?_
  · refine List.pairwise_append.mpr ⟨List.pairwise_append.mpr ⟨h.sorted_old.filter _, h.sorted_added, ?_⟩,
      h.sorted_old.filter _, ?_⟩
    · intro b hb c hc'
      have hlt : b < a := by simpa using (List.mem_filter.mp hb).2
      exact lt_of_lt_of_le hlt (hleast c hc')
    · intro b hb c hc'
      obtain ⟨hcold, hca⟩ := List.mem_filter.mp hc'
      have hac : a < c := by
        rcases eq_or_lt_of_le (not_lt.mp (by simpa using hca) : a ≤ c) with rfl | hlt
        · exact absurd hcold ha
        · exact hlt
      rcases List.mem_append.mp hb with hb | hb
      · have hlt : b < a := by simpa using (List.mem_filter.mp hb).2
        exact hlt.trans hac
      · rcases lt_trichotomy b c with hlt | rfl | hgt
        · exact hlt
        · exact absurd hcold (h.fresh b hb)
        · exact absurd ⟨hac, hgt⟩ (hc a (by simp) b hb c hcold)
  · intro b
    simp only [h.mem, mem_append, mem_filter, decide_eq_true_eq]
    by_cases hlt : b < a
    · grind
    · grind

/-- If the new list has its additional elements in one block, nothing was between them. -/
theorem Adds.compact (h : Adds old added new) {k : Nat} {mid : List α}
    (heq : new = old.take k ++ mid ++ old.drop k) : Compact old added := by
  have hmid : ∀ a ∈ added, a ∈ mid := by
    intro a ha
    have hnew : a ∈ new := (h.mem a).mpr (Or.inr ha)
    rw [heq, mem_append, mem_append] at hnew
    rcases hnew with (hold | hmid) | hold
    · exact absurd (mem_of_mem_take hold) (h.fresh a ha)
    · exact hmid
    · exact absurd (mem_of_mem_drop hold) (h.fresh a ha)
  have hsorted := h.sorted_new
  rw [heq] at hsorted
  obtain ⟨hfront, -, hback⟩ := List.pairwise_append.mp hsorted
  obtain ⟨-, -, hbefore⟩ := List.pairwise_append.mp hfront
  rintro a ha b hb c hc ⟨hac, hcb⟩
  rw [← take_append_drop k old, mem_append] at hc
  rcases hc with hc | hc
  · exact absurd (hbefore c hc a (hmid a ha)) (not_lt.mpr hac.le)
  · exact absurd (hback b (mem_append_right _ (hmid b hb)) c hc) (not_lt.mpr hcb.le)

end SortedUnion
