/-
Doubly linked lists as tables of pointers.

`Linked l xs` says that the pointers of `l` are those of the list `xs`.  An entry that has been
unlinked keeps its pointers, and nothing is said about them; what matters is that unlinking
and appending change no pointer of an entry that is not in the list.

Where the entries are in increasing order, the pointer of an entry leads to the least entry
above it.
-/
import Mathlib.Data.List.Nodup
import Mathlib.Order.Lattice

structure Links (ι : Type) where
  first : Option ι
  last : Option ι
  next : ι → Option ι
  prev : ι → Option ι

namespace Links

open List

variable {ι : Type}

structure Linked (l : Links ι) (xs : List ι) : Prop where
  nodup : xs.Nodup
  first : l.first = xs[0]?
  last : l.last = xs[xs.length - 1]?
  next : ∀ {k a}, xs[k]? = some a → l.next a = xs[k + 1]?
  prev : ∀ {k a}, xs[k]? = some a → l.prev a = if k = 0 then none else xs[k - 1]?

theorem linked_nil {l : Links ι} (hf : l.first = none) (hl : l.last = none) : l.Linked [] where
  nodup := nodup_nil
  first := hf
  last := hl
  next h := by simp at h
  prev h := by simp at h

theorem index_unique {xs : List ι} {j k : Nat} {a : ι} (h : xs.Nodup) (hj : xs[j]? = some a)
    (hk : xs[k]? = some a) : j = k := by
  obtain ⟨hj, rfl⟩ := List.getElem?_eq_some_iff.1 hj
  obtain ⟨hk, he⟩ := List.getElem?_eq_some_iff.1 hk
  exact (h.getElem_inj_iff.1 he).symm

theorem Linked.mem_of_first {l : Links ι} {xs : List ι} {i : ι} (h : l.Linked xs) (hf : l.first = some i) : i ∈ xs :=
  mem_of_getElem? (h.first ▸ hf)

theorem Linked.eq_nil {l : Links ι} {xs : List ι} (h : l.Linked xs) (hf : l.first = none) : xs = [] := by
  cases xs with
  | nil => rfl
  | cons a xs => simp [h.first] at hf

/-! ### Unlinking and appending -/

section
variable [DecidableEq ι] {l : Links ι} {xs : List ι} {r i : ι}

/-- Take `r` out.  Its own pointers stay. -/
def unlink (r : ι) (l : Links ι) : Links ι where
  first := if l.prev r = none then l.next r else l.first
  last := if l.next r = none then l.prev r else l.last
  next i := if l.prev r = some i then l.next r else l.next i
  prev i := if l.next r = some i then l.prev r else l.prev i

/-- Put `r` after the last one. -/
def append (r : ι) (l : Links ι) : Links ι where
  first := if l.last = none then some r else l.first
  last := some r
  next i := if i = r then none else if l.last = some i then some r else l.next i
  prev i := if i = r then l.last else l.prev i

/-- **Unlinking takes the entry out of the list.** -/
theorem Linked.unlink (h : l.Linked xs) (hr : r ∈ xs) : (l.unlink r).Linked (xs.erase r) := by
  obtain ⟨k, hk, rfl⟩ := getElem_of_mem hr
  have hat : xs[k]? = some xs[k] := getElem?_eq_getElem hk
  have hnext := h.next hat
  have hprev := h.prev hat
  rw [h.nodup.erase_getElem k hk]
  refine ⟨h.nodup.sublist (eraseIdx_sublist ..), ?_, ?_, ?_, ?_⟩
  · simp only [Links.unlink, h.first, getElem?_eraseIdx]
    grind
  · simp only [Links.unlink, h.last, getElem?_eraseIdx]
    grind
  · intro j a hj
    rw [getElem?_eraseIdx] at hj
    simp only [Links.unlink, hprev, hnext, getElem?_eraseIdx]
    by_cases hjk : j < k
    · rw [if_pos hjk] at hj
      by_cases hlast : j + 1 = k
      · have hbefore : (if k = 0 then none else xs[k - 1]?) = some a := by
          rw [if_neg (by omega), ← hj, ← hlast, Nat.add_sub_cancel]
        rw [if_pos hbefore, if_neg (by omega), ← hlast]
      · have hbefore : (if k = 0 then none else xs[k - 1]?) ≠ some a := by
          rw [if_neg (by omega)]
          intro he
          have := index_unique h.nodup hj he
          omega
        rw [if_neg hbefore, if_pos (by omega), h.next hj]
    · rw [if_neg hjk] at hj
      have hbefore : (if k = 0 then none else xs[k - 1]?) ≠ some a := by
        split
        · simp
        · intro he
          have := index_unique h.nodup hj he
          omega
      rw [if_neg hbefore, if_neg (by omega), h.next hj]
  · intro j a hj
    rw [getElem?_eraseIdx] at hj
    simp only [Links.unlink, hprev, hnext, getElem?_eraseIdx]
    by_cases hjk : j < k
    · rw [if_pos hjk] at hj
      have hafter : xs[k + 1]? ≠ some a := by
        intro he
        have := index_unique h.nodup hj he
        omega
      rw [if_neg hafter, h.prev hj]
      split
      · rfl
      · rw [if_pos (by omega)]
    · rw [if_neg hjk] at hj
      by_cases hfirst : j = k
      · rw [hfirst] at hj
        rw [if_pos hj, hfirst]
        split
        · rfl
        · rw [if_pos (by omega)]
      · have hafter : xs[k + 1]? ≠ some a := by
          intro he
          have := index_unique h.nodup hj he
          omega
        rw [if_neg hafter, h.prev hj, if_neg (by omega), if_neg (by omega), if_neg (by omega)]
        congr 1
        omega

/-- The pointer of an entry that is not in the list stays. -/
theorem Linked.unlink_next (h : l.Linked xs) (hr : r ∈ xs) (hi : i ∉ xs.erase r) :
    (l.unlink r).next i = l.next i := by
  obtain ⟨k, hk, rfl⟩ := getElem_of_mem hr
  have hat : xs[k]? = some xs[k] := getElem?_eq_getElem hk
  simp only [Links.unlink, h.prev hat]
  refine if_neg fun he => hi ?_
  split at he
  · exact nomatch he
  · rename_i hk0
    rw [h.nodup.mem_erase_iff]
    refine ⟨fun hir => ?_, mem_of_getElem? he⟩
    have := index_unique h.nodup (hir ▸ hat) he
    omega

/-- **Appending puts the entry last.** -/
theorem Linked.append (h : l.Linked xs) (hr : r ∉ xs) : (l.append r).Linked (xs ++ [r]) := by
  have hne : ∀ {k a}, xs[k]? = some a → a ≠ r := fun hk he => hr (he ▸ mem_of_getElem? hk)
  have hat : ∀ {k a}, (xs ++ [r])[k]? = some a → (k < xs.length ∧ xs[k]? = some a) ∨ (k = xs.length ∧ a = r) := by
    intro k a hk
    grind
  refine ⟨?_, ?_, ?_, ?_, ?_⟩
  · rw [nodup_append]
    refine ⟨h.nodup, nodup_singleton r, fun a ha b hb => ?_⟩
    rw [mem_singleton.1 hb]
    exact fun e => hr (e ▸ ha)
  · simp only [Links.append, h.last, h.first]
    grind
  · simp [Links.append]
  · intro k a hk
    simp only [Links.append, h.last]
    obtain ⟨hlt, hk⟩ | ⟨rfl, rfl⟩ := hat hk
    · rw [if_neg (hne hk), h.next hk]
      split
      · rename_i he
        have := index_unique h.nodup hk he
        rw [getElem?_append_right (by omega), show k + 1 - xs.length = 0 by omega]
        rfl
      · rename_i he
        have : k ≠ xs.length - 1 := fun e => he (e ▸ hk)
        rw [getElem?_append_left (by omega)]
    · simp
  · intro k a hk
    simp only [Links.append, h.last]
    obtain ⟨hlt, hk⟩ | ⟨rfl, rfl⟩ := hat hk
    · rw [if_neg (hne hk), h.prev hk]
      split
      · rfl
      · rw [getElem?_append_left (by omega)]
    · rw [if_pos rfl]
      split
      · rename_i h0
        rw [getElem?_eq_none (by omega)]
      · rw [getElem?_append_left (by omega)]

theorem Linked.append_next (h : l.Linked xs) (hi : i ∉ xs) (hir : i ≠ r) : (l.append r).next i = l.next i := by
  simp only [Links.append, h.last]
  rw [if_neg hir, if_neg fun he => hi (mem_of_getElem? he)]

end

/-! ### Entries in increasing order -/

section
variable [LinearOrder ι] {l : Links ι} {xs : List ι} {r i : ι}

section

variable (h : l.Linked xs) (hxs : xs.Pairwise (· < ·))
include h hxs

theorem Linked.first_le (hf : l.first = some i) {x : ι}
    (hx : x ∈ xs) : i ≤ x := by
  cases xs with
  | nil => exact absurd hx not_mem_nil
  | cons a xs =>
    have ha : a = i := by simpa [h.first] using hf
    subst ha
    obtain rfl | hx := mem_cons.1 hx
    · exact le_refl _
    · exact le_of_lt (rel_of_pairwise_cons hxs hx)

/-- **The pointer of an entry leads to the least entry above it.** -/
theorem Linked.next_least (hr : r ∈ xs) (hn : l.next r = some i) :
    i ∈ xs ∧ r < i ∧ ∀ x ∈ xs, r < x → i ≤ x := by
  obtain ⟨k, hk, rfl⟩ := getElem_of_mem hr
  rw [h.next (getElem?_eq_getElem hk)] at hn
  obtain ⟨hk', rfl⟩ := List.getElem?_eq_some_iff.1 hn
  rw [pairwise_iff_getElem] at hxs
  refine ⟨getElem_mem _, hxs _ _ _ _ (Nat.lt_succ_self k), fun x hx hlt => ?_⟩
  obtain ⟨j, hj, rfl⟩ := getElem_of_mem hx
  obtain hjk | rfl | hjk := Nat.lt_trichotomy j (k + 1)
  · obtain rfl | hjk := Nat.lt_succ_iff_lt_or_eq.1 hjk |>.symm
    · exact absurd hlt (lt_irrefl _)
    · exact absurd (hxs _ _ hj hk hjk) (not_lt_of_gt hlt)
  · exact le_refl _
  · exact le_of_lt (hxs _ _ hk' hj hjk)

theorem Linked.next_none (hr : r ∈ xs) (hn : l.next r = none) :
    ∀ x ∈ xs, x ≤ r := by
  obtain ⟨k, hk, rfl⟩ := getElem_of_mem hr
  rw [h.next (getElem?_eq_getElem hk), List.getElem?_eq_none_iff] at hn
  rw [pairwise_iff_getElem] at hxs
  intro x hx
  obtain ⟨j, hj, rfl⟩ := getElem_of_mem hx
  obtain rfl | hjk := Nat.eq_or_lt_of_le (show j ≤ k by omega)
  · exact le_refl _
  · exact le_of_lt (hxs _ _ hj hk hjk)

end

end

end Links
