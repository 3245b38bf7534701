/-
Permutations given by a table.

A table lists for every index the index its element goes to.  It is a permutation
when it has every index once, and then `permute` carries a list along it: the
element at `i` is found at entry `i` of the table afterwards.  That property
determines the result, which is how tables that were computed in some other way are
recognised.
-/
import Mathlib.Data.List.Nodup
import Mathlib.Data.List.Perm.Subperm

universe u

namespace IndexTable

open List

variable {α : Type u}

/-- Every index of the table, once. -/
def IsPermutation (p : List Int) : Prop :=
  p.Nodup ∧ ∀ r ∈ p, 0 ≤ r ∧ r < p.length

instance (p : List Int) : Decidable (IsPermutation p) := inferInstanceAs (Decidable (_ ∧ _))

/-- The list with the element at `i` moved to `p[i]`. -/
def permute (p : List Int) (l : List α) : List α :=
  match l with
  | [] => []
  | x :: xs => (List.range (x :: xs).length).map (fun j : Nat => (x :: xs).getD (p.idxOf (j : Int)) x)

/-- The indices from `lo` on. -/
def indices (lo len : Nat) : List Int := (List.range' lo len).map Int.ofNat

@[simp] theorem length_indices (lo len : Nat) : (indices lo len).length = len := by simp [indices]

theorem mem_indices {lo len : Nat} {r : Int} : r ∈ indices lo len ↔ ∃ k : Nat, r = k ∧ lo ≤ k ∧ k < lo + len := by
  simp only [indices, mem_map, mem_range'_1]
  constructor
  · rintro ⟨k, hk, rfl⟩
    exact ⟨k, rfl, hk⟩
  · rintro ⟨k, rfl, hk⟩
    exact ⟨k, hk, rfl⟩

theorem indices_append (lo m k : Nat) : indices lo (m + k) = indices lo m ++ indices (lo + m) k := by
  rw [indices, indices, indices, ← map_append, range'_append_1]

theorem nodup_indices (lo len : Nat) : ((indices lo len).map Int.toNat).Nodup := by
  simpa [indices, Function.comp_def] using nodup_range'

theorem getElem?_indices {lo len k : Nat} (h : k < len) : (indices lo len)[k]? = some ((lo + k : Nat) : Int) := by
  simp [indices, h]

variable {p : List Int} {j : Nat} {l : List α}

/-- A permutation has all the indices of its range. -/
theorem IsPermutation.perm (h : IsPermutation p) : p.Perm (indices 0 p.length) := by
  refine (subperm_of_subset h.1 ?_).perm_of_length_le (by simp)
  intro r hr
  obtain ⟨h0, hlt⟩ := h.2 r hr
  exact mem_indices.mpr ⟨r.toNat, by omega, by omega, by omega⟩

theorem IsPermutation.mem (h : IsPermutation p) (hj : j < p.length) : (j : Int) ∈ p :=
  h.perm.mem_iff.mpr (mem_indices.mpr ⟨j, rfl, by omega, by omega⟩)

theorem IsPermutation.exists_index (h : IsPermutation p) (hj : j < p.length) : ∃ i : Nat, p[i]? = some (j : Int) :=
  List.mem_iff_getElem?.mp (h.mem hj)

@[simp] theorem length_permute (p : List Int) (l : List α) : (permute p l).length = l.length := by
  cases l <;> simp [permute]

section

variable (h : IsPermutation p) (hlen : p.length = l.length)
include h hlen

/-- **The element at `i` is found at `p[i]`.** -/
theorem getElem?_permute {i : Nat} (hij : p[i]? = some (j : Int)) :
    (permute p l)[j]? = l[i]? := by
  have hi : i < p.length := (List.getElem?_eq_some_iff.mp hij).1
  have hpi : p[i] = (j : Int) := (List.getElem?_eq_some_iff.mp hij).2
  have hj : j < l.length := by
    have := (h.2 (j : Int) (mem_of_getElem? hij)).2
    omega
  have hidx : p.idxOf (j : Int) = i := by rw [← hpi, h.1.idxOf_getElem]
  cases l with
  | nil => simp at hj
  | cons x xs =>
    rw [permute, getElem?_map, getElem?_range hj, Option.map_some, hidx, getD_eq_getElem?_getD]
    rw [getElem?_eq_getElem (by omega), Option.getD_some]

/-- A list that has every element where the table says is the permuted list. -/
theorem eq_permute {l' : List α} (hlen' : l'.length = l.length)
    (hmoved : ∀ i j : Nat, p[i]? = some (j : Int) → l'[j]? = l[i]?) : l' = permute p l := by
  refine ext_getElem? fun j => ?_
  rcases Nat.lt_or_ge j l.length with hj | hj
  · obtain ⟨i, hi⟩ := h.exists_index (hlen ▸ hj)
    rw [hmoved i j hi, getElem?_permute h hlen hi]
  · rw [getElem?_eq_none (by omega), getElem?_eq_none (by simpa using hj)]

theorem permute_perm : (permute p l).Perm l := by
  cases l with
  | nil => exact List.Perm.refl _
  | cons x xs =>
    have hmem : ∀ j ∈ range (x :: xs).length, ((j : Int)) ∈ p := fun j hj =>
      h.mem (by rw [hlen]; exact List.mem_range.mp hj)
    have hplaces : ((range (x :: xs).length).map (fun j : Nat => p.idxOf (j : Int))).Perm
        (range (x :: xs).length) := by
      refine (subperm_of_subset ?_ ?_).perm_of_length_le (by simp)
      · refine List.Nodup.map_on (fun i hi j hj hij => ?_) nodup_range
        have hi' := idxOf_lt_length_of_mem (hmem i hi)
        have hget := getElem_idxOf hi'
        simp only [hij] at hget
        rw [getElem_idxOf (idxOf_lt_length_of_mem (hmem j hj))] at hget
        exact (Int.natCast_inj.mp hget).symm
      · intro i hi
        obtain ⟨j, hj, rfl⟩ := List.mem_map.mp hi
        exact List.mem_range.mpr (hlen ▸ idxOf_lt_length_of_mem (hmem j hj))
    have hall : (range (x :: xs).length).map (fun i => (x :: xs).getD i x) = x :: xs := by
      refine ext_getElem? fun i => ?_
      rcases Nat.lt_or_ge i (x :: xs).length with hi | hi
      · rw [getElem?_map, getElem?_range hi, Option.map_some,
          getD_eq_getElem?_getD, getElem?_eq_getElem hi, Option.getD_some]
      · rw [getElem?_eq_none (by simpa using hi), getElem?_eq_none hi]
    have := hplaces.map (fun i => (x :: xs).getD i x)
    rw [hall, map_map] at this
    exact this

end

end IndexTable
