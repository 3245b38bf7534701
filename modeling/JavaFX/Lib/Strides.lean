/-
Walking round a ring in equal strides.

The places of a ring of `n` are numbered from `0`; a stride of `d` leads from `i` to
`(i + d) % n`.  A walk that starts at `c` comes back to `c`, and on its way it has been at
exactly the places that are `c` modulo the greatest common divisor of `d` and `n`.
-/
import Mathlib.Data.Finset.Card
import Mathlib.Data.Int.ModEq
import Mathlib.Tactic.Ring

namespace Strides

open Nat Finset

variable {n d c i j k : Nat} {M M₀ : Finset Nat}

/-- Where a stride from `i` leads. -/
def next (n d i : Nat) : Nat := (i + d) % n

theorem next_lt (hn : 0 < n) (i : Nat) : next n d i < n := mod_lt _ hn

theorem next_inj (hj : j < n) (hk : k < n) (h : next n d j = next n d k) : j = k := by
  have hmod : j ≡ k [MOD n] := Nat.ModEq.add_right_cancel' d h
  exact hmod.eq_of_lt_of_lt hj hk

theorem next_mod_gcd (i : Nat) : next n d i % d.gcd n = i % d.gcd n := by
  have hd : d ≡ 0 [MOD d.gcd n] := (modEq_zero_iff_dvd).mpr (d.gcd_dvd_left n)
  have hn : (i + d) % n ≡ i + d [MOD d.gcd n] := (mod_modEq (i + d) n).of_dvd (d.gcd_dvd_right n)
  exact hn.trans (by simpa using (Nat.ModEq.refl i).add hd)

theorem next_iterate (hc : c < n) (k : Nat) : (next n d)^[k] c = (c + k * d) % n := by
  induction k with
  | zero => simp [mod_eq_of_lt hc]
  | succ k ih =>
    rw [Function.iterate_succ_apply', ih]
    show ((c + k * d) % n + d) % n = _
    rw [mod_add_mod]
    congr 1
    ring

theorem iterate_mem (hclosed : ∀ j ∈ M, next n d j ∈ M) (hc : c ∈ M) (k : Nat) : (next n d)^[k] c ∈ M := by
  induction k with
  | zero => exact hc
  | succ k ih =>
    rw [Function.iterate_succ_apply']
    exact hclosed _ ih

/-- **What a walk reaches**: a set that no stride leaves holds, with a place, all the places
of its class. -/
theorem mem_of_class (hclosed : ∀ j ∈ M, next n d j ∈ M) (hc : c ∈ M) (hcn : c < n) (hj : j < n)
    (hclass : j % d.gcd n = c % d.gcd n) : j ∈ M := by
  have hdvd : ((d.gcd n : Nat) : Int) ∣ (j : Int) - c :=
    (modEq_iff_dvd).mp (show c ≡ j [MOD d.gcd n] from hclass.symm)
  obtain ⟨t, ht⟩ := hdvd
  have hbezout : ((d.gcd n : Nat) : Int) = d * gcdA d n + n * gcdB d n := gcd_eq_gcd_ab d n
  -- The number of strides, made positive modulo `n`.
  have hpos : (0 : Int) < n := by omega
  obtain ⟨m, hm⟩ : ∃ m : Nat, (m : Int) = gcdA d n * t % n :=
    ⟨(gcdA d n * t % n).toNat, Int.toNat_of_nonneg (Int.emod_nonneg _ hpos.ne')⟩
  have hmod : (c : Int) + m * d ≡ j [ZMOD n] := by
    have hstrides : (m : Int) ≡ gcdA d n * t [ZMOD n] := by
      rw [hm]
      exact Int.mod_modEq _ _
    have hend : (j : Int) = c + gcdA d n * t * d + n * (gcdB d n * t) := by
      have hj' : (j : Int) = c + (d.gcd n : Nat) * t := by omega
      rw [hj', hbezout]
      ring
    calc (c : Int) + m * d ≡ c + gcdA d n * t * d [ZMOD n] := (hstrides.mul_right _).add_left _
      _ ≡ c + gcdA d n * t * d + n * (gcdB d n * t) [ZMOD n] := by
          simp
      _ = j := hend.symm
  have hend : (c + m * d) % n = j := by
    have hnat : c + m * d ≡ j [MOD n] := (Int.natCast_modEq_iff).mp (by push_cast; exact hmod)
    exact (show (c + m * d) % n = j % n from hnat).trans (mod_eq_of_lt hj)
  have := iterate_mem hclosed hc m
  rwa [next_iterate hcn, hend] at this

/-! ### Walks -/

/-- A walk that started at `c`, when `M₀` had been left already, and is now at `i`: `M` is what
has been left since the beginning. -/
structure Walk (n d : Nat) (M₀ : Finset Nat) (c i : Nat) (M : Finset Nat) : Prop where
  below : ∀ j ∈ M, j < n
  here : i < n
  fresh : i ∉ M
  trace : insert c (M.image (next n d)) = insert i M
  since : M₀ ⊆ M
  stays : ∀ j ∈ M, j ∈ M₀ ∨ j % d.gcd n = c % d.gcd n
  class_eq : i % d.gcd n = c % d.gcd n

section

variable (h : Walk n d M₀ c i M)
include h

/-- No stride has led yet where the next one leads. -/
theorem Walk.next_fresh : next n d i ∉ M.image (next n d) := by
  intro hmem
  obtain ⟨j, hj, heq⟩ := Finset.mem_image.mp hmem
  exact h.fresh (next_inj (h.below j hj) h.here heq ▸ hj)

theorem Walk.stays_insert : ∀ j ∈ insert i M, j ∈ M₀ ∨ j % d.gcd n = c % d.gcd n := by
  intro j hj
  rcases Finset.mem_insert.mp hj with rfl | hj
  · exact .inr h.class_eq
  · exact h.stays j hj

theorem Walk.below_insert : ∀ j ∈ insert i M, j < n := by
  intro j hj
  rcases Finset.mem_insert.mp hj with rfl | hj
  · exact h.here
  · exact h.below j hj

theorem Walk.next (hne : next n d i ≠ c) : Walk n d M₀ c (Strides.next n d i) (insert i M) where
  below := h.below_insert
  here := next_lt (zero_lt_of_lt h.here) i
  fresh hmem := by
    rw [← h.trace] at hmem
    rcases Finset.mem_insert.mp hmem with heq | hmem
    · exact hne heq
    · exact h.next_fresh hmem
  trace := by
    rw [image_insert, insert_comm, h.trace]
  since := h.since.trans (subset_insert i M)
  stays := h.stays_insert
  class_eq := (next_mod_gcd i).trans h.class_eq

end

/-! ### Rounds -/

/-- The walks from the places below `c` have left everything in their classes. -/
def Covers (n d c : Nat) (M : Finset Nat) : Prop := ∀ j, j ∈ M ↔ j < n ∧ j % d.gcd n < c

section

variable (h : Covers n d c M)
include h

theorem Covers.next_mem (hj : j ∈ M) : Strides.next n d j ∈ M := by
  obtain ⟨hjn, hjc⟩ := (h j).mp hj
  exact (h _).mpr ⟨next_lt (zero_lt_of_lt hjn) j, by rwa [next_mod_gcd]⟩

theorem Covers.image_eq : M.image (Strides.next n d) = M := by
  refine eq_of_subset_of_card_le (fun k hk => ?_) ?_
  · obtain ⟨j, hj, rfl⟩ := Finset.mem_image.mp hk
    exact h.next_mem hj
  · refine (Finset.card_image_of_injOn fun j hj k hk heq => ?_).ge
    exact next_inj ((h j).mp hj).1 ((h k).mp hk).1 heq

theorem Covers.subset_range : M ⊆ range n :=
  fun j hj => Finset.mem_range.mpr ((h j).mp hj).1

theorem Covers.start_lt (hne : M.card ≠ n) : c < d.gcd n := by
  by_contra hge
  refine hne ?_
  have hall : M = range n := by
    refine h.subset_range.antisymm fun j hj => (h j).mpr ⟨Finset.mem_range.mp hj, ?_⟩
    have hn : 0 < n := zero_lt_of_lt (Finset.mem_range.mp hj)
    have := mod_lt j (gcd_pos_of_pos_right d hn)
    omega
  rw [hall, card_range]

theorem Covers.start (hn : 0 < n) (hc : c < d.gcd n) : Walk n d M c c M where
  below j hj := ((h j).mp hj).1
  here := hc.trans_le (le_of_dvd hn (d.gcd_dvd_right n))
  fresh hmem := by
    have := ((h c).mp hmem).2
    rw [mod_eq_of_lt hc] at this
    omega
  trace := by rw [h.image_eq]
  since := Finset.Subset.refl M
  stays _ hj := .inl hj
  class_eq := rfl

end

theorem Covers.succ (h : Covers n d c M₀) (hc : c < d.gcd n) (hw : Walk n d M₀ c i M)
    (hback : Strides.next n d i = c) : Covers n d (c + 1) (insert i M) := by
  have hcn : c < n := hback ▸ next_lt (zero_lt_of_lt hw.here) i
  have hmem : c ∈ insert i M := hw.trace ▸ mem_insert_self _ _
  have hclosed : ∀ j ∈ insert i M, Strides.next n d j ∈ insert i M := by
    intro j hj
    rcases Finset.mem_insert.mp hj with rfl | hj
    · exact hback ▸ hmem
    · rw [← hw.trace]
      exact mem_insert_of_mem (mem_image_of_mem _ hj)
  have hmod : c % d.gcd n = c := mod_eq_of_lt hc
  intro j
  constructor
  · intro hj
    refine ⟨hw.below_insert j hj, ?_⟩
    rcases hw.stays_insert j hj with hj | hclass
    · have := ((h j).mp hj).2
      omega
    · omega
  · rintro ⟨hjn, hjc⟩
    rcases Nat.lt_or_ge (j % d.gcd n) c with hlt | hge
    · exact mem_insert_of_mem (hw.since ((h j).mpr ⟨hjn, hlt⟩))
    · exact mem_of_class hclosed hmem hcn hjn (by omega)

end Strides
