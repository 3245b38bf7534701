/-
Rotating a list in place.

While the cycles are followed, the elements of the places that have been left stand a
`distance` further, and every place nobody has moved to holds what it held before.  A walk
through a cycle comes back to its beginning with a whole class of places behind it, so that
the counter of moves reaches the size of the list exactly when no class is left.

Two things go wrong.  The remainder of an empty list divides by zero, and the sum of a place
and the distance is a sum of `int`s, which wraps around in a list that is long enough.
-/
import JavaFX.Collections.FXCollections
import JavaFX.Lib.Strides
import JavaFX.Proofs.ObservableIntegerArray
import JavaFX.Proofs.ObservableListWrapper.Contents
import Mathlib.Data.List.Rotate

namespace JavaFX.FXCollections

open Program Outcome Strides

variable {E S : Type} {n d c i j : Nat} {distance : Int} {M M₀ : Finset Nat} {old content : List E} {x : E}

/-! ### What has been moved -/

/-- The elements of the places in `M` have moved on. -/
structure Moved (old content : List E) (d : Nat) (M : Finset Nat) : Prop where
  length_eq : content.length = old.length
  moved : ∀ j ∈ M, content[next old.length d j]? = old[j]?
  rest : ∀ k, k ∉ M.image (next old.length d) → content[k]? = old[k]?

theorem moved_empty (old : List E) (d : Nat) : Moved old old d ∅ where
  length_eq := rfl
  moved j hj := absurd hj (Finset.notMem_empty j)
  rest _ _ := rfl

theorem Moved.move (h : Moved old content d M) (hw : Walk old.length d M₀ c i M)
    (hx : old[i]? = some x) : Moved old (content.set (next old.length d i) x) d (insert i M) where
  length_eq := by rw [List.length_set, h.length_eq]
  moved j hj := by
    rcases Finset.mem_insert.mp hj with rfl | hj
    · rw [List.getElem?_set_self (h.length_eq ▸ next_lt (Nat.zero_lt_of_lt hw.here) j), hx]
    · have hne : next old.length d i ≠ next old.length d j :=
        fun heq => hw.next_fresh (heq ▸ Finset.mem_image_of_mem _ hj)
      rw [List.getElem?_set_ne hne, h.moved j hj]
  rest k hk := by
    rw [Finset.image_insert, Finset.mem_insert, not_or] at hk
    rw [List.getElem?_set_ne (Ne.symm hk.1), h.rest k hk.2]

theorem Moved.all (h : Moved old content d (Finset.range old.length)) (hd : d < old.length) :
    content = old.rotate (old.length - d) := by
  refine List.ext_getElem? fun k => ?_
  rcases Nat.lt_or_ge k old.length with hk | hk
  · have hback : next old.length d ((k + (old.length - d)) % old.length) = k := by
      unfold next
      rw [Nat.mod_add_mod, show k + (old.length - d) + d = k + old.length by omega, Nat.add_mod_right,
        Nat.mod_eq_of_lt hk]
    have hmem : (k + (old.length - d)) % old.length ∈ Finset.range old.length :=
      Finset.mem_range.mpr (Nat.mod_lt _ (by omega))
    rw [List.getElem?_rotate hk, ← h.moved _ hmem, hback]
  · rw [List.getElem?_eq_none (h.length_eq ▸ hk), List.getElem?_eq_none (by simpa using hk)]

/-! ### The loops -/

/-- A place from which the sum with the distance is not an `int`. -/
def Overflows (n d : Nat) : Prop := 2 ^ 31 < n + d

theorem index_eq (hi : i < n) (hd : d < n) (hsum : i + d < 2 ^ 31) :
    (if wrap ((i : Int) + d) ≥ n then wrap ((i : Int) + d) - n else wrap ((i : Int) + d)) = (next n d i : Nat) := by
  rw [wrap_of_lt (by omega) (by omega)]
  unfold next
  rcases Nat.lt_or_ge (i + d) n with hlt | hge
  · rw [Nat.mod_eq_of_lt hlt]
    omega
  · rw [Nat.mod_eq_sub_mod hge, Nat.mod_eq_of_lt (by omega)]
    omega

theorem index_overflow (hi : i < n) (hd : d < n) (hn : n < 2 ^ 31) (hsum : 2 ^ 31 ≤ i + d) (content : List E) :
    getAt content (if wrap ((i : Int) + d) ≥ n then wrap ((i : Int) + d) - n else wrap ((i : Int) + d))
      = .error .indexOutOfBounds := by
  rw [wrap_of_ge (by omega) (by omega), getAt, if_neg (by omega)]

/-- What the inner loop leaves. -/
structure Walked (old : List E) (d : Nat) (M₀ : Finset Nat) (c : Nat) (r : Option (List E × Int)) : Prop where
  result : ∃ content M i, r = some (content, ((insert i M).card : Int)) ∧ Walk old.length d M₀ c i M ∧
    next old.length d i = c ∧ Moved old content d (insert i M) ∧ ∀ j ∈ insert i M, j + d < 2 ^ 31

/-- **The inner loop** follows the walk to its end. -/
theorem moveCycle_spec (hd : d < old.length) (hn : old.length < 2 ^ 31) :
    ∀ (fuel : Nat) {content : List E} {x : E} {i : Nat} {M : Finset Nat}, Walk old.length d M₀ c i M →
      Moved old content d M → (∀ j ∈ M, j + d < 2 ^ 31) → old[i]? = some x → old.length ≤ M.card + fuel →
      Ensures (moveCycle old.length d c fuel content x i M.card) (fun _ => Overflows old.length d)
        (Walked old d M₀ c) := by
  intro fuel
  induction fuel with
  | zero =>
    intro content x i M hw hm hsmall hx hfuel
    -- Every place would have been left, and the walk is at one that has not.
    exfalso
    have hsub : insert i M ⊆ Finset.range old.length := fun j hj => Finset.mem_range.mpr (hw.below_insert j hj)
    have hcard := Finset.card_le_card hsub
    rw [Finset.card_insert_of_notMem hw.fresh, Finset.card_range] at hcard
    omega
  | succ fuel ih =>
    intro content x i M hw hm hsmall hx hfuel
    rw [moveCycle]
    cases Nat.lt_or_ge (i + d) (2 ^ 31) with
    | inl hsum =>
      have hlt : next old.length d i < content.length := hm.length_eq ▸ next_lt (Nat.zero_lt_of_lt hd) i
      have hread : content[next old.length d i]? = old[next old.length d i]? := hm.rest _ hw.next_fresh
      have hcard : (M.card : Int) + 1 = ((insert i M).card : Int) := by
        rw [Finset.card_insert_of_notMem hw.fresh]
        rfl
      have hsmall' : ∀ j ∈ insert i M, j + d < 2 ^ 31 := by
        intro j hj
        rcases Finset.mem_insert.mp hj with rfl | hj
        · exact hsum
        · exact hsmall j hj
      rw [index_eq hw.here hd hsum, getAt_ofNat hlt, hcard]
      rw [setAt_ofNat x hlt]
      show Ensures (if ((next old.length d i : Nat) : Int) ≠ c then _ else _) _ _
      by_cases hback : next old.length d i = c
      · rw [if_neg (by omega)]
        exact ⟨_, M, i, rfl, hw, hback, hm.move hw hx, hsmall'⟩
      · rw [if_pos (by omega)]
        refine ih (hw.next hback) (hm.move hw hx) hsmall' ?_ ?_
        · rw [← hread, List.getElem?_eq_getElem hlt]
        · omega
    | inr hsum =>
      rw [index_overflow hw.here hd hn hsum content]
      have := hw.here
      show 2 ^ 31 < old.length + d
      omega

/-- **The outer loop** goes through the classes of places, one after the other. -/
theorem moveCycles_spec (hd : d < old.length) (hn : old.length < 2 ^ 31) :
    ∀ (fuel : Nat) {content : List E} {c : Nat} {M : Finset Nat}, Covers old.length d c M →
      Moved old content d M → (∀ j ∈ M, j + d < 2 ^ 31) → old.length < M.card + fuel →
      Ensures (moveCycles old.length d fuel content c M.card) (fun _ => Overflows old.length d)
        (fun r => r = some (old.rotate (old.length - d)) ∧ ¬ Overflows old.length d) := by
  intro fuel
  induction fuel with
  | zero =>
    intro content c M hcov hm hsmall hfuel
    have := Finset.card_le_card hcov.subset_range
    rw [Finset.card_range] at this
    omega
  | succ fuel ih =>
    intro content c M hcov hm hsmall hfuel
    rw [moveCycles]
    by_cases hall : M.card = old.length
    · rw [if_pos (by omega)]
      have hrange : M = Finset.range old.length :=
        Finset.eq_of_subset_of_card_le hcov.subset_range (by rw [Finset.card_range]; omega)
      subst hrange
      refine ⟨congrArg some (hm.all hd), fun hover => ?_⟩
      have := hsmall (old.length - 1) (Finset.mem_range.mpr (by omega))
      unfold Overflows at hover
      omega
    · rw [if_neg (by omega)]
      have hc := hcov.start_lt hall
      have hw : Walk old.length d M c c M := hcov.start (by omega) hc
      have hread : content[c]? = old[c]? := hm.rest c (by rw [hcov.image_eq]; exact hw.fresh)
      have hlt : c < content.length := hm.length_eq ▸ hw.here
      have hx : old[c]? = some content[c] := by rw [← hread, List.getElem?_eq_getElem hlt]
      rw [getAt_ofNat hlt]
      show Ensures ((moveCycle old.length d c fuel content content[c] c M.card).bind _) _ _
      refine Ensures.bind (moveCycle_spec hd hn fuel hw hm hsmall hx (by omega)) ?_
      rintro r ⟨content', M', i', rfl, hw', hback, hm', hsmall'⟩
      have hcard : M.card ≤ M'.card := Finset.card_le_card hw'.since
      refine ih (hcov.succ hc hw' hback) hm' hsmall' ?_
      rw [Finset.card_insert_of_notMem hw'.fresh]
      omega

/-! ### The list -/

/-- What the interface says of `setAll` is true of the next call. -/
def Conforms (list : ObservableList E S) (s : S) : Prop :=
  ∀ content, ∃ b s', list.setAll content s = (.ok b, s') ∧ list.toArray s' = content

section
variable {E Obs : Type} [DecidableEq E] [DecidableEq Obs] {w : ObservableListWrapper E Obs}

open ObservableListWrapper

omit [DecidableEq E] [DecidableEq Obs] in
theorem block_returns {α : Type} {x : Call E Obs α} {a : α} {w₁ : ObservableListWrapper E Obs}
    (hrun : x { w with changeBuilder := w.changeBuilder.beginChange } = (.ok a, w₁)) (hwf : WellFormed w₁)
    (hlock : 0 < w₁.changeBuilder.changeLock) :
    ∃ w₂, (do beginChange; tryFinally x endChange : Call E Obs α) w = (.ok a, w₂) := by
  obtain ⟨w₂, hend⟩ := endChange_returns hwf hlock
  exact ⟨w₂, by rw [bind_ok (beginChange_apply w), tryFinally_apply hrun hend]⟩

theorem addAll_returns (h : OverArrayList w) (elements : List E) :
    ∃ b w', addAll (arguments elements) w = (.ok b, w') ∧ OverArrayList w' := by
  have hbegin := overArrayList_invariant.beginChange w h
  rw [beginChange_apply] at hbegin
  obtain ⟨w₁, hadds, hover, -⟩ := addEach_returns elements hbegin
  have hrun : iterate (arguments elements) (fun e => do let _ ← add e)
      { w with changeBuilder := w.changeBuilder.beginChange } = (.ok !elements.isEmpty, w₁) := by
    rw [iterate, bind_ok (read_apply _ _)]
    simp only [arguments]
    rw [bind_ok hadds]
    rfl
  have hwithin : Within w.changeBuilder.changeLock w { w with changeBuilder := w.changeBuilder.beginChange } :=
    ⟨⟨rfl, h.wellFormed.plain⟩, rfl, rfl⟩
  have hlast := keeps_iterate (arguments elements) (fun e => keeps_bind (keeps_add e) fun _ => keeps_pure ()) _ hwithin
  rw [hrun] at hlast
  obtain ⟨w₂, hblock⟩ := block_returns hrun hover.wellFormed (by rw [hlast.level.lock]; exact Nat.succ_pos _)
  have hkeep := overArrayList_invariant.addAll (arguments elements) w h
  rw [addAll, hblock] at hkeep
  exact ⟨_, w₂, hblock, hkeep⟩

/-- **The lists of array lists** do what the interface says. -/
theorem asObservableList_conforms (h : OverArrayList w) : Conforms asObservableList w := by
  intro content
  show ∃ b w', setAll (arguments content) w = (.ok b, w') ∧ w'.backingList = content
  have hcontents := replaceAll_contents (arguments content) h
  by_cases hsame : w.backingList = [] ∧ content = []
  · obtain ⟨hnil, rfl⟩ := hsame
    refine ⟨false, w, ?_, hnil⟩
    rw [setAll, bind_ok (read_apply _ w), hnil]
    rfl
  · have hreplaces : w.replaces (arguments content) = true := by
      unfold replaces arguments
      cases hw : w.backingList with
      | nil =>
        cases content with
        | nil => exact absurd ⟨hw, rfl⟩ hsame
        | cons => rfl
      | cons => rfl
    have hbegin := overArrayList_invariant.beginChange w h
    rw [beginChange_apply] at hbegin
    obtain ⟨w₁, hclear, hover₁, hnil⟩ := clear_returns hbegin
    obtain ⟨b, w₂, hadd, hover₂⟩ := addAll_returns hover₁ content
    have hrun : (do clear; let _ ← addAll (arguments content); return true : Call E Obs Bool)
        { w with changeBuilder := w.changeBuilder.beginChange } = (.ok true, w₂) := by
      rw [bind_ok hclear, bind_ok hadd]
      rfl
    -- Neither call leaves a block open, so that the lock is the one of this block.
    have hlock : 0 < w₂.changeBuilder.changeLock := by
      have hadds := (addAll_kept hover₁.wellFormed (arguments content)).1
      rcases clear_judged hbegin.wellFormed with ⟨-, hkept, -⟩ | ⟨-, ⟨ex, hex⟩, -⟩
      · rw [hadd] at hadds
        rw [hclear] at hkept
        rw [hadds, hkept]
        exact Nat.succ_pos _
      · rw [hclear] at hex
        cases hex
    obtain ⟨w₃, hblock⟩ := block_returns hrun hover₂.wellFormed hlock
    rcases setAll_cases w (arguments content) with ⟨hno, -⟩ | ⟨-, hreplace⟩
    · rw [hreplaces] at hno
      cases hno
    · have hset : setAll (arguments content) w = (.ok true, w₃) := hreplace.trans hblock
      rw [replaceAll, hblock] at hcontents
      exact ⟨true, w₃, hset, hcontents⟩

end

/-- The list is rotated: the call returns, and each element is a `distance` further. -/
def Rotates (list : ObservableList E S) (s : S) (distance : Int) : Prop :=
  ∃ s' bound, (∀ fuel, bound ≤ fuel → rotate fuel list distance s = (.ok (some ()), s')) ∧
    (list.toArray s').length = (list.toArray s).length ∧
    ∀ i < (list.toArray s).length,
      (list.toArray s')[((i + distance) % (list.toArray s).length).toNat]? = (list.toArray s)[i]?

theorem distance_eq (distance : Int) (hn : 0 < n) :
    (if distance.tmod n < 0 then distance.tmod n + n else distance.tmod n) = distance % n := by
  have hpos : (0 : Int) < n := by omega
  have hmod := Int.emod_nonneg distance hpos.ne'
  have hlt := Int.emod_lt_of_pos distance hpos
  rw [Int.tmod_eq_emod]
  split <;> split <;> omega

variable {list : ObservableList E S} {s : S}

theorem rotate_nil (h : list.toArray s = []) (fuel : Nat) (distance : Int) :
    rotate fuel list distance s = (.error .arithmetic, s) := by
  rw [rotate, bind_ok (read_apply _ s), h]
  rfl

theorem rotate_cons (hn : 0 < (list.toArray s).length) (fuel : Nat) (distance : Int) : rotate fuel list distance s =
      if distance % (list.toArray s).length = 0 then (.ok (some ()), s)
      else match moveCycles (list.toArray s).length (distance % (list.toArray s).length) fuel
        (list.toArray s) 0 0 with
        | .ok (some newContent) => (do let _ ← list.setAll newContent; return some ()) s
        | .ok none => (.ok none, s)
        | .error e => (.error e, s) := by
  rw [rotate, bind_ok (read_apply _ s), if_neg (by omega), distance_eq distance hn]
  split
  · rfl
  · rcases hrun : moveCycles ((list.toArray s).length : Int) (distance % (list.toArray s).length) fuel
        (list.toArray s) 0 0 with e | _ | newContent
    · exact bind_error rfl
    · rfl
    · rfl

theorem rotate_getElem? (hd : (d : Int) = distance % (old.length : Int)) (hi : i < old.length) :
    (old.rotate (old.length - d))[((i + distance) % (old.length : Int)).toNat]? = old[i]? := by
  have hpos : (0 : Int) < old.length := by omega
  have hlt : d < old.length := by
    have := Int.emod_lt_of_pos distance hpos
    omega
  have hplace : (((i : Int) + distance) % (old.length : Int)).toNat = (i + d) % old.length := by
    have : ((i : Int) + distance) % (old.length : Int) = (((i + d) % old.length : Nat) : Int) := by
      push_cast
      rw [hd, Int.add_emod_emod]
    rw [this, Int.toNat_natCast]
  have hback : ((i + d) % old.length + (old.length - d)) % old.length = i := by
    rw [Nat.mod_add_mod, show i + d + (old.length - d) = i + old.length by omega, Nat.add_mod_right,
      Nat.mod_eq_of_lt hi]
  rw [hplace, List.getElem?_rotate (Nat.mod_lt _ (by omega)), hback]

/-- **Rotation works exactly** where the list has elements and no sum of a place and the
distance is too large for an `int`. -/
theorem rotates_iff {list : ObservableList E S} {s : S} (h : Conforms list s)
    (hn : (list.toArray s).length < 2 ^ 31) (distance : Int) :
    Rotates list s distance ↔ list.toArray s ≠ [] ∧ (distance % (list.toArray s).length = 0 ∨
      (list.toArray s).length + distance % (list.toArray s).length ≤ 2 ^ 31) := by
  by_cases hempty : list.toArray s = []
  · constructor
    · rintro ⟨s', bound, hrun, -⟩
      have := hrun bound (Nat.le_refl bound)
      rw [rotate_nil hempty] at this
      cases this
    · rintro ⟨hne, -⟩
      exact absurd hempty hne
  have hpos : 0 < (list.toArray s).length := List.length_pos_iff.mpr hempty
  by_cases hzero : distance % ((list.toArray s).length : Int) = 0
  · refine iff_of_true ⟨s, 0, fun fuel _ => ?_, rfl, fun i hi => ?_⟩ ⟨hempty, .inl hzero⟩
    · rw [rotate_cons hpos, if_pos hzero]
    · have hsame := @rotate_getElem? _ 0 i distance (list.toArray s) (by omega) hi
      rwa [Nat.sub_zero, List.rotate_length] at hsame
  obtain ⟨d, hd⟩ : ∃ d : Nat, (d : Int) = distance % (list.toArray s).length :=
    ⟨_, Int.toNat_of_nonneg (Int.emod_nonneg distance (by omega))⟩
  have hdlt : d < (list.toArray s).length := by
    have := Int.emod_lt_of_pos distance (show (0 : Int) < (list.toArray s).length by omega)
    omega
  have hcovers : Covers (list.toArray s).length d 0 ∅ := fun j => by simp
  have hspec : ∀ fuel, (list.toArray s).length < fuel → _ := fun fuel hfuel =>
    moveCycles_spec hdlt hn fuel hcovers (moved_empty (list.toArray s) d)
      (fun j hj => absurd hj (Finset.notMem_empty j)) (by rw [Finset.card_empty]; omega)
  simp only [Finset.card_empty, Nat.cast_zero, hd] at hspec
  by_cases hover : Overflows (list.toArray s).length d
  · refine iff_of_false ?_ ?_
    · rintro ⟨s', bound, hrun, -⟩
      have hcall := hrun (max bound ((list.toArray s).length + 1)) (Nat.le_max_left _ _)
      have hloop := hspec (max bound ((list.toArray s).length + 1)) (by omega)
      rw [rotate_cons hpos, if_neg hzero] at hcall
      rcases hres : moveCycles ((list.toArray s).length : Int) (distance % (list.toArray s).length)
          (max bound ((list.toArray s).length + 1)) (list.toArray s) 0 0 with e | r
      · rw [hres] at hcall
        cases hcall
      · rw [hres] at hloop
        exact hloop.2 hover
    · rintro ⟨-, heq | hle⟩
      · exact hzero heq
      · unfold Overflows at hover
        omega
  · obtain ⟨b, s', hset, hcontent⟩ := h ((list.toArray s).rotate ((list.toArray s).length - d))
    refine iff_of_true ⟨s', (list.toArray s).length + 1, fun fuel hfuel => ?_, ?_, fun i hi => ?_⟩ ⟨hempty, .inr ?_⟩
    · have hloop := hspec fuel hfuel
      rw [rotate_cons hpos, if_neg hzero]
      rcases hres : moveCycles ((list.toArray s).length : Int) (distance % (list.toArray s).length) fuel
          (list.toArray s) 0 0 with e | r
      · rw [hres] at hloop
        exact absurd hloop hover
      · rw [hres] at hloop
        obtain rfl := hloop.1
        exact bind_ok hset
    · rw [hcontent, List.length_rotate]
    · rw [hcontent]
      exact rotate_getElem? hd hi
    · unfold Overflows at hover
      omega

/-- An array list of the numbers, with nobody listening. -/
def numbers (l : List Nat) : ObservableListWrapper Nat Unit where
  backingList := l

theorem overArrayList_numbers (l : List Nat) : ObservableListWrapper.OverArrayList (numbers l) :=
  ⟨ListChangeBuilder.tidy_empty, rfl, rfl⟩

theorem rotates_iff_six : Rotates ObservableListWrapper.asObservableList (numbers [0, 1, 2, 3, 4, 5]) (-4) ↔
      [0, 1, 2, 3, 4, 5] ≠ ([] : List Nat) ∧ ((-4 : Int) % 6 = 0 ∨ (6 : Int) + (-4) % 6 ≤ 2 ^ 31) :=
  rotates_iff (asObservableList_conforms (overArrayList_numbers _)) (by decide) (-4)

theorem not_rotates_nil : ¬ Rotates ObservableListWrapper.asObservableList (numbers []) 1 := by
  rintro ⟨s', bound, hrun, -⟩
  have := hrun bound (Nat.le_refl bound)
  cases this

end JavaFX.FXCollections
