/-
Sorting a range of an array, and the permutation that comes with it.

The auxiliary array holds the range only, so an element has one index in the array and
another one in the copy.  The tables of the helper have no copy: a level of the recursion
that sorts into the array uses them with absolute indices, and one that sorts into the copy
uses the same entries with the indices of the copy.

The two agree if the range begins at 0.  They do not meet if the levels that sort into the
copy find their parts in order, and if no two halves have to be merged.  That is `Aligned`,
and then the entries of the range are those of an insertion sort in the array itself.
-/
import JavaFX.Proofs.SortHelper

namespace JavaFX.SortHelper

open Outcome IndexTable StableSort List

section
variable {α : Type} {compare : α → α → Except JavaException Int}

/-! ### Where nothing has to be moved -/

/-- The insertion loop stops at once at an element that is not greater. -/
theorem insertLoop_inOrder {A U B : List α} {x y : α} {s : Arrays α} (fuel : Nat)
    (hdest : s.dest = A ++ (U ++ x :: y :: B)) (hle : le compare x y = true) :
    Ensures (insertLoop compare A.length fuel (A.length + (U.length + 1) : Nat) s) (Thrown compare) (· = s) := by
  cases fuel with
  | zero => exact Ensures.ok rfl
  | succ fuel =>
    have hj : ((A.length + (U.length + 1) : Nat) : Int) = ((A ++ U).length : Int) + 1 := by simp; omega
    have hlow : (A.length : Int) < ((A ++ U).length : Int) + 1 := by
      omega
    have hget : getAt s.dest ((A ++ U).length : Int) = .ok x := by
      rw [hdest, ← append_assoc, getAt_append]
    have hget' : getAt s.dest (((A ++ U).length : Int) + 1) = .ok y := by
      rw [hdest, ← append_assoc, getAt_append_succ]
    rw [hj, insertLoop, if_pos hlow, Int.add_sub_cancel, hget, hget']
    show Ensures ((compare x y).bind _) _ _
    refine Ensures.bind (compare_ensures x y) fun c hc => ?_
    have hc' : ¬ 0 < c := by simpa [hc] using hle
    rw [if_neg hc']
    exact Ensures.ok rfl

theorem insertionSort_inOrder {A X B : List α} {s : Arrays α} (hdest : s.dest = A ++ (X ++ B))
    (hsorted : X.Pairwise fun x y => le compare x y = true) :
    Ensures (insertionSort compare A.length (A.length + X.length : Nat) s) (Thrown compare) (· = s) := by
  refine forRange_ensures (fun _ s' => s' = s) (by omega) rfl ?_
  rintro i s' hlo hhi rfl
  obtain ⟨j, rfl⟩ : ∃ j : Nat, i = (A.length + j : Nat) := ⟨(i - A.length).toNat, by omega⟩
  cases j with
  | zero =>
    have hfuel : (((A.length + 0 : Nat) : Int) - A.length).toNat = 0 := by omega
    rw [hfuel]
    exact Ensures.ok rfl
  | succ j =>
    have hj : j + 1 < X.length := by omega
    have hsplit : X = X.take j ++ X[j] :: X[j + 1] :: X.drop (j + 2) := by
      rw [← drop_eq_getElem_cons hj, ← drop_eq_getElem_cons (Nat.lt_of_succ_lt hj), take_append_drop]
    have hlen : (X.take j).length = j := length_take_of_le (by omega)
    have hle := List.pairwise_iff_getElem.mp hsorted j (j + 1) (by omega) hj (Nat.lt_succ_self j)
    have hdest' : s'.dest = A ++ (X.take j ++ X[j] :: X[j + 1] :: (X.drop (j + 2) ++ B)) := by
      rw [hdest]
      refine (congrArg (fun l => A ++ (l ++ B)) hsplit).trans ?_
      simp only [append_assoc, cons_append]
    have h := insertLoop_inOrder (((A.length + (j + 1) : Nat) : Int) - A.length).toNat hdest' hle
    rwa [hlen] at h

/-- Halves that are in order are copied, and the tables stay as they are. -/
theorem mergeHalves_inOrder {A Y B A' U V B' : List α} {s : Arrays α} (hU : U ≠ []) (hV : V ≠ [])
    (hsrc : s.src = A' ++ ((U ++ V) ++ B')) (hdest : s.dest = A ++ (Y ++ B)) (hY : Y.length = (U ++ V).length)
    (hle : ∀ x ∈ U, ∀ y ∈ V, le compare x y = true) :
    Ensures (mergeHalves compare A'.length (A'.length + U.length : Nat) (A'.length + U.length + V.length : Nat)
        A.length (U.length + V.length : Nat) s) (Thrown compare)
      (· = { s with dest := A ++ ((U ++ V) ++ B) }) := by
  obtain ⟨init, x, rfl⟩ := (eq_nil_or_concat U).resolve_left hU
  obtain ⟨y, rest, rfl⟩ := exists_cons_of_ne_nil hV
  rw [concat_eq_append] at *
  have hmid : ((A'.length + (init ++ [x]).length : Nat) : Int) = ((A' ++ init).length : Int) + 1 := by
    simp; omega
  have hsplit : s.src = (A' ++ init) ++ x :: y :: (rest ++ B') := by rw [hsrc]; simp
  have hget : getAt s.src ((A'.length + (init ++ [x]).length : Nat) - 1 : Int) = .ok x := by
    rw [hmid, Int.add_sub_cancel, hsplit, getAt_append]
  have hget' : getAt s.src (A'.length + (init ++ [x]).length : Nat) = .ok y := by
    rw [hmid, hsplit, getAt_append_succ]
  have hcopy : arraycopy s.src A'.length s.dest A.length ((init ++ [x]).length + (y :: rest).length : Nat)
      = .ok (A ++ (((init ++ [x]) ++ y :: rest) ++ B)) := by
    rw [hsrc, hdest, ← length_append]
    exact arraycopy_append A' _ B' A Y B hY
  rw [mergeHalves, hget, hget']
  show Ensures ((compare x y).bind _) _ _
  refine Ensures.bind (compare_ensures x y) fun c hc => ?_
  have hc' : c ≤ 0 := by simpa [hc] using hle x (by simp) y (by simp)
  rw [if_pos hc', hcopy]
  exact Ensures.ok rfl

/-! ### Ranges whose copy is not needed -/

/-- The levels that sort into the copy have nothing to do, and no halves are merged.  The
flag says that a level sorts into the array. -/
inductive Aligned (compare : α → α → Except JavaException Int) : Bool → List α → Prop
  | short {inArray : Bool} {X : List α} (hshort : X.length < 7)
      (hsorted : inArray = false → X.Pairwise fun x y => le compare x y = true) : Aligned compare inArray X
  | halves {inArray : Bool} {X₁ X₂ : List α} (hlong : 7 ≤ X₁.length + X₂.length)
      (hhalf : X₁.length = (X₁.length + X₂.length) / 2) (h₁ : Aligned compare (!inArray) X₁)
      (h₂ : Aligned compare (!inArray) X₂) (hle : ∀ x ∈ X₁, ∀ y ∈ X₂, le compare x y = true) :
      Aligned compare inArray (X₁ ++ X₂)

/-- What sorting an aligned window comes to.  Its entries of the tables begin at `lo`. -/
structure AlignedSorted (compare : α → α → Except JavaException Int) (n lo : Nat) (A X B A' B' : List α)
    (s s' : Arrays α) (D : List (α × Int)) : Prop where
  dest : s'.dest = A ++ (D.map Prod.fst ++ B)
  sorted : (D.map Prod.fst).Pairwise fun x y => le compare x y = true
  tracked : Tracked lo s X s' D
  src : ∃ Y, s'.src = A' ++ (Y ++ B') ∧ Y.length = X.length
  bounded : Bounded n s'

theorem Tracked.fst_perm {lo : Nat} {s s' : Arrays α} {X : List α} {D : List (α × Int)} (h : Tracked lo s X s' D) :
    (D.map Prod.fst).Perm X := by
  have hperm := h.perm.map Prod.fst
  rwa [map_fst_zip_indices] at hperm

theorem Fresh.tracked {lo : Nat} {s : Arrays α} {X : List α} (h : Fresh lo s X) :
    Tracked lo s X s (X.zip (indices lo X.length)) :=
  ⟨List.Perm.refl _, h.1, h.2, fun _ _ => ⟨rfl, rfl⟩⟩

/-- A short part is sorted in the array, or is in order. -/
theorem insertionSort_aligned {n lo : Nat} {inArray : Bool} {A X B A' B' : List α} {s : Arrays α}
    (htotal : TotalPreorder (le compare)) (hlo : lo = if inArray then A.length else A'.length)
    (hsorted : inArray = false → X.Pairwise fun x y => le compare x y = true) (hb : Bounded n s)
    (hdest : s.dest = A ++ (X ++ B)) (hsrc : s.src = A' ++ (X ++ B')) (hn : A.length + X.length ≤ n)
    (hfresh : Fresh lo s X) :
    Ensures (insertionSort compare A.length (A.length + X.length : Nat) s) (Thrown compare)
      (fun s' => ∃ D, AlignedSorted compare n lo A X B A' B' s s' D) := by
  cases inArray with
  | true =>
    obtain rfl : lo = A.length := hlo
    refine (insertionSort_window hb hdest hn).mono ?_
    rintro s' ⟨D, hdest', -, hsorted', htracked, hsrc', hb'⟩
    exact ⟨D, hdest', hsorted' htotal, (htracked hfresh).1, ⟨X, hsrc'.trans hsrc, rfl⟩, hb'⟩
  | false =>
    refine (insertionSort_inOrder hdest (hsorted rfl)).mono ?_
    rintro s' rfl
    refine ⟨X.zip (indices lo X.length), ?_, ?_, hfresh.tracked, ⟨X, hsrc, rfl⟩, hb⟩
    · rw [map_fst_zip_indices, hdest]
    · rw [map_fst_zip_indices]
      exact hsorted rfl

/-- **An aligned window is sorted with its own entries of the tables.** -/
theorem mergeSort_aligned {n : Nat} (htotal : TotalPreorder (le compare)) {inArray : Bool} {X : List α}
    (h : Aligned compare inArray X) : ∀ {fuel lo : Nat} {A B A' B' : List α} {s : Arrays α},
    X.length ≤ fuel → lo = (if inArray then A.length else A'.length) → Bounded n s → s.dest = A ++ (X ++ B) →
    s.src = A' ++ (X ++ B') → A.length + X.length ≤ n → A'.length + X.length ≤ n → Fresh lo s X →
    Ensures (mergeSort compare fuel A.length (A.length + X.length : Nat) ((A'.length : Int) - A.length) s)
      (Thrown compare) (fun s' => ∃ D, AlignedSorted compare n lo A X B A' B' s s' D) := by
  induction h with
  | short hshort hsorted =>
    intro fuel lo A B A' B' s _ hlo hb hdest hsrc hn _ hfresh
    rw [mergeSort_short _ _ _ _ hshort]
    exact insertionSort_aligned htotal hlo hsorted hb hdest hsrc hn hfresh
  | @halves inArray X₁ X₂ hlong hhalf _ _ hle ih₁ ih₂ =>
    intro fuel lo A B A' B' s hfuel hlo hb hdest hsrc hn hn' hfresh
    rw [length_append] at hfuel hn hn'
    obtain ⟨fuel, rfl⟩ : ∃ f, fuel = f + 1 := ⟨fuel - 1, by omega⟩
    rw [length_append, mergeSort_halves fuel A.length A'.length s hlong hhalf]
    obtain ⟨hfresh₁, hfresh₂⟩ := hfresh.append
    -- The left half is sorted into the other array.
    have hlo₁ : lo = if (!inArray) then A'.length else A.length := by
      rw [hlo]
      cases inArray <;> rfl
    have hleft := @ih₁ fuel lo A' (X₂ ++ B') A (X₂ ++ B) s.swapRoles (by omega) hlo₁
      ⟨hb.permLength, hb.revLength, hb.perm, hb.rev⟩ (by simpa [Arrays.swapRoles] using hsrc)
      (by simpa [Arrays.swapRoles] using hdest) (by omega) (by omega) hfresh₁
    refine Ensures.bind hleft ?_
    rintro s₁ ⟨D₁, h₁⟩
    obtain ⟨Y₁, hsrc₁, hY₁⟩ := h₁.src
    have hD₁ := h₁.tracked.length
    have htracked₁ : Tracked lo s X₁ s₁ D₁ := ⟨h₁.tracked.perm, h₁.tracked.tagged, h₁.tracked.placed, h₁.tracked.frame⟩
    -- The right half.
    have hdest₁ : s₁.dest = (A' ++ D₁.map Prod.fst) ++ (X₂ ++ B') := by simpa using h₁.dest
    have hsrc₁' : s₁.src = (A ++ Y₁) ++ (X₂ ++ B) := by simpa using hsrc₁
    have hlo' : (A' ++ D₁.map Prod.fst).length = A'.length + X₁.length := by simp [hD₁]
    have hoff : (((A ++ Y₁).length : Nat) : Int) - ((A'.length + X₁.length : Nat) : Int) = (A.length : Int) - A'.length := by
      rw [length_append, hY₁]
      omega
    have hlo₂ : lo + X₁.length = if (!inArray) then (A' ++ D₁.map Prod.fst).length else (A ++ Y₁).length := by
      rw [hlo₁, hlo', length_append, hY₁]
      cases inArray <;> rfl
    have hright := @ih₂ fuel _ _ _ _ _ _ (by omega) hlo₂ h₁.bounded hdest₁ hsrc₁' (by rw [hlo']; omega)
      (by simp; omega) (hfresh₂.congr fun j hj _ => htracked₁.frame j (Or.inr hj))
    rw [hlo', hoff] at hright
    refine Ensures.bind hright ?_
    rintro s₂ ⟨D₂, h₂⟩
    obtain ⟨Y₂, hsrc₂, hY₂⟩ := h₂.src
    have hD₂ := h₂.tracked.length
    -- The halves are in order, so they are copied back.
    have hle' : ∀ x ∈ D₁.map Prod.fst, ∀ y ∈ D₂.map Prod.fst, le compare x y = true := fun x hx y hy =>
      hle x (h₁.tracked.fst_perm.mem_iff.mp hx) y (h₂.tracked.fst_perm.mem_iff.mp hy)
    have hcopy := @mergeHalves_inOrder _ compare A (Y₁ ++ Y₂) B A' (D₁.map Prod.fst) (D₂.map Prod.fst) B' s₂.swapRoles
      (ne_nil_of_length_pos (by simp; omega)) (ne_nil_of_length_pos (by simp; omega))
      (by simpa [Arrays.swapRoles] using h₂.dest) (by simpa [Arrays.swapRoles] using hsrc₂)
      (by simp [hY₁, hY₂, hD₁, hD₂]) hle'
    rw [length_map, length_map, hD₁, hD₂] at hcopy
    refine hcopy.mono ?_
    rintro s₃ rfl
    have htracked := htracked₁.append h₂.tracked
    refine ⟨D₁ ++ D₂, by simp, ?_, ⟨htracked.perm, htracked.tagged, htracked.placed, htracked.frame⟩,
      ⟨(D₁ ++ D₂).map Prod.fst, by simpa [Arrays.swapRoles] using h₂.dest, by simp [hD₁, hD₂]⟩,
      ⟨h₂.bounded.permLength, h₂.bounded.revLength, h₂.bounded.perm, h₂.bounded.rev⟩⟩
    rw [map_append]
    exact List.pairwise_append.mpr ⟨h₁.sorted, h₂.sorted, hle'⟩

/-! ### Reading the table of a range -/

theorem Tracked.place {lo : Nat} {s s' : Arrays α} {X : List α} {D : List (α × Int)}
    (h : Tracked lo s X s' D) {i : Nat}
    (hi : i < X.length) : ∃ k : Nat, s'.permutation[lo + i]? = some ((lo + k : Nat) : Int) ∧
      D[k]? = some (X[i], ((lo + i : Nat) : Int)) := by
  have hmem : (X[i], ((lo + i : Nat) : Int)) ∈ D := by
    refine h.perm.mem_iff.mpr (List.mem_iff_getElem?.mpr ⟨i, ?_⟩)
    rw [getElem?_zip_eq_some]
    exact ⟨getElem?_eq_getElem hi, getElem?_indices hi⟩
  obtain ⟨k, hk, hD⟩ := h.placed.index hmem
  exact ⟨k, hk, hD⟩

end

/-- What is expected of sorting the range from `lo` to `hi`. -/
structure RangeSorted (a : List Int) (lo hi : Nat) (r : List Int × List Int) : Prop where
  outside : ∀ j, j < lo ∨ hi ≤ j → r.1[j]? = a[j]?
  elements : ((r.1.drop lo).take (hi - lo)).Perm ((a.drop lo).take (hi - lo))
  sorted : ((r.1.drop lo).take (hi - lo)).Pairwise (· ≤ ·)
  length : r.2.length = hi - lo
  injective : r.2.Nodup
  range : ∀ k ∈ r.2, lo ≤ k ∧ k < hi
  moved : ∀ i k : Nat, lo ≤ i → i < hi → r.2[i - lo]? = some (k : Int) → r.1[k]? = a[i]?

theorem le_compareInts (x y : Int) : le compareInts x y = decide (x ≤ y) := by
  unfold le compareInts
  rcases Int.lt_trichotomy x y with h | h | h
  · simp [h, Int.le_of_lt h]
  · simp [h]
  · simp [Int.not_le.mpr h, Int.not_lt.mpr (Int.le_of_lt h), (Int.ne_of_lt h).symm]

theorem totalPreorder_compareInts : TotalPreorder (le compareInts) := by
  constructor
  · intro x y z hxy hyz
    rw [le_compareInts, decide_eq_true_eq] at *
    omega
  · intro x y
    rw [le_compareInts, le_compareInts, Bool.or_eq_true, decide_eq_true_eq, decide_eq_true_eq]
    omega

theorem not_thrown_compareInts (e : JavaException) : ¬ Thrown compareInts e := by
  rintro ⟨x, y, h⟩
  cases h

theorem rangeSorted_of_tracked {n : Nat} {A X B : List Int} {s s' : Arrays Int} {D : List (Int × Int)}
    (hdest : s'.dest = A ++ (D.map Prod.fst ++ B))
    (hsorted : (D.map Prod.fst).Pairwise fun x y => le compareInts x y = true)
    (htracked : Tracked A.length s X s' D) (hb : Bounded n s') (hn : A.length + X.length ≤ n) :
    RangeSorted (A ++ (X ++ B)) A.length (A.length + X.length)
      (s'.dest, (s'.permutation.drop A.length).take X.length) := by
  have hD := htracked.length
  have hfst : (D.map Prod.fst).length = X.length := by rw [length_map, hD]
  have hwindow : (s'.dest.drop A.length).take X.length = D.map Prod.fst := by
    rw [hdest, drop_left, ← hfst, take_left]
  have hbefore : ((A ++ (X ++ B)).drop A.length).take X.length = X := by
    rw [drop_left, take_left]
  have hsub : A.length + X.length - A.length = X.length := by omega
  have hlen : ((s'.permutation.drop A.length).take X.length).length = X.length := by
    rw [length_take, length_drop, hb.permLength]
    omega
  have hget : ∀ {i : Nat}, i < X.length →
      ((s'.permutation.drop A.length).take X.length)[i]? = s'.permutation[A.length + i]? := by
    intro i hi
    rw [getElem?_take_of_lt hi, getElem?_drop]
  refine ⟨?_, ?_, ?_, ?_, ?_, ?_, ?_⟩
  · intro j hj
    rw [hdest]
    rcases hj with hj | hj
    · rw [getElem?_append_left hj, getElem?_append_left hj]
    · rw [getElem?_append_right (by omega), getElem?_append_right (by omega),
        getElem?_append_right (by omega), getElem?_append_right (by omega), hfst]
  · rw [hsub, hwindow, hbefore]
    exact htracked.fst_perm
  · rw [hsub, hwindow]
    refine hsorted.imp fun {x y} hxy => ?_
    rwa [le_compareInts, decide_eq_true_eq] at hxy
  · rw [hsub, hlen]
  · rw [nodup_iff_injective_get]
    rintro ⟨i, hi⟩ ⟨j, hj⟩ heq
    rw [hlen] at hi hj
    obtain ⟨k, hk, hDk⟩ := htracked.place hi
    obtain ⟨l, hl, hDl⟩ := htracked.place hj
    rw [← hget hi] at hk
    rw [← hget hj] at hl
    simp only [get_eq_getElem] at heq
    rw [(List.getElem?_eq_some_iff.mp hk).2, (List.getElem?_eq_some_iff.mp hl).2] at heq
    obtain rfl : k = l := by omega
    rw [hDk, Option.some.injEq, Prod.mk.injEq] at hDl
    have hij : i = j := by omega
    exact Fin.ext hij
  · intro r hr
    obtain ⟨i, hi⟩ := List.mem_iff_getElem?.mp hr
    have hlt : i < X.length := hlen ▸ (List.getElem?_eq_some_iff.mp hi).1
    obtain ⟨k, hk, hDk⟩ := htracked.place hlt
    rw [hget hlt, hk, Option.some.injEq] at hi
    have := (List.getElem?_eq_some_iff.mp hDk).1
    omega
  · intro i m hlo hhi hm
    obtain ⟨k, hk, hDk⟩ := htracked.place (show i - A.length < X.length by omega)
    rw [hget (by omega), hk, Option.some.injEq, Int.natCast_inj] at hm
    subst hm
    have hDk' : (D.map Prod.fst)[k]? = some X[i - A.length] := by rw [getElem?_map, hDk]; rfl
    have hklt := (List.getElem?_eq_some_iff.mp hDk').1
    rw [hdest, getElem?_append_right (Nat.le_add_right _ _), Nat.add_sub_cancel_left,
      getElem?_append_left hklt, hDk', getElem?_append_right hlo, getElem?_append_left (by omega),
      getElem?_eq_getElem]

/-- **Sorting a range of `int`s**: the permutation is right if the range begins at 0 or is
aligned. -/
theorem sortInts_of_aligned (a : List Int) {lo hi : Nat} (hle : lo ≤ hi) (hhi : hi ≤ a.length)
    (h : lo = 0 ∨ Aligned compareInts true ((a.drop lo).take (hi - lo))) :
    ∃ r, sortInts a lo hi = .ok r ∧ RangeSorted a lo hi r := by
  obtain ⟨A, X, B, rfl, rfl, rfl⟩ : ∃ A X B, a = A ++ (X ++ B) ∧ lo = A.length ∧ hi = A.length + X.length := by
    refine ⟨a.take lo, (a.drop lo).take (hi - lo), (a.drop lo).drop (hi - lo), ?_, ?_, ?_⟩
    · rw [take_append_drop, take_append_drop]
    · rw [length_take_of_le (by omega)]
    · rw [length_take_of_le (by omega), length_take_of_le (by rw [length_drop]; omega)]
      omega
  have hcheck : rangeCheck (A ++ (X ++ B)).length (A.length : Int) (A.length + X.length : Nat) = .ok () := by
    rw [rangeCheck, if_neg (by omega), if_neg (by omega), if_neg (by omega)]
  have hsub : (((A.length + X.length : Nat) : Int) - A.length).toNat = X.length := by omega
  have haux : ((A ++ (X ++ B)).drop A.length).take X.length = X := by
    rw [drop_left, take_left]
  have hrange : A.length + X.length - A.length = X.length := by omega
  rw [hrange, haux] at h
  have hn : A.length + X.length ≤ (A ++ (X ++ B)).length := by simp
  have hb := @bounded_init _ X (A ++ (X ++ B)) (A ++ (X ++ B)).length
  have hfresh := @fresh_init_from _ X (A ++ (X ++ B)) _ X A.length hn
  have hsrc : X = [] ++ (X ++ []) := by simp
  have hoff : -(A.length : Int) = ((([] : List Int).length : Nat) : Int) - A.length := by simp
  have hsort : Ensures (mergeSort compareInts X.length A.length (A.length + X.length : Nat) (-(A.length : Int))
      ⟨X, A ++ (X ++ B), initPermutation (A ++ (X ++ B)).length, initPermutation (A ++ (X ++ B)).length⟩)
      (Thrown compareInts) (fun s' => RangeSorted (A ++ (X ++ B)) A.length (A.length + X.length)
        (s'.dest, (s'.permutation.drop A.length).take X.length)) := by
    rw [hoff]
    rcases h with hzero | haligned
    · obtain rfl : A = [] := List.length_eq_zero_iff.mp hzero
      refine (mergeSort_spec X.length (Nat.le_refl _) hb rfl hsrc hn hn).mono fun s' hs' => ?_
      obtain ⟨D, hdest, -, hsorted, htracked⟩ := hs'.dest
      exact rangeSorted_of_tracked hdest (hsorted totalPreorder_compareInts) (htracked rfl hfresh).1 hs'.bounded hn
    · refine (mergeSort_aligned totalPreorder_compareInts haligned (Nat.le_refl _) rfl hb rfl hsrc hn
        (Nat.le_trans (by simp) hn) hfresh).mono ?_
      rintro s' ⟨D, hs'⟩
      exact rangeSorted_of_tracked hs'.dest hs'.sorted hs'.tracked hs'.bounded hn
  obtain ⟨s', hs', hr⟩ := hsort.returns not_thrown_compareInts
  refine ⟨_, ?_, hr⟩
  rw [sortInts, sortRange, hcheck]
  simp only [hsub, Int.toNat_natCast, haux]
  rw [hs']
  rfl

/-- Four groups that are out of order, sorted where they stand. -/
theorem sortInts_groups : ∃ r, sortInts [9, 9, 3, 1, 2, 5, 4, 6, 7, 9, 8, 10, 13, 12, 11, 14, 0] 2 16 = .ok r ∧
      RangeSorted [9, 9, 3, 1, 2, 5, 4, 6, 7, 9, 8, 10, 13, 12, 11, 14, 0] 2 16 r := by
  have hleft : Aligned compareInts false ([3, 1, 2] ++ [5, 4, 6, 7]) :=
    .halves (by decide) rfl (.short (by decide) nofun) (.short (by decide) nofun) (by decide)
  have hright : Aligned compareInts false ([9, 8, 10] ++ [13, 12, 11, 14]) :=
    .halves (by decide) rfl (.short (by decide) nofun) (.short (by decide) nofun) (by decide)
  have h : Aligned compareInts true (([3, 1, 2] ++ [5, 4, 6, 7]) ++ ([9, 8, 10] ++ [13, 12, 11, 14])) :=
    .halves (by decide) rfl hleft hright (by decide)
  exact sortInts_of_aligned _ (by decide) (by decide) (Or.inr h)

/-- Seven elements behind the first, in descending order: the entries of the range are not a
permutation of it. -/
theorem sortInts_descending :
    ¬ ∃ r, sortInts [0, 7, 6, 5, 4, 3, 2, 1] 1 8 = .ok r ∧ RangeSorted [0, 7, 6, 5, 4, 3, 2, 1] 1 8 r := by
  rintro ⟨r, hr, h⟩
  obtain rfl := Except.ok.inj hr
  have hmoved := h.moved 1 6 (by decide) (by decide) (by decide)
  cases hmoved

end JavaFX.SortHelper
