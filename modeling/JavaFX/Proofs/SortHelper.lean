/-
The sort sorts, and its permutation says where every element went.

The arrays are cut into a window and what lies around it.  Inside the window every
element is paired with its entry of `reversePermutation`, its *tag*: the insertion
sort then permutes a list of pairs, and the merge is the merge of two lists of
pairs.  `permutation` is the inverse table; `Placed` says that it gives the place
of every tag.
-/
import JavaFX.Collections.SortHelper
import JavaFX.Lib.IndexTable
import JavaFX.Lib.StableSort
import Mathlib.Data.List.Induction

namespace JavaFX.SortHelper

open Outcome IndexTable StableSort List Int

variable {α : Type} {compare : α → α → Except JavaException Int}

/-- The order a comparison stands for. -/
def le (compare : α → α → Except JavaException Int) (x y : α) : Bool :=
  match compare x y with
  | .ok c => decide (c ≤ 0)
  | .error _ => true

structure TotalPreorder (r : α → α → Bool) : Prop where
  trans : ∀ x y z, r x y → r y z → r x z
  total : ∀ x y, r x y || r y x

/-- The order of tagged elements. -/
def leFst (compare : α → α → Except JavaException Int) (d e : α × Int) : Bool := le compare d.1 e.1

theorem TotalPreorder.pairs (h : TotalPreorder (le compare)) : TotalPreorder (leFst compare) :=
  ⟨fun d e f => h.trans d.1 e.1 f.1, fun d e => h.total d.1 e.1⟩

/-- The sort throws what the comparison throws, and nothing else. -/
def Thrown (compare : α → α → Except JavaException Int) (e : JavaException) : Prop :=
  ∃ x y, compare x y = .error e

theorem compare_ensures (x y : α) :
    Ensures (compare x y) (Thrown compare) (fun c => le compare x y = decide (c ≤ 0)) := by
  cases h : compare x y with
  | ok c => exact Ensures.ok (by rw [le, h])
  | error e => exact Ensures.error ⟨x, y, h⟩

/-! ### The two tables -/

/-- Both tables have `n` entries, all of them indices of the tables. -/
structure Bounded (n : Nat) (s : Arrays α) : Prop where
  permLength : s.permutation.length = n
  revLength : s.reversePermutation.length = n
  perm : ∀ r ∈ s.permutation, 0 ≤ r ∧ r < n
  rev : ∀ r ∈ s.reversePermutation, 0 ≤ r ∧ r < n

/-- `permutation` has the place of every tag of the window that starts at `lo`. -/
def Placed (permutation : List Int) : Nat → List (α × Int) → Prop
  | _, [] => True
  | lo, d :: D => permutation[d.2.toNat]? = some (lo : Int) ∧ Placed permutation (lo + 1) D

variable {permutation rev : List Int} {D : List (α × Int)} {d : α × Int} {x y : α} {len : Nat} {X src dest : List α}

theorem placed_append (V : List (α × Int)) : ∀ (U : List (α × Int)) {lo : Nat}, Placed permutation lo (U ++ V) ↔
      Placed permutation lo U ∧ Placed permutation (lo + U.length) V := by
  intro U
  induction U with
  | nil => intro lo; simp [Placed]
  | cons d U ih =>
    intro lo
    have hlen : lo + 1 + U.length = lo + (d :: U).length := by simp; omega
    rw [cons_append, Placed, Placed, ih, hlen, and_assoc]

theorem Placed.index : ∀ {D : List (α × Int)} {lo : Nat} {d : α × Int}, Placed permutation lo D → d ∈ D →
    ∃ k : Nat, permutation[d.2.toNat]? = some ((lo + k : Nat) : Int) ∧ D[k]? = some d := by
  intro D
  induction D with
  | nil => intro lo d _ hd; simp at hd
  | cons e D ih =>
    intro lo d h hd
    rcases List.mem_cons.mp hd with rfl | hd
    · exact ⟨0, h.1, rfl⟩
    · obtain ⟨k, hk, hget⟩ := ih h.2 hd
      refine ⟨k + 1, ?_, by simpa using hget⟩
      rw [hk]
      congr 2
      omega

theorem Placed.mem {lo : Nat} (h : Placed permutation lo D) (hd : d ∈ D) :
    ∃ k : Nat, permutation[d.2.toNat]? = some (k : Int) ∧ lo ≤ k ∧ k < lo + D.length := by
  obtain ⟨k, hk, hget⟩ := h.index hd
  have := (List.getElem?_eq_some_iff.mp hget).1
  exact ⟨lo + k, hk, by omega, by omega⟩

theorem Placed.congr {permutation' : List Int} : ∀ {D : List (α × Int)} {lo : Nat}, Placed permutation lo D →
    (∀ d ∈ D, permutation'[d.2.toNat]? = permutation[d.2.toNat]?) → Placed permutation' lo D := by
  intro D
  induction D with
  | nil => intro lo _ _; exact True.intro
  | cons e D ih =>
    intro lo h hsame
    exact ⟨by rw [hsame e (by simp)]; exact h.1, ih h.2 (fun d hd => hsame d (by simp [hd]))⟩

/-- The window of `dest` and the same window of `reversePermutation`. -/
structure Window (s : Arrays α) (A B : List α) (P Q : List Int) (D : List (α × Int)) : Prop where
  dest : s.dest = A ++ (D.map Prod.fst ++ B)
  rev : s.reversePermutation = P ++ (D.map Prod.snd ++ Q)
  low : P.length = A.length

/-- From `D` to `D'` the window was only rearranged. -/
structure Rearranged (n lo : Nat) (s : Arrays α) (D : List (α × Int)) (s' : Arrays α)
    (D' : List (α × Int)) : Prop where
  src : s'.src = s.src
  bounded : Bounded n s'
  perm : D'.Perm D
  placed : Placed s.permutation lo D → Placed s'.permutation lo D'
  frame : ∀ j : Nat, (∀ d ∈ D, d.2.toNat ≠ j) → s'.permutation[j]? = s.permutation[j]?

theorem Rearranged.refl {n lo : Nat} {s : Arrays α} (h : Bounded n s) : Rearranged n lo s D s D :=
  ⟨rfl, h, List.Perm.refl D, id, fun _ _ => rfl⟩

theorem Rearranged.trans {n lo : Nat} {s s' s'' : Arrays α} {D' D'' : List (α × Int)}
    (h : Rearranged n lo s D s' D') (h' : Rearranged n lo s' D' s'' D'') :
    Rearranged n lo s D s'' D'' where
  src := h'.src.trans h.src
  bounded := h'.bounded
  perm := h'.perm.trans h.perm
  placed hp := h'.placed (h.placed hp)
  frame j hj := by
    rw [h'.frame j (fun d hd => hj d (h.perm.mem_iff.mp hd)), h.frame j hj]

/-! ### The insertion sort -/

theorem swap_eq {s : Arrays α} {A B : List α} {P Q : List Int} {r t : Nat}
    (hd : s.dest = A ++ x :: y :: B) (hrev : s.reversePermutation = P ++ (r : Int) :: (t : Int) :: Q)
    (hlen : P.length = A.length) (hr : r < s.permutation.length) (ht : t < s.permutation.length) :
    swap (A.length + 1) A.length s = .ok { s with
      dest := A ++ y :: x :: B
      permutation := (s.permutation.set t A.length).set r (A.length + 1)
      reversePermutation := P ++ (t : Int) :: (r : Int) :: Q } := by
  have hr' : r < (s.permutation.set t (A.length : Int)).length := by simpa using hr
  have hget : getAt (P ++ (r : Int) :: (t : Int) :: Q) A.length = .ok (r : Int) := by
    rw [← hlen, getAt_append]
  have hget' : getAt (P ++ (r : Int) :: (t : Int) :: Q) (A.length + 1) = .ok (t : Int) := by
    rw [← hlen, getAt_append_succ]
  have hset : setAt (P ++ (r : Int) :: (t : Int) :: Q) (A.length + 1) (r : Int)
      = .ok (P ++ (r : Int) :: (r : Int) :: Q) := by
    rw [← hlen, setAt_append_succ]
  have hset' : setAt (P ++ (r : Int) :: (r : Int) :: Q) A.length (t : Int)
      = .ok (P ++ (t : Int) :: (r : Int) :: Q) := by
    rw [← hlen, setAt_append]
  simp only [swap, hd, hrev, bind, Except.bind, getAt_append, getAt_append_succ, setAt_append,
    setAt_append_succ, hget, hget', hset, hset', setAt_ofNat _ ht, setAt_ofNat _ hr']
  rfl

/-- Two neighbours change places in the window and in the table. -/
theorem placed_swap {lo r t : Nat} {U V : List (α × Int)}
    (hplaced : Placed permutation lo (U ++ (x, (r : Int)) :: (y, (t : Int)) :: V))
    (hr : r < permutation.length) (ht : t < permutation.length) :
    Placed ((permutation.set t (lo + U.length : Nat)).set r ((lo + U.length : Nat) + 1)) lo
      (U ++ (y, (t : Int)) :: (x, (r : Int)) :: V) := by
  rw [placed_append] at hplaced ⊢
  obtain ⟨hU, hd, he, hV⟩ := hplaced
  simp only [toNat_natCast] at hd he
  -- A tag with another place is neither of the two that are written.
  have hother : ∀ {τ : Int} {k : Nat}, permutation[τ.toNat]? = some (k : Int) →
      k ≠ lo + U.length → k ≠ lo + U.length + 1 →
      ((permutation.set t (lo + U.length : Nat)).set r ((lo + U.length : Nat) + 1))[τ.toNat]?
        = permutation[τ.toNat]? := by
    intro τ k hk h1 h2
    have hτr : r ≠ τ.toNat := by
      rintro rfl
      rw [hk] at hd
      simp at hd
      omega
    have hτt : t ≠ τ.toNat := by
      rintro rfl
      rw [hk] at he
      simp at he
      omega
    rw [getElem?_set_ne hτr, getElem?_set_ne hτt]
  have hrt : r ≠ t := by
    rintro rfl
    rw [hd, Option.some.injEq] at he
    omega
  refine ⟨hU.congr ?_, ?_, ?_, hV.congr ?_⟩
  · intro d hdU
    obtain ⟨k, hk, hlo, hhi⟩ := hU.mem hdU
    exact hother hk (by omega) (by omega)
  · rw [toNat_natCast, getElem?_set_ne hrt, getElem?_set_self ht]
  · rw [toNat_natCast, getElem?_set_self (by simpa using hr)]
    simp
  · intro d hdV
    obtain ⟨k, hk, hlo, hhi⟩ := hV.mem hdV
    exact hother hk (by omega) (by omega)

theorem swap_adjacent {n : Nat} {s : Arrays α} {A B : List α} {P Q : List Int}
    {U V : List (α × Int)} {e : α × Int} (hb : Bounded n s)
    (hw : Window s A B P Q (U ++ d :: e :: V)) :
    ∃ s', swap ((A.length + U.length : Nat) + 1) (A.length + U.length : Nat) s = .ok s' ∧
      Window s' A B P Q (U ++ e :: d :: V) ∧
      Rearranged n A.length s (U ++ d :: e :: V) s' (U ++ e :: d :: V) := by
  obtain ⟨x, r⟩ := d
  obtain ⟨y, t⟩ := e
  have hr := hb.rev r (by rw [hw.rev]; simp)
  have ht := hb.rev t (by rw [hw.rev]; simp)
  obtain ⟨r, rfl⟩ := eq_ofNat_of_zero_le hr.1
  obtain ⟨t, rfl⟩ := eq_ofNat_of_zero_le ht.1
  have hrn : r < s.permutation.length := by rw [hb.permLength]; omega
  have htn : t < s.permutation.length := by rw [hb.permLength]; omega
  have hswap := swap_eq (s := s) (A := A ++ U.map Prod.fst) (x := x) (y := y)
    (B := V.map Prod.fst ++ B) (P := P ++ U.map Prod.snd) (Q := V.map Prod.snd ++ Q)
    (by simpa using hw.dest) (by simpa using hw.rev) (by simp [hw.low]) hrn htn
  have hA : (A ++ U.map Prod.fst).length = A.length + U.length := by simp
  rw [hA] at hswap
  refine ⟨_, hswap, ⟨by simp, by simp, hw.low⟩, rfl, ?_, ?_, ?_, ?_⟩
  · refine ⟨by simpa using hb.permLength, ?_, ?_, ?_⟩
    · have := hb.revLength
      rw [hw.rev] at this
      simpa using this
    · have hlen : A.length + U.length + 1 < n := by
        have := hb.revLength
        rw [hw.rev] at this
        simp [hw.low] at this
        omega
      intro q hq
      rcases mem_or_eq_of_mem_set hq with hq | rfl
      · rcases mem_or_eq_of_mem_set hq with hq | rfl
        · exact hb.perm q hq
        · omega
      · omega
    · intro q hq
      refine hb.rev q ?_
      rw [hw.rev]
      simp at hq ⊢
      grind
  · exact (List.Perm.swap _ _ _).append_left U
  · exact fun hplaced => placed_swap hplaced hrn htn
  · intro j hj
    have hjr : r ≠ j := by simpa using hj (x, (r : Int)) (by simp)
    have hjt : t ≠ j := by simpa using hj (y, (t : Int)) (by simp)
    rw [getElem?_set_ne hjr, getElem?_set_ne hjt]

/-- Where the insertion loop leaves an element: behind the last one, from the right,
that is not greater. -/
theorem insertLoop_spec {n : Nat} {A B : List α} {P Q : List Int} : ∀ (U : List (α × Int))
    (d : α × Int) (V : List (α × Int)) (s : Arrays α), Bounded n s →
    Window s A B P Q (U ++ d :: V) →
    Ensures (insertLoop compare A.length U.length (A.length + U.length : Nat) s) (Thrown compare)
      (fun s' => ∃ U₁ U₂, U = U₁ ++ U₂ ∧ Window s' A B P Q (U₁ ++ d :: (U₂ ++ V)) ∧
        Rearranged n A.length s (U ++ d :: V) s' (U₁ ++ d :: (U₂ ++ V)) ∧
        (∀ e ∈ U₂, le compare e.1 d.1 = false) ∧ ∀ e ∈ U₁.getLast?, le compare e.1 d.1 = true) := by
  intro U
  induction U using reverseRecOn with
  | nil =>
    intro d V s hb hw
    exact Ensures.ok ⟨[], [], rfl, hw, Rearranged.refl hb, by simp, by simp⟩
  | append_singleton U e ih =>
    intro d V s hb hw
    have hw' : Window s A B P Q (U ++ e :: d :: V) := by simpa using hw
    have hget : getAt s.dest ((A.length + U.length : Nat) : Int) = .ok e.1 := by
      rw [hw'.dest]
      simpa using getAt_append (A ++ U.map Prod.fst) e.1 (d.1 :: (V.map Prod.fst ++ B))
    have hget' : getAt s.dest (((A.length + U.length : Nat) : Int) + 1) = .ok d.1 := by
      rw [hw'.dest]
      simpa using getAt_append_succ (A ++ U.map Prod.fst) e.1 d.1 (V.map Prod.fst ++ B)
    have hj : ((A.length + (U ++ [e]).length : Nat) : Int) = ((A.length + U.length : Nat) : Int) + 1 := by
      simp; omega
    have hlow : (A.length : Int) < ((A.length + U.length : Nat) : Int) + 1 := by omega
    rw [hj, length_append, length_singleton, insertLoop, if_pos hlow, Int.add_sub_cancel, hget, hget']
    show Ensures ((compare e.1 d.1).bind _) _ _
    refine Ensures.bind (compare_ensures e.1 d.1) fun c hc => ?_
    by_cases hpos : 0 < c
    · obtain ⟨s₁, hs₁, hw₁, hr₁⟩ := swap_adjacent hb hw'
      rw [if_pos hpos, hs₁]
      refine (ih d (e :: V) s₁ hr₁.bounded hw₁).mono fun s' h => ?_
      obtain ⟨U₁, U₂, rfl, hw₂, hr₂, hgt, hle⟩ := h
      have hr : Rearranged n A.length s ((U₁ ++ U₂) ++ [e] ++ d :: V) s₁ ((U₁ ++ U₂) ++ d :: e :: V) := by
        simpa using hr₁
      refine ⟨U₁, U₂ ++ [e], by simp, by simpa using hw₂, by simpa using hr.trans hr₂, ?_, hle⟩
      intro e' he'
      rcases List.mem_append.mp he' with he' | he'
      · exact hgt e' he'
      · obtain rfl : e' = e := by simpa using he'
        rw [hc]
        simpa using hpos
    · rw [if_neg hpos]
      refine Ensures.ok ⟨U ++ [e], [], by simp, by simpa using hw, Rearranged.refl hb, by simp, ?_⟩
      intro e' he'
      obtain rfl : e = e' := by simpa using he'
      rw [hc]
      simpa using hpos

/-- Putting an element where the insertion loop leaves it keeps a list in order. -/
theorem pairwise_insert {r : α → α → Bool} (hr : TotalPreorder r) {U₁ U₂ : List (α × Int)}
    (hU : (U₁ ++ U₂).Pairwise (fun d e => r d.1 e.1))
    (hgt : ∀ e ∈ U₂, r e.1 d.1 = false) (hle : ∀ e ∈ U₁.getLast?, r e.1 d.1 = true) :
    (U₁ ++ d :: U₂).Pairwise (fun d e => r d.1 e.1) := by
  obtain ⟨h₁, h₂, h₁₂⟩ := List.pairwise_append.mp hU
  have hd₂ : ∀ e ∈ U₂, r d.1 e.1 := by
    intro e he
    have := hr.total e.1 d.1
    rwa [hgt e he] at this
  have hd₁ : ∀ e ∈ U₁, r e.1 d.1 := by
    intro e he
    rcases eq_nil_or_concat U₁ with rfl | ⟨init, l, rfl⟩
    · simp at he
    · have hl : r l.1 d.1 := hle l (by simp)
      rw [concat_eq_append] at he h₁
      rcases List.mem_append.mp he with he | he
      · exact hr.trans _ _ _ ((List.pairwise_append.mp h₁).2.2 e he l (by simp)) hl
      · obtain rfl : e = l := by simpa using he
        exact hl
  refine List.pairwise_append.mpr ⟨h₁, List.pairwise_cons.mpr ⟨hd₂, h₂⟩, ?_⟩
  intro e he f hf
  rcases List.mem_cons.mp hf with rfl | hf
  · exact hd₁ e he
  · exact h₁₂ e he f hf

theorem insertionSort_spec {n : Nat} {A B : List α} {P Q : List Int}
    {s : Arrays α} (hb : Bounded n s) (hw : Window s A B P Q D) :
    Ensures (insertionSort compare A.length (A.length + D.length : Nat) s) (Thrown compare)
      (fun s' => ∃ D', Window s' A B P Q D' ∧ Rearranged n A.length s D s' D' ∧
        (TotalPreorder (le compare) → D'.Pairwise (fun d e => le compare d.1 e.1)) ∧
        (TotalPreorder (le compare) → KeepsTies (leFst compare) D D')) := by
  -- The first `i - low` pairs are in order; the others have not been touched.
  refine (forRange_ensures (fun i s' => ∃ S T, ((A.length + S.length : Nat) : Int) = i ∧
    Window s' A B P Q (S ++ T) ∧ Rearranged n A.length s D s' (S ++ T) ∧
    (TotalPreorder (le compare) → S.Pairwise (fun d e => le compare d.1 e.1)) ∧
    (TotalPreorder (le compare) → KeepsTies (leFst compare) D (S ++ T))) (by omega)
    ⟨[], D, by simp, hw, Rearranged.refl hb, by simp, fun _ => KeepsTies.refl D⟩ ?_).mono ?_
  · rintro i s' hlo hhi ⟨S, T, rfl, hw', hr', hs', ht'⟩
    have hlen := hr'.perm.length_eq
    cases T with
    | nil => simp at hlen; omega
    | cons d T =>
      have hfuel : (((A.length + S.length : Nat) : Int) - A.length).toNat = S.length := by omega
      rw [hfuel]
      refine (insertLoop_spec S d T s' hr'.bounded hw').mono fun s'' h => ?_
      obtain ⟨U₁, U₂, rfl, hw'', hr'', hgt, hle⟩ := h
      refine ⟨U₁ ++ d :: U₂, T, ?_, by simpa using hw'', by simpa using hr'.trans hr'', ?_, ?_⟩
      · simp; omega
      · exact fun ht => pairwise_insert ht (hs' ht) hgt hle
      · intro ht
        have hmove : KeepsTies (leFst compare) (U₂ ++ [d]) (d :: U₂) := keepsTies_move ht.pairs.trans hgt
        have hkept := ((KeepsTies.refl U₁).append hmove).append (KeepsTies.refl T)
        simpa using (ht' ht).trans (by simpa using hkept)
  · rintro s' ⟨S, T, hi, hw', hr', hs', ht'⟩
    have hlen := hr'.perm.length_eq
    rw [length_append] at hlen
    obtain rfl : T = [] := List.length_eq_zero_iff.mp (by omega)
    rw [append_nil] at hw' hr' ht'
    exact ⟨S, hw', hr', hs', ht'⟩

/-! ### The merge -/

/-- The two sorted halves, in `src` and with their tags. -/
structure Halves (n : Nat) (s : Arrays α) (A B : List α) (P Q : List Int)
    (D₁ D₂ : List (α × Int)) : Prop where
  src : s.src = A ++ ((D₁ ++ D₂).map Prod.fst ++ B)
  rev : s.reversePermutation = P ++ ((D₁ ++ D₂).map Prod.snd ++ Q)
  low : P.length = A.length
  tags : ∀ d ∈ D₁ ++ D₂, 0 ≤ d.2 ∧ d.2 < n

theorem Halves.left {n : Nat} {s : Arrays α} {A B : List α} {P Q : List Int}
    {L₀ L D₂ : List (α × Int)} (h : Halves n s A B P Q (L₀ ++ d :: L) D₂) :
    getAt s.src (A.length + L₀.length : Nat) = .ok d.1 ∧
      getAt s.reversePermutation (A.length + L₀.length : Nat) = .ok d.2 := by
  constructor
  · rw [h.src]
    simpa using getAt_append (A ++ L₀.map Prod.fst) d.1 (L.map Prod.fst ++ (D₂.map Prod.fst ++ B))
  · rw [h.rev, ← h.low]
    simpa using getAt_append (P ++ L₀.map Prod.snd) d.2 (L.map Prod.snd ++ (D₂.map Prod.snd ++ Q))

theorem Halves.right {n : Nat} {s : Arrays α} {A B : List α} {P Q : List Int}
    {D₁ R₀ R : List (α × Int)} (h : Halves n s A B P Q D₁ (R₀ ++ d :: R)) :
    getAt s.src (A.length + D₁.length + R₀.length : Nat) = .ok d.1 ∧
      getAt s.reversePermutation (A.length + D₁.length + R₀.length : Nat) = .ok d.2 := by
  have h' : Halves n s A B P Q ((D₁ ++ R₀) ++ d :: R) [] :=
    ⟨by simpa using h.src, by simpa using h.rev, h.low, by simpa using h.tags⟩
  simpa [Nat.add_assoc] using h'.left

/-- The merge of the two halves. -/
def merged (compare : α → α → Except JavaException Int) (L R : List (α × Int)) : List (α × Int) :=
  L.merge R (fun d e => le compare d.1 e.1)

/-- A moment of the merge: `M` has been written, `L` and `R` are left of the halves. -/
structure Merging (compare : α → α → Except JavaException Int) (n : Nat) (s : Arrays α)
    (A B : List α) (lo : Nat) (D₁ D₂ : List (α × Int)) (s' : Arrays α × Int × Int)
    (M L R : List (α × Int)) : Prop where
  src : s'.1.src = s.src
  rev : s'.1.reversePermutation = s.reversePermutation
  dest : ∃ Y, s'.1.dest = A ++ (M.map Prod.fst ++ (Y ++ B)) ∧ Y.length = L.length + R.length
  left : ∃ L₀, D₁ = L₀ ++ L ∧ s'.2.1 = (lo + L₀.length : Nat)
  right : ∃ R₀, D₂ = R₀ ++ R ∧ s'.2.2 = (lo + D₁.length + R₀.length : Nat)
  merge : M ++ merged compare L R = merged compare D₁ D₂
  bounded : Bounded n s'.1
  placed : ((D₁ ++ D₂).map (fun d => d.2.toNat)).Nodup → Placed s'.1.permutation A.length M
  frame : ∀ j : Nat, (∀ d ∈ D₁ ++ D₂, d.2.toNat ≠ j) → s'.1.permutation[j]? = s.permutation[j]?

section
variable {n lo : Nat} {s s' : Arrays α} {A B : List α} {D₁ D₂ M L R : List (α × Int)} {p q : Int}

theorem Merging.length (h : Merging compare n s A B lo D₁ D₂ (s', p, q) M L R) :
    M.length + L.length + R.length = D₁.length + D₂.length := by
  have := congrArg List.length h.merge
  simp [merged] at this
  omega

variable {d : α × Int}

theorem Merging.write (h : Merging compare n s A B lo D₁ D₂ (s', p, q) M L R) {L' R' : List (α × Int)} {p' q' : Int}
    (hd : d ∈ D₁ ++ D₂) (htag : 0 ≤ d.2 ∧ d.2 < n) (hn : A.length + M.length < n)
    (hnext : merged compare L R = d :: merged compare L' R')
    (hL : ∃ L₀, D₁ = L₀ ++ L' ∧ p' = (lo + L₀.length : Nat))
    (hR : ∃ R₀, D₂ = R₀ ++ R' ∧ q' = (lo + D₁.length + R₀.length : Nat)) :
    ∃ dest permutation, setAt s'.dest (A.length + M.length : Nat) d.1 = .ok dest ∧
      setAt s'.permutation d.2 (A.length + M.length : Nat) = .ok permutation ∧
      Merging compare n s A B lo D₁ D₂ ({ s' with dest, permutation }, p', q') (M ++ [d]) L' R' := by
  obtain ⟨Y, hdest, hY⟩ := h.dest
  have hlen : L.length + R.length = L'.length + R'.length + 1 := by
    have := congrArg List.length hnext
    simpa [merged] using this
  obtain ⟨t, ht⟩ := eq_ofNat_of_zero_le htag.1
  have htt : d.2.toNat = t := by omega
  have htn : t < s'.permutation.length := by rw [h.bounded.permLength]; omega
  cases Y with
  | nil => simp at hY; omega
  | cons y Y =>
    refine ⟨A ++ ((M ++ [d]).map Prod.fst ++ (Y ++ B)),
      s'.permutation.set t (A.length + M.length : Nat), ?_, by rw [ht, setAt_ofNat _ htn], h.src,
      h.rev, ⟨Y, rfl, ?_⟩, hL, hR, ?_, ?_, ?_, ?_⟩
    · rw [hdest]
      simpa using setAt_append (A ++ M.map Prod.fst) y (Y ++ B) d.1
    · simp at hY
      omega
    · rw [append_assoc, singleton_append, ← hnext, h.merge]
    · refine ⟨by simpa using h.bounded.permLength, h.bounded.revLength, ?_, h.bounded.rev⟩
      intro r hr
      rcases mem_or_eq_of_mem_set hr with hr | rfl
      · exact h.bounded.perm r hr
      · omega
    · intro hnodup
      have hout : ((M ++ d :: merged compare L' R').map (fun d => d.2.toNat)).Nodup := by
        rw [← hnext, h.merge]
        exact (List.Perm.map _ (merge_perm_append _)).nodup_iff.mpr hnodup
      rw [placed_append]
      refine ⟨(h.placed hnodup).congr ?_, ?_, True.intro⟩
      · intro e he
        refine getElem?_set_ne ?_
        rw [map_append] at hout
        have hne := (List.nodup_append.mp hout).2.2 e.2.toNat (mem_map_of_mem he) d.2.toNat (by simp)
        rw [htt] at hne
        exact hne.symm
      · rw [htt, getElem?_set_self htn]
    · intro j hj
      have := hj d hd
      rw [htt] at this
      exact (getElem?_set_ne this).trans (h.frame j hj)

variable {A' B' : List α} {P Q : List Int}

section

variable (hh : Halves n s A' B' P Q D₁ D₂) (hn : A.length + M.length < n)
include hh hn

theorem Merging.takeLeft (h : Merging compare n s A B A'.length D₁ D₂ (s', p, q) M (d :: L) R)
    (hnext : merged compare (d :: L) R = d :: merged compare L R) :
    ∃ r, mergeTake true (A.length + M.length : Nat) (s', p, q) = .ok r ∧
      Merging compare n s A B A'.length D₁ D₂ r (M ++ [d]) L R := by
  obtain ⟨L₀, rfl, hp⟩ := h.left
  obtain ⟨hget, hget'⟩ := hh.left
  have hmem : d ∈ L₀ ++ d :: L ++ D₂ := by simp
  have hleft : ∃ L₁, L₀ ++ d :: L = L₁ ++ L ∧ p + 1 = (A'.length + L₁.length : Nat) :=
    ⟨L₀ ++ [d], by simp, by simp only at hp; simp; omega⟩
  obtain ⟨dest, permutation, h₁, h₂, hm⟩ := h.write hmem (hh.tags d hmem) hn hnext hleft h.right
  refine ⟨_, ?_, hm⟩
  have hsrc := h.src
  have hrev := h.rev
  simp only at hp hsrc hrev
  simp only [mergeTake, if_true, hp, hsrc, hrev, hget, hget', h₁, h₂, bind, Except.bind]
  rfl

theorem Merging.takeRight (h : Merging compare n s A B A'.length D₁ D₂ (s', p, q) M L (d :: R))
    (hnext : merged compare L (d :: R) = d :: merged compare L R) :
    ∃ r, mergeTake false (A.length + M.length : Nat) (s', p, q) = .ok r ∧
      Merging compare n s A B A'.length D₁ D₂ r (M ++ [d]) L R := by
  obtain ⟨R₀, rfl, hq⟩ := h.right
  obtain ⟨hget, hget'⟩ := hh.right
  have hmem : d ∈ D₁ ++ (R₀ ++ d :: R) := by simp
  have hright : ∃ R₁, R₀ ++ d :: R = R₁ ++ R ∧ q + 1 = (A'.length + D₁.length + R₁.length : Nat) :=
    ⟨R₀ ++ [d], by simp, by simp only at hq; simp; omega⟩
  obtain ⟨dest, permutation, h₁, h₂, hm⟩ := h.write hmem (hh.tags d hmem) hn hnext h.left hright
  refine ⟨_, ?_, hm⟩
  have hsrc := h.src
  have hrev := h.rev
  simp only at hq hsrc hrev
  simp only [mergeTake, Bool.false_eq_true, if_false, hq, hsrc, hrev, hget, hget', h₁, h₂, bind, Except.bind]
  rfl

theorem mergeStep_spec (h : Merging compare n s A B A'.length D₁ D₂ (s', p, q) M L R)
    (hrest : 0 < L.length + R.length) :
    Ensures (mergeStep compare (A'.length + D₁.length : Nat)
        (A'.length + D₁.length + D₂.length : Nat) (A.length + M.length : Nat) (s', p, q))
      (Thrown compare)
      (fun r => ∃ d L' R', Merging compare n s A B A'.length D₁ D₂ r (M ++ [d]) L' R') := by
  obtain ⟨L₀, hL₀, hp⟩ := h.left
  obtain ⟨R₀, hR₀, hq⟩ := h.right
  have hsrc := h.src
  simp only at hp hq hsrc
  cases R with
  | nil =>
    cases L with
    | nil => simp at hrest
    | cons d L =>
      obtain ⟨r, hr, hm⟩ := h.takeLeft hh hn (by simp [merged])
      have hge : q ≥ ((A'.length + D₁.length + D₂.length : Nat) : Int) := by
        rw [hq, hR₀]; simp
      rw [mergeStep, if_pos hge, hr]
      exact Ensures.ok ⟨d, L, [], hm⟩
  | cons e R =>
    have hlt : ¬ q ≥ ((A'.length + D₁.length + D₂.length : Nat) : Int) := by
      rw [hR₀, length_append, length_cons]
      omega
    cases L with
    | nil =>
      obtain ⟨r, hr, hm⟩ := h.takeRight hh hn (by simp [merged])
      have hge : ¬ p < ((A'.length + D₁.length : Nat) : Int) := by
        rw [hp, hL₀]; simp
      rw [mergeStep, if_neg hlt, if_neg hge, hr]
      exact Ensures.ok ⟨e, [], R, hm⟩
    | cons d L =>
      have hlt' : p < ((A'.length + D₁.length : Nat) : Int) := by
        rw [hL₀, length_append, length_cons]
        omega
      have hgetp : getAt s'.src p = .ok d.1 := by
        rw [hsrc, hp]
        exact (hL₀ ▸ hh : Halves n s A' B' P Q (L₀ ++ d :: L) D₂).left.1
      have hgetq : getAt s'.src q = .ok e.1 := by
        rw [hsrc, hq]
        exact (hR₀ ▸ hh : Halves n s A' B' P Q D₁ (R₀ ++ e :: R)).right.1
      rw [mergeStep, if_neg hlt, if_pos hlt', hgetp, hgetq]
      show Ensures ((compare d.1 e.1).bind _) _ _
      refine Ensures.bind (compare_ensures d.1 e.1) fun c hc => ?_
      by_cases hle : c ≤ 0
      · obtain ⟨r, hr, hm⟩ := h.takeLeft hh hn (by simp [merged, hc, hle])
        rw [decide_eq_true hle, hr]
        exact Ensures.ok ⟨d, L, e :: R, hm⟩
      · obtain ⟨r, hr, hm⟩ := h.takeRight hh hn (by simp [merged, hc, hle])
        rw [decide_eq_false hle, hr]
        exact Ensures.ok ⟨e, d :: L, R, hm⟩

end

theorem mergeLoop_spec {Y : List α} (hh : Halves n s A' B' P Q D₁ D₂) (hb : Bounded n s)
    (hdest : s.dest = A ++ (Y ++ B)) (hY : Y.length = D₁.length + D₂.length)
    (hn : A.length + Y.length ≤ n) :
    Ensures (forRange A.length (A.length + Y.length : Nat) (mergeStep compare
        (A'.length + D₁.length : Nat) (A'.length + D₁.length + D₂.length : Nat))
        (s, (A'.length : Int), ((A'.length + D₁.length : Nat) : Int))) (Thrown compare)
      (fun r => Merging compare n s A B A'.length D₁ D₂ r (merged compare D₁ D₂) [] []) := by
  refine (forRange_ensures (fun i r => ∃ M L R, ((A.length + M.length : Nat) : Int) = i ∧
    Merging compare n s A B A'.length D₁ D₂ r M L R) (by omega) ⟨[], D₁, D₂, by simp, ?_⟩ ?_).mono ?_
  · exact ⟨rfl, rfl, ⟨Y, by simpa using hdest, hY⟩, ⟨[], by simp, by simp⟩, ⟨[], by simp, by simp⟩,
      rfl, hb, fun _ => True.intro, fun _ _ => rfl⟩
  · rintro i ⟨s', p, q⟩ hlo hhi ⟨M, L, R, rfl, h⟩
    have hlen := h.length
    refine (mergeStep_spec hh (by omega) h (by omega)).mono ?_
    rintro r ⟨d, L', R', hm⟩
    exact ⟨M ++ [d], L', R', by simp; omega, hm⟩
  · rintro ⟨s', p, q⟩ ⟨M, L, R, hi, h⟩
    have hlen := h.length
    obtain rfl : L = [] := List.length_eq_zero_iff.mp (by omega)
    obtain rfl : R = [] := List.length_eq_zero_iff.mp (by omega)
    have hM : M = merged compare D₁ D₂ := by simpa [merged] using h.merge
    exact hM ▸ h

end

/-- `reversePermutation` has the tags of the window that starts at `lo`. -/
def Tagged (reversePermutation : List Int) : Nat → List (α × Int) → Prop
  | _, [] => True
  | lo, d :: D => reversePermutation[lo]? = some d.2 ∧ Tagged reversePermutation (lo + 1) D

theorem tagged_append (V : List (α × Int)) : ∀ (U : List (α × Int)) {lo : Nat},
    Tagged rev lo (U ++ V) ↔ Tagged rev lo U ∧ Tagged rev (lo + U.length) V := by
  intro U
  induction U with
  | nil => intro lo; simp [Tagged]
  | cons d U ih =>
    intro lo
    have hlen : lo + 1 + U.length = lo + (d :: U).length := by simp; omega
    rw [cons_append, Tagged, Tagged, ih, hlen, and_assoc]

theorem Tagged.congr {rev' : List Int} : ∀ {D : List (α × Int)} {lo : Nat}, Tagged rev lo D →
    (∀ j, lo ≤ j → j < lo + D.length → rev'[j]? = rev[j]?) → Tagged rev' lo D := by
  intro D
  induction D with
  | nil => intro lo _ _; exact True.intro
  | cons d D ih =>
    intro lo h hsame
    refine ⟨by rw [hsame lo (by omega) (by simp)]; exact h.1, ih h.2 fun j hlo hhi => ?_⟩
    exact hsame j (by omega) (by simp at hhi ⊢; omega)

theorem tagged_of_split (Q : List Int) : ∀ (D : List (α × Int)) (P' : List Int),
    Tagged (P' ++ (D.map Prod.snd ++ Q)) P'.length D := by
  intro D
  induction D with
  | nil => intro P'; exact True.intro
  | cons d D ih =>
    intro P'
    refine ⟨by simp, ?_⟩
    simpa using ih (P' ++ [d.2])

/-! ### Inverting the table -/

/-- `permutation` sends no two indices of the window to one place. -/
def Injective (permutation : List Int) (lo hi : Nat) : Prop :=
  ∀ k k' : Nat, lo ≤ k → k < hi → lo ≤ k' → k' < hi → permutation[k]? = permutation[k']? → k = k'

/-- After the indices below `hi` of the window, the inverse table is right about
them and has not changed anywhere else. -/
structure Inverting (n lo len : Nat) (s : Arrays α) (hi : Int) (s' : Arrays α) : Prop where
  same : s' = { s with reversePermutation := s'.reversePermutation }
  bounded : Bounded n s'
  frame : ∀ j : Nat, (∀ k : Nat, lo ≤ k → (k : Int) < hi → s.permutation[k]? ≠ some (j : Int)) →
    s'.reversePermutation[j]? = s.reversePermutation[j]?
  inverse : Injective s.permutation lo (lo + len) → ∀ k j : Nat, lo ≤ k → (k : Int) < hi →
    s.permutation[k]? = some (j : Int) → s'.reversePermutation[j]? = some (k : Int)

theorem invert_spec {n lo : Nat} {s : Arrays α} (hb : Bounded n s) (hn : lo + len ≤ n) :
    ∃ s', invert lo (lo + len : Nat) s = .ok s' ∧ Inverting n lo len s (lo + len : Nat) s' := by
  refine forRange_inv (Inverting n lo len s) (by omega) ⟨rfl, hb, fun _ _ => rfl, by intro _ k j h1 h2; omega⟩ ?_
  intro i s' hlo hhi h
  obtain ⟨i, rfl⟩ := eq_ofNat_of_zero_le (by omega : (0 : Int) ≤ i)
  have hperm : s'.permutation = s.permutation := by rw [h.same]
  have hi : i < s'.permutation.length := by rw [h.bounded.permLength]; omega
  obtain ⟨j, hj⟩ := eq_ofNat_of_zero_le (h.bounded.perm _ (getElem_mem hi)).1
  have hjn := (h.bounded.perm _ (getElem_mem hi)).2
  rw [hj] at hjn
  have hjlen : j < s'.reversePermutation.length := by rw [h.bounded.revLength]; omega
  have hget : s.permutation[i]? = some (j : Int) := by
    rw [← hperm, getElem?_eq_getElem hi, hj]
  refine ⟨{ s' with reversePermutation := s'.reversePermutation.set j i }, ?_, ?_, ?_, ?_, ?_⟩
  · simp only [getAt_ofNat hi, hj, setAt_ofNat _ hjlen, bind, Except.bind]
    rfl
  · rw [h.same]
  · refine ⟨h.bounded.permLength, by simpa using h.bounded.revLength, h.bounded.perm, ?_⟩
    intro r hr
    rcases mem_or_eq_of_mem_set hr with hr | rfl
    · exact h.bounded.rev r hr
    · omega
  · intro k hk
    have hne : j ≠ k := by
      rintro rfl
      exact hk i (by omega) (by omega) hget
    rw [getElem?_set_ne hne]
    exact h.frame k (fun m h1 h2 => hk m h1 (by omega))
  · intro hinj k m h1 h2 hkm
    show (s'.reversePermutation.set j i)[m]? = _
    by_cases hki : k = i
    · subst hki
      rw [hget, Option.some.injEq, natCast_inj] at hkm
      subst hkm
      rw [getElem?_set_self hjlen]
    · have hne : j ≠ m := by
        rintro rfl
        exact hki (hinj k i h1 (by omega) (by omega) (by omega) (by rw [hkm, hget]))
      rw [getElem?_set_ne hne]
      exact h.inverse hinj k m h1 (by omega) hkm

theorem Placed.inj : ∀ {D : List (α × Int)} {lo : Nat} {d e : α × Int}, Placed permutation lo D → d ∈ D → e ∈ D →
    permutation[d.2.toNat]? = permutation[e.2.toNat]? → d = e := by
  intro D
  induction D with
  | nil => intro lo d e _ hd; simp at hd
  | cons f D ih =>
    intro lo d e h hd he heq
    rcases List.mem_cons.mp hd with rfl | hd'
    · rcases List.mem_cons.mp he with rfl | he'
      · rfl
      · obtain ⟨k, hk, hlo, -⟩ := h.2.mem he'
        rw [h.1, hk, Option.some.injEq] at heq
        omega
    · rcases List.mem_cons.mp he with rfl | he'
      · obtain ⟨k, hk, hlo, -⟩ := h.2.mem hd'
        rw [h.1, hk, Option.some.injEq] at heq
        omega
      · exact ih h.2 hd' he' heq

theorem Placed.tagged : ∀ {D : List (α × Int)} {lo : Nat}, Placed permutation lo D →
    (∀ d ∈ D, ∀ k : Nat, permutation[d.2.toNat]? = some (k : Int) → rev[k]? = some d.2) →
    Tagged rev lo D := by
  intro D
  induction D with
  | nil => intro lo _ _; exact True.intro
  | cons d D ih =>
    intro lo h hinv
    exact ⟨hinv d (by simp) lo h.1, ih h.2 (fun e he => hinv e (by simp [he]))⟩

/-- Inverting the table of a window that was only rearranged. -/
theorem Inverting.tagged {n lo : Nat} {s s' : Arrays α}
    (h : Inverting n lo len s (lo + len : Nat) s') (hplaced : Placed s.permutation lo D)
    (htags : (D.map Prod.snd).Perm (indices lo len)) :
    Tagged s'.reversePermutation lo D ∧
      ∀ j, (j < lo ∨ lo + len ≤ j) → s'.reversePermutation[j]? = s.reversePermutation[j]? := by
  have hlen : D.length = len := by simpa using htags.length_eq
  -- Every index of the window is the tag of a pair.
  have hpair : ∀ k : Nat, lo ≤ k → k < lo + len → ∃ d ∈ D, d.2 = k := by
    intro k h1 h2
    have : (k : Int) ∈ D.map Prod.snd := htags.mem_iff.mpr (mem_indices.mpr ⟨k, rfl, h1, h2⟩)
    simpa using this
  have hinj : Injective s.permutation lo (lo + len) := by
    intro k k' h1 h2 h1' h2' heq
    obtain ⟨d, hd, hdk⟩ := hpair k h1 h2
    obtain ⟨e, he, hek⟩ := hpair k' h1' h2'
    have := hplaced.inj hd he (by simpa [hdk, hek] using heq)
    rw [this, hek, natCast_inj] at hdk
    exact hdk.symm
  constructor
  · refine hplaced.tagged fun d hd k hk => ?_
    obtain ⟨t, ht, h1, h2⟩ := mem_indices.mp (htags.mem_iff.mp (mem_map_of_mem hd))
    rw [ht] at hk ⊢
    exact h.inverse hinj t k h1 (by omega) hk
  · intro j hj
    refine h.frame j fun k h1 h2 heq => ?_
    obtain ⟨d, hd, hdk⟩ := hpair k h1 (by omega)
    obtain ⟨m, hm, hlo, hhi⟩ := hplaced.mem hd
    rw [hdk, toNat_natCast, heq, Option.some.injEq] at hm
    omega

/-! ### The merge sort -/

/-- Where the elements of a window went: `D` pairs the elements of the new window
with the indices they had. -/
structure Tracked (lo : Nat) (s : Arrays α) (X : List α) (s' : Arrays α) (D : List (α × Int)) :
    Prop where
  perm : D.Perm (X.zip (indices lo X.length))
  tagged : Tagged s'.reversePermutation lo D
  placed : Placed s'.permutation lo D
  frame : ∀ j, (j < lo ∨ lo + X.length ≤ j) → s'.permutation[j]? = s.permutation[j]? ∧
    s'.reversePermutation[j]? = s.reversePermutation[j]?

/-- Nothing of the window has moved yet: every element has its own index. -/
def Fresh (lo : Nat) (s : Arrays α) (X : List α) : Prop :=
  Tagged s.reversePermutation lo (X.zip (indices lo X.length)) ∧ Placed s.permutation lo (X.zip (indices lo X.length))

/-- What sorting the window `X` comes to. -/
structure WindowSorted (compare : α → α → Except JavaException Int) (n : Nat) (A X B A' B' : List α)
    (s s' : Arrays α) : Prop where
  dest : ∃ D, s'.dest = A ++ (D.map Prod.fst ++ B) ∧ (D.map Prod.fst).Perm X ∧
    (TotalPreorder (le compare) → (D.map Prod.fst).Pairwise (fun x y => le compare x y)) ∧
    (A'.length = A.length → Fresh A.length s X → Tracked A.length s X s' D ∧
      (TotalPreorder (le compare) → KeepsTies (leFst compare) (X.zip (indices A.length X.length)) D))
  src : ∃ Y, s'.src = A' ++ (Y ++ B') ∧ Y.length = X.length
  bounded : Bounded n s'

theorem exists_window (rev : List Int) (X : List α) (lo : Nat) (hlen : lo + X.length ≤ rev.length) :
    ∃ D : List (α × Int), D.map Prod.fst = X ∧ Tagged rev lo D ∧
      rev = rev.take lo ++ (D.map Prod.snd ++ rev.drop (lo + D.length)) := by
  have hT : ((rev.drop lo).take X.length).length = X.length := by simp; omega
  have hsnd : (X.zip ((rev.drop lo).take X.length)).map Prod.snd = (rev.drop lo).take X.length :=
    map_snd_zip (Nat.le_of_eq hT)
  have hlenD : (X.zip ((rev.drop lo).take X.length)).length = X.length := by
    rw [length_zip, hT, Nat.min_self]
  have hsplit : rev = rev.take lo ++ ((X.zip ((rev.drop lo).take X.length)).map Prod.snd
      ++ rev.drop (lo + X.length)) := by
    rw [hsnd, ← drop_drop, take_append_drop, take_append_drop]
  refine ⟨X.zip ((rev.drop lo).take X.length), map_fst_zip (Nat.le_of_eq hT.symm), ?_, by rwa [hlenD]⟩
  have := tagged_of_split (rev.drop (lo + X.length)) (X.zip ((rev.drop lo).take X.length)) (rev.take lo)
  rwa [← hsplit, length_take_of_le (by omega)] at this

theorem Tagged.unique : ∀ {D D' : List (α × Int)} {lo : Nat}, Tagged rev lo D →
    Tagged rev lo D' → D.map Prod.fst = D'.map Prod.fst → D = D' := by
  intro D
  induction D with
  | nil =>
    intro D' lo _ _ hfst
    cases D' with
    | nil => rfl
    | cons d' D' => simp at hfst
  | cons d D ih =>
    intro D' lo h h' hfst
    cases D' with
    | nil => simp at hfst
    | cons d' D' =>
      rw [map_cons, map_cons, List.cons.injEq] at hfst
      have htag : d.2 = d'.2 := by
        have := h.1.symm.trans h'.1
        simpa using this
      rw [ih h.2 h'.2 hfst.2, Prod.ext hfst.1 htag]

theorem getElem?_outside {β : Type} {lo j : Nat} (l V : List β) (hV : V.length = len)
    (hlen : lo + len ≤ l.length) (hj : j < lo ∨ lo + len ≤ j) :
    (l.take lo ++ (V ++ l.drop (lo + len)))[j]? = l[j]? := by
  rcases hj with hj | hj
  · rw [getElem?_append_left (by simp; omega), getElem?_take_of_lt hj]
  · rw [getElem?_append_right (by simp; omega), getElem?_append_right (by simp; omega),
      getElem?_drop, length_take_of_le (by omega)]
    congr 1
    omega

theorem mem_zip_indices {lo : Nat} (hd : d ∈ X.zip (indices lo X.length)) :
    ∃ k : Nat, d.2 = k ∧ lo ≤ k ∧ k < lo + X.length :=
  mem_indices.mp (of_mem_zip hd).2

theorem map_fst_zip_indices (X : List α) (lo : Nat) : (X.zip (indices lo X.length)).map Prod.fst = X :=
  map_fst_zip (by simp)

/-- The insertion sort works inside its window of `dest`, whatever stands in `src`. -/
theorem insertionSort_window {n : Nat} {A B : List α} {s : Arrays α} (hb : Bounded n s)
    (hdest : s.dest = A ++ (X ++ B)) (hn : A.length + X.length ≤ n) :
    Ensures (insertionSort compare A.length (A.length + X.length : Nat) s) (Thrown compare)
      (fun s' => ∃ D, s'.dest = A ++ (D.map Prod.fst ++ B) ∧ (D.map Prod.fst).Perm X ∧
        (TotalPreorder (le compare) → (D.map Prod.fst).Pairwise (fun x y => le compare x y)) ∧
        (Fresh A.length s X → Tracked A.length s X s' D ∧
          (TotalPreorder (le compare) → KeepsTies (leFst compare) (X.zip (indices A.length X.length)) D)) ∧
        s'.src = s.src ∧ Bounded n s') := by
  obtain ⟨D, hfst, htag, hsplit⟩ := exists_window s.reversePermutation X A.length (by rw [hb.revLength]; exact hn)
  have hlen : D.length = X.length := by rw [← hfst, length_map]
  have hlow : (s.reversePermutation.take A.length).length = A.length := by
    rw [length_take_of_le]
    rw [hb.revLength]
    omega
  have hsort := @insertionSort_spec _ compare _ _ _ _ _ _ _ hb ⟨by rw [hfst]; exact hdest, hsplit, hlow⟩
  rw [hlen] at hsort
  refine hsort.mono ?_
  rintro s' ⟨D', hw', hr', hsorted, hkept⟩
  refine ⟨D', hw'.dest, hfst ▸ hr'.perm.map _, fun ht => List.pairwise_map.mpr (hsorted ht), ?_, hr'.src, hr'.bounded⟩
  rintro ⟨hfresh, hplaced⟩
  obtain rfl : D = X.zip (indices A.length X.length) :=
    htag.unique hfresh (by rw [hfst, map_fst_zip_indices])
  have hlen' := hr'.perm.length_eq
  refine ⟨⟨hr'.perm, ?_, hr'.placed hplaced, ?_⟩, hkept⟩
  · rw [hw'.rev]
    have := tagged_of_split (s.reversePermutation.drop (A.length + X.length)) D' (s.reversePermutation.take A.length)
    rwa [hlow] at this
  · intro j hj
    constructor
    · refine hr'.frame j fun d hd => ?_
      obtain ⟨k, hk, h1, h2⟩ := mem_zip_indices hd
      omega
    · rw [hw'.rev]
      refine getElem?_outside _ _ ?_ (by simpa [hb.revLength] using hn) hj
      rw [length_map, hlen', hlen]

theorem insertionSort_outcome {n : Nat} {A B A' B' : List α} {s : Arrays α} (hb : Bounded n s)
    (hdest : s.dest = A ++ (X ++ B)) (hsrc : s.src = A' ++ (X ++ B')) (hn : A.length + X.length ≤ n) :
    Ensures (insertionSort compare A.length (A.length + X.length : Nat) s) (Thrown compare)
      (WindowSorted compare n A X B A' B' s) := by
  refine (insertionSort_window hb hdest hn).mono ?_
  rintro s' ⟨D, hdest', hperm, hsorted, htracked, hsrc', hbounded⟩
  exact ⟨⟨D, hdest', hperm, hsorted, fun _ => htracked⟩, ⟨X, by rw [hsrc', hsrc], rfl⟩, hbounded⟩

/-- What merging two sorted halves comes to. -/
structure HalvesMerged (compare : α → α → Except JavaException Int) (n : Nat) (A B A' : List α)
    (E₁ E₂ : List (α × Int)) (s s' : Arrays α) (D : List (α × Int)) : Prop where
  dest : s'.dest = A ++ (D.map Prod.fst ++ B)
  perm : D.Perm (E₁ ++ E₂)
  sorted : TotalPreorder (le compare) → (E₁.map Prod.fst).Pairwise (fun x y => le compare x y) →
    (E₂.map Prod.fst).Pairwise (fun x y => le compare x y) →
    (D.map Prod.fst).Pairwise (fun x y => le compare x y)
  kept : TotalPreorder (le compare) → (E₁.map Prod.fst).Pairwise (fun x y => le compare x y) →
    KeepsTies (leFst compare) (E₁ ++ E₂) D
  src : s'.src = s.src
  bounded : Bounded n s'
  tracked : A'.length = A.length → Tagged s.reversePermutation A.length (E₁ ++ E₂) →
    Placed s.permutation A.length (E₁ ++ E₂) →
    ((E₁ ++ E₂).map Prod.snd).Perm (indices A.length (E₁ ++ E₂).length) →
    Tagged s'.reversePermutation A.length D ∧ Placed s'.permutation A.length D ∧
      ∀ j, (j < A.length ∨ A.length + (E₁ ++ E₂).length ≤ j) →
        s'.permutation[j]? = s.permutation[j]? ∧ s'.reversePermutation[j]? = s.reversePermutation[j]?

/-- Two sorted lists, the last element of the first not above the first of the
second. -/
theorem pairwise_append_of_le {r : α → α → Bool} (hr : TotalPreorder r) {U V : List α}
    (hU : (U ++ [x]).Pairwise (fun x y => r x y)) (hV : (y :: V).Pairwise (fun x y => r x y))
    (hxy : r x y) : ((U ++ [x]) ++ y :: V).Pairwise (fun x y => r x y) := by
  refine List.pairwise_append.mpr ⟨hU, hV, ?_⟩
  have hx : ∀ u ∈ U ++ [x], r u x ∨ u = x := by
    intro u hu
    rcases List.mem_append.mp hu with hu | hu
    · exact Or.inl ((List.pairwise_append.mp hU).2.2 u hu x (by simp))
    · exact Or.inr (by simpa using hu)
  have huy : ∀ u ∈ U ++ [x], r u y := by
    intro u hu
    rcases hx u hu with h | rfl
    · exact hr.trans _ _ _ h hxy
    · exact hxy
  intro u hu v hv
  rcases List.mem_cons.mp hv with rfl | hv
  · exact huy u hu
  · exact hr.trans _ _ _ (huy u hu) ((List.pairwise_cons.mp hV).1 v hv)

theorem mergeHalves_spec {n : Nat} {s : Arrays α} {A Y B A' B' : List α} {P Q : List Int}
    {E₁ E₂ : List (α × Int)} (hb : Bounded n s) (hh : Halves n s A' B' P Q E₁ E₂)
    (h₁ : E₁ ≠ []) (h₂ : E₂ ≠ []) (hdest : s.dest = A ++ (Y ++ B))
    (hY : Y.length = E₁.length + E₂.length) (hn : A.length + Y.length ≤ n) :
    Ensures (mergeHalves compare A'.length (A'.length + E₁.length : Nat)
        (A'.length + E₁.length + E₂.length : Nat) A.length Y.length s) (Thrown compare)
      (fun s' => ∃ D, HalvesMerged compare n A B A' E₁ E₂ s s' D) := by
  obtain ⟨init, l, rfl⟩ := (eq_nil_or_concat E₁).resolve_left h₁
  obtain ⟨f, rest, rfl⟩ := exists_cons_of_ne_nil h₂
  rw [concat_eq_append] at *
  have hget : getAt s.src (((A'.length + (init ++ [l]).length : Nat) : Int) - 1) = .ok l.1 := by
    have hh' : Halves n s A' B' P Q (init ++ l :: []) (f :: rest) := hh
    have := hh'.left.1
    have hidx : ((A'.length + (init ++ [l]).length : Nat) : Int) - 1
        = ((A'.length + init.length : Nat) : Int) := by simp; omega
    rwa [hidx]
  have hget' : getAt s.src ((A'.length + (init ++ [l]).length : Nat) : Int) = .ok f.1 := by
    have hh' : Halves n s A' B' P Q (init ++ [l]) ([] ++ f :: rest) := hh
    simpa using hh'.right.1
  rw [mergeHalves, hget, hget']
  show Ensures ((compare l.1 f.1).bind _) _ _
  refine Ensures.bind (compare_ensures l.1 f.1) fun c hc => ?_
  by_cases hle : c ≤ 0
  · have hcopy : arraycopy s.src A'.length s.dest A.length Y.length
        = .ok (A ++ (((init ++ [l]) ++ f :: rest).map Prod.fst ++ B)) := by
      have hlen : (((init ++ [l]) ++ f :: rest).map Prod.fst).length = Y.length := by
        rw [length_map, length_append, hY]
      rw [hh.src, hdest, ← hlen]
      exact arraycopy_append A' _ B' A Y B hlen.symm
    rw [if_pos hle, hcopy]
    refine Ensures.ok ⟨(init ++ [l]) ++ f :: rest, rfl, List.Perm.refl _, ?_,
      fun _ _ => KeepsTies.refl _, rfl, ⟨hb.permLength, hb.revLength, hb.perm, hb.rev⟩,
      fun _ htag hplaced _ => ⟨htag, hplaced, fun _ _ => ⟨rfl, rfl⟩⟩⟩
    intro ht hs₁ hs₂
    rw [map_append, map_append] at *
    exact pairwise_append_of_le ht hs₁ hs₂ (by simpa [hc] using hle)
  · rw [if_neg hle]
    refine Ensures.bind (mergeLoop_spec hh hb hdest hY hn) ?_
    rintro ⟨s', p, q⟩ hm
    obtain ⟨s'', hinv, hi⟩ := invert_spec hm.bounded hn
    show Ensures (invert A.length (A.length + Y.length : Nat) s') _ _
    rw [hinv]
    obtain ⟨Y', hdest', hY'⟩ := hm.dest
    obtain rfl : Y' = [] := List.length_eq_zero_iff.mp (by simpa using hY')
    have hperm : s''.permutation = s'.permutation := by rw [hi.same]
    have hlen : ((init ++ [l]) ++ f :: rest).length = Y.length := by rw [length_append, hY]
    refine Ensures.ok ⟨merged compare (init ++ [l]) (f :: rest), ?_, merge_perm_append _, ?_, ?_, ?_, hi.bounded, ?_⟩
    · rw [hi.same]
      simpa using hdest'
    · intro ht hs₁ hs₂
      rw [pairwise_map] at *
      exact pairwise_merge (fun d e g => ht.trans d.1 e.1 g.1) (fun d e => ht.total d.1 e.1) _ _ hs₁ hs₂
    · intro ht hs₁
      exact keepsTies_merge ht.pairs.trans (List.pairwise_map.mp hs₁)
    · rw [hi.same]
      exact hm.src
    · intro hA htag hplaced htags
      rw [hlen] at htags
      have hnodup : (((init ++ [l]) ++ f :: rest).map (fun d => d.2.toNat)).Nodup := by
        have := (htags.map Int.toNat).nodup_iff.mpr (nodup_indices _ _)
        rwa [map_map] at this
      have hplaced' := hm.placed hnodup
      have hframe := hm.frame
      have hrev := hm.rev
      obtain ⟨htag', houtside⟩ := hi.tagged hplaced' (((merge_perm_append _).map _).trans htags)
      refine ⟨htag', by rwa [hperm], fun j hj => ⟨?_, by rw [houtside j (hlen ▸ hj), hrev]⟩⟩
      rw [hperm]
      refine hframe j fun d hd => ?_
      obtain ⟨k, hk, hlo, hhi⟩ := mem_indices.mp (htags.mem_iff.mp (mem_map_of_mem hd))
      omega

theorem Fresh.append {lo : Nat} {s : Arrays α} {X₁ X₂ : List α} (h : Fresh lo s (X₁ ++ X₂)) :
    Fresh lo s X₁ ∧ Fresh (lo + X₁.length) s X₂ := by
  unfold Fresh at *
  rw [length_append, indices_append, zip_append (by simp), tagged_append, placed_append] at h
  obtain ⟨⟨ht₁, ht₂⟩, hp₁, hp₂⟩ := h
  rw [length_zip, length_indices, Nat.min_self] at ht₂ hp₂
  exact ⟨⟨ht₁, hp₁⟩, ht₂, hp₂⟩

theorem Fresh.congr {lo : Nat} {s s' : Arrays α} (h : Fresh lo s X)
    (hsame : ∀ j, lo ≤ j → j < lo + X.length → s'.permutation[j]? = s.permutation[j]? ∧
      s'.reversePermutation[j]? = s.reversePermutation[j]?) : Fresh lo s' X := by
  have hlen : (X.zip (indices lo X.length)).length = X.length := by simp
  refine ⟨h.1.congr fun j h1 h2 => (hsame j h1 (by omega)).2, h.2.congr fun d hd => ?_⟩
  obtain ⟨k, hk, h1, h2⟩ := mem_zip_indices hd
  rw [hk]
  exact (hsame k h1 h2).1

theorem Tracked.length {lo : Nat} {s s' : Arrays α} (h : Tracked lo s X s' D) : D.length = X.length := by
  simpa using h.perm.length_eq

/-- Two windows side by side, sorted one after the other. -/
theorem Tracked.append {lo : Nat} {s s₁ s₂ : Arrays α} {X₁ X₂ : List α} {D₁ D₂ : List (α × Int)}
    (h₁ : Tracked lo s X₁ s₁ D₁) (h₂ : Tracked (lo + X₁.length) s₁ X₂ s₂ D₂) :
    Tracked lo s (X₁ ++ X₂) s₂ (D₁ ++ D₂) where
  perm := by
    rw [length_append, indices_append, zip_append (by simp)]
    exact h₁.perm.append h₂.perm
  tagged := by
    rw [tagged_append, h₁.length]
    exact ⟨h₁.tagged.congr fun j _ hj => (h₂.frame j (by rw [h₁.length] at hj; omega)).2, h₂.tagged⟩
  placed := by
    rw [placed_append, h₁.length]
    refine ⟨h₁.placed.congr fun d hd => ?_, h₂.placed⟩
    obtain ⟨k, hk, hlo, hhi⟩ := mem_zip_indices (h₁.perm.mem_iff.mp hd)
    rw [hk]
    exact (h₂.frame k (by omega)).1
  frame j hj := by
    rw [length_append] at hj
    obtain ⟨h1, h2⟩ := h₁.frame j (by omega)
    obtain ⟨h3, h4⟩ := h₂.frame j (by omega)
    exact ⟨h3.trans h1, h4.trans h2⟩

theorem Tracked.rearranged {n : Nat} {s s₁ s₂ : Arrays α} {A B A' : List α}
    {E₁ E₂ : List (α × Int)} (h : Tracked A.length s X s₁ (E₁ ++ E₂))
    (hm : HalvesMerged compare n A B A' E₁ E₂ s₁.swapRoles s₂ D) (hA : A'.length = A.length) :
    Tracked A.length s X s₂ D := by
  have htags : ((E₁ ++ E₂).map Prod.snd).Perm (indices A.length (E₁ ++ E₂).length) := by
    rw [h.length]
    refine (h.perm.map _).trans ?_
    rw [map_snd_zip (by simp)]
  obtain ⟨htagged, hplaced, hframe⟩ := hm.tracked hA h.tagged h.placed htags
  refine ⟨hm.perm.trans h.perm, htagged, hplaced, fun j hj => ?_⟩
  rw [h.length] at hframe
  obtain ⟨h1, h2⟩ := hframe j hj
  obtain ⟨h3, h4⟩ := h.frame j hj
  exact ⟨h1.trans h3, h2.trans h4⟩

theorem mergeSort_short (fuel lo : Nat) {m : Nat} (off : Int) (s : Arrays α) (hshort : m < 7) :
    mergeSort compare fuel lo (lo + m : Nat) off s = insertionSort compare lo (lo + m : Nat) s := by
  cases fuel with
  | zero => rfl
  | succ fuel =>
    have hthreshold : ((lo + m : Nat) : Int) - lo < insertionSortThreshold := by
      unfold insertionSortThreshold
      omega
    rw [mergeSort, if_pos hthreshold]

/-- A long range is sorted in halves of `m` and `k` elements, with the arrays in each other's
role. -/
theorem mergeSort_halves (fuel lo lo' : Nat) {m k : Nat} (s : Arrays α) (hlong : 7 ≤ m + k)
    (hhalf : m = (m + k) / 2) :
    mergeSort compare (fuel + 1) lo (lo + (m + k) : Nat) ((lo' : Int) - lo) s
      = (mergeSort compare fuel lo' (lo' + m : Nat) ((lo : Int) - lo') s.swapRoles).bind fun s =>
        (mergeSort compare fuel (lo' + m : Nat) (lo' + m + k : Nat) ((lo : Int) - lo') s).bind fun s =>
        mergeHalves compare lo' (lo' + m : Nat) (lo' + m + k : Nat) lo (m + k : Nat) s.swapRoles := by
  have hlength : ((lo + (m + k) : Nat) : Int) - lo = (m + k : Nat) := by omega
  have hlow : (lo : Int) + ((lo' : Int) - lo) = lo' := by omega
  have hhigh : ((lo + (m + k) : Nat) : Int) + ((lo' : Int) - lo) = (lo' + m + k : Nat) := by omega
  have hmid : ((lo' : Int) + (lo' + m + k : Nat)) / 2 = (lo' + m : Nat) := by omega
  have hoff : -((lo' : Int) - lo) = (lo : Int) - lo' := by omega
  have hthreshold : ¬ ((m + k : Nat) : Int) < insertionSortThreshold := by
    unfold insertionSortThreshold
    omega
  rw [mergeSort, hlength, if_neg hthreshold]
  simp only [hlow, hhigh, hmid, hoff]
  rfl

/-- **The merge sort only moves the elements of its range**, puts them in order if the
comparison is an order, and, if no offset is involved, the tables say where every
element went. -/
theorem mergeSort_spec {n : Nat} : ∀ (fuel : Nat) {A X B A' B' : List α} {s : Arrays α},
    X.length ≤ fuel → Bounded n s → s.dest = A ++ (X ++ B) → s.src = A' ++ (X ++ B') →
    A.length + X.length ≤ n → A'.length + X.length ≤ n →
    Ensures (mergeSort compare fuel A.length (A.length + X.length : Nat)
      ((A'.length : Int) - A.length) s) (Thrown compare) (WindowSorted compare n A X B A' B' s) := by
  intro fuel
  induction fuel with
  | zero =>
    intro A X B A' B' s _ hb hdest hsrc hn _
    exact insertionSort_outcome hb hdest hsrc hn
  | succ fuel ih =>
    intro A X B A' B' s hfuel hb hdest hsrc hn hn'
    by_cases hshort : X.length < 7
    · rw [mergeSort_short _ _ _ _ hshort]
      exact insertionSort_outcome hb hdest hsrc hn
    · have hlong : 7 ≤ X.length := by omega
      -- The two halves of the window.
      obtain ⟨X₁, X₂, rfl, hX₁⟩ : ∃ X₁ X₂, X = X₁ ++ X₂ ∧ X₁.length = X.length / 2 :=
        ⟨X.take (X.length / 2), X.drop (X.length / 2), (take_append_drop _ _).symm, length_take_of_le (by omega)⟩
      rw [length_append] at hX₁ hn hn' hlong hfuel
      rw [length_append, mergeSort_halves fuel A.length A'.length s hlong hX₁]
      -- The left half, with the arrays in each other's role.
      refine Ensures.bind (ih (B := X₂ ++ B') (by omega)
        ⟨hb.permLength, hb.revLength, hb.perm, hb.rev⟩ (by simpa [Arrays.swapRoles] using hsrc)
        (by simpa [Arrays.swapRoles] using hdest) (by omega) (by omega)) fun s₁ h₁ => ?_
      obtain ⟨D₁, hdest₁, hperm₁, hsorted₁, htrack₁⟩ := h₁.dest
      obtain ⟨Y₁, hsrc₁, hY₁⟩ := h₁.src
      have hD₁ : D₁.length = X₁.length := by simpa using hperm₁.length_eq
      -- The right half.
      have hright : Ensures (mergeSort compare fuel (A'.length + X₁.length : Nat)
          (A'.length + X₁.length + X₂.length : Nat) ((A.length : Int) - A'.length) s₁)
          (Thrown compare)
          (WindowSorted compare n (A' ++ D₁.map Prod.fst) X₂ B' (A ++ Y₁) B s₁) := by
        have hdest' : s₁.dest = (A' ++ D₁.map Prod.fst) ++ (X₂ ++ B') := by simpa using hdest₁
        have hsrc' : s₁.src = (A ++ Y₁) ++ (X₂ ++ B) := by simpa using hsrc₁
        have := ih (by omega) h₁.bounded hdest' hsrc' (by simp; omega) (by simp; omega)
        have hlo : (A' ++ D₁.map Prod.fst).length = A'.length + X₁.length := by simp [hD₁]
        have hlo' : (((A ++ Y₁).length : Nat) : Int) - ((A'.length + X₁.length : Nat) : Int)
            = (A.length : Int) - A'.length := by
          rw [length_append, hY₁]
          omega
        rwa [hlo, hlo'] at this
      refine Ensures.bind hright fun s₂ h₂ => ?_
      obtain ⟨D₂, hdest₂, hperm₂, hsorted₂, htrack₂⟩ := h₂.dest
      obtain ⟨Y₂, hsrc₂, hY₂⟩ := h₂.src
      have hD₂ : D₂.length = X₂.length := by simpa using hperm₂.length_eq
      -- The sorted halves with the tags they have now.
      obtain ⟨E, hfst, htag, hsplit⟩ := exists_window s₂.reversePermutation
        ((D₁ ++ D₂).map Prod.fst) A'.length (by rw [h₂.bounded.revLength]; simp; omega)
      obtain ⟨E₁, E₂, rfl, hE₁, hE₂⟩ := List.map_eq_append_iff.mp (hfst.trans map_append)
      have hlenE₁ : E₁.length = X₁.length := by simpa [hD₁] using congrArg List.length hE₁
      have hlenE₂ : E₂.length = X₂.length := by simpa [hD₂] using congrArg List.length hE₂
      have hhalves : Halves n s₂.swapRoles A' B' (s₂.reversePermutation.take A'.length)
          (s₂.reversePermutation.drop (A'.length + (E₁ ++ E₂).length)) E₁ E₂ := by
        refine ⟨?_, hsplit, ?_, ?_⟩
        · rw [hfst]
          simpa [Arrays.swapRoles] using hdest₂
        · rw [length_take_of_le]
          rw [h₂.bounded.revLength]
          omega
        · intro d hd
          refine h₂.bounded.rev d.2 ?_
          rw [hsplit]
          exact mem_append_right _ (mem_append_left _ (mem_map_of_mem hd))
      have hmerge := @mergeHalves_spec _ compare _ s₂.swapRoles A (Y₁ ++ Y₂) B _ _ _ _ _ _ ⟨h₂.bounded.permLength, h₂.bounded.revLength, h₂.bounded.perm,
          h₂.bounded.rev⟩ hhalves (by intro h; simp [h] at hlenE₁; omega)
        (by intro h; simp [h] at hlenE₂; omega) (by simpa [Arrays.swapRoles] using hsrc₂)
        (by simp; omega) (by simp; omega)
      rw [length_append, hlenE₁, hlenE₂, hY₁, hY₂] at hmerge
      refine hmerge.mono ?_
      rintro s₃ ⟨D, hm⟩
      refine ⟨⟨D, hm.dest, ?_, ?_, ?_⟩, ⟨(D₁ ++ D₂).map Prod.fst, ?_, ?_⟩, hm.bounded⟩
      · refine (hm.perm.map _).trans ?_
        rw [hfst, map_append]
        exact hperm₁.append hperm₂
      · exact fun ht => hm.sorted ht (hE₁ ▸ hsorted₁ ht) (hE₂ ▸ hsorted₂ ht)
      · intro hA hfresh
        obtain ⟨hf₁, hf₂⟩ := hfresh.append
        have hlo : (A' ++ D₁.map Prod.fst).length = A.length + X₁.length := by simp [hD₁, hA]
        rw [hA] at htrack₁ htag
        rw [hlo] at htrack₂
        obtain ⟨⟨hp₁, ht₁, hpl₁, hfr₁⟩, hkept₁⟩ := htrack₁ rfl hf₁
        have t₁ : Tracked A.length s X₁ s₁ D₁ := ⟨hp₁, ht₁, hpl₁, hfr₁⟩
        obtain ⟨t₂, hkept₂⟩ := htrack₂ (by simp [hY₁]) (hf₂.congr fun j h1 h2 => t₁.frame j (by omega))
        have t := t₁.append t₂
        have hE := htag.unique t.tagged hfst
        rw [← hE] at t
        refine ⟨t.rearranged hm hA, fun ht => ?_⟩
        rw [length_append, indices_append, zip_append (by simp)]
        refine ((hkept₁ ht).append (hkept₂ ht)).trans ?_
        rw [← hE]
        exact hm.kept ht (hE₁ ▸ hsorted₁ ht)
      · rw [hm.src]
        simpa [Arrays.swapRoles] using hdest₂
      · simp [hD₁, hD₂]

/-! ### The two entry points -/

theorem bounded_init (n : Nat) : Bounded n ⟨src, dest, initPermutation n, initPermutation n⟩ := by
  refine ⟨by simp [initPermutation], by simp [initPermutation], ?_, ?_⟩ <;>
  · intro r hr
    obtain ⟨k, hk, rfl⟩ := List.mem_map.mp hr
    have := List.mem_range.mp hk
    simp
    omega

theorem fresh_init_from {n : Nat} (X : List α) {lo : Nat} (hn : lo + X.length ≤ n) :
    Fresh lo ⟨src, dest, initPermutation n, initPermutation n⟩ X := by
  have hget : ∀ k : Nat, k < n → (initPermutation n)[k]? = some (k : Int) := by
    intro k hk
    simp [initPermutation, hk]
  induction X generalizing lo with
  | nil => exact ⟨True.intro, True.intro⟩
  | cons x X ih =>
    rw [length_cons] at hn
    obtain ⟨ht, hp⟩ := ih (show lo + 1 + X.length ≤ n by omega)
    exact ⟨⟨hget lo (by omega), ht⟩, by simpa using hget lo (by omega), hp⟩

theorem fresh_init {n : Nat} (X : List α) (hn : X.length ≤ n) :
    Fresh 0 ⟨src, dest, initPermutation n, initPermutation n⟩ X :=
  fresh_init_from X (by omega)

/-- The table of a tracked window at the start of the array is a permutation, and the
window is permuted by it. -/
theorem Tracked.permute {n : Nat} {s s' : Arrays α} (h : Tracked 0 s X s' D) (hb : Bounded n s') (hn : X.length ≤ n) :
    IsPermutation (s'.permutation.take X.length) ∧ D.map Prod.fst = permute (s'.permutation.take X.length) X := by
  have hlen : (s'.permutation.take X.length).length = X.length :=
    length_take_of_le (by rw [hb.permLength]; exact hn)
  have hmem : ∀ i (hi : i < X.length), (X[i], (i : Int)) ∈ D := by
    intro i hi
    refine h.perm.mem_iff.mpr (List.mem_iff_getElem?.mpr ⟨i, ?_⟩)
    rw [getElem?_zip_eq_some]
    exact ⟨getElem?_eq_getElem hi, by rw [getElem?_indices hi, Nat.zero_add]⟩
  have hplace : ∀ i (hi : i < X.length), ∃ k : Nat,
      (s'.permutation.take X.length)[i]? = some (k : Int) ∧ D[k]? = some (X[i], (i : Int)) := by
    intro i hi
    obtain ⟨k, hk, hget⟩ := h.placed.index (hmem i hi)
    refine ⟨k, ?_, hget⟩
    rw [getElem?_take_of_lt hi]
    simpa using hk
  have hperm : IsPermutation (s'.permutation.take X.length) := by
    constructor
    · rw [nodup_iff_injective_get]
      rintro ⟨i, hi⟩ ⟨i', hi'⟩ heq
      rw [hlen] at hi hi'
      obtain ⟨k, hk, hD⟩ := hplace i hi
      obtain ⟨k', hk', hD'⟩ := hplace i' hi'
      have hkk : k = k' := by
        have e1 := (List.getElem?_eq_some_iff.mp hk).2
        have e2 := (List.getElem?_eq_some_iff.mp hk').2
        simp only [get_eq_getElem] at heq
        rw [e1, e2] at heq
        exact Int.natCast_inj.mp heq
      rw [hkk, hD'] at hD
      simp at hD
      simp
      omega
    · intro r hr
      obtain ⟨i, hi⟩ := List.mem_iff_getElem?.mp hr
      have hilt : i < X.length := by
        have := (List.getElem?_eq_some_iff.mp hi).1
        omega
      obtain ⟨k, hk, hD⟩ := hplace i hilt
      have hkD := (List.getElem?_eq_some_iff.mp hD).1
      rw [h.length] at hkD
      rw [hk] at hi
      simp only [Option.some.injEq] at hi
      omega
  refine ⟨hperm, eq_permute hperm hlen (by simpa using h.length) fun i j hij => ?_⟩
  have hilt : i < X.length := by
    have := (List.getElem?_eq_some_iff.mp hij).1
    omega
  obtain ⟨k, hk, hD⟩ := hplace i hilt
  rw [hij, Option.some.injEq, natCast_inj] at hk
  rw [hk, getElem?_map, hD, getElem?_eq_getElem hilt]
  rfl

/-- Elements that are tied stay in order: the table grows along them. -/
theorem Tracked.grows {s s' : Arrays α}
    (h : Tracked 0 s X s' D) (hkept : KeepsTies (leFst compare) (X.zip (indices 0 X.length)) D)
    (htotal : TotalPreorder (le compare)) {i j : Nat} {k l : Int} (hij : i < j)
    (hx : X[i]? = some x) (hy : X[j]? = some y) (hxy : le compare x y = true) (hyx : le compare y x = true)
    (hk : s'.permutation[i]? = some k) (hl : s'.permutation[j]? = some l) : k < l := by
  have hplace : ∀ {i : Nat} {x : α} {k : Int}, X[i]? = some x → s'.permutation[i]? = some k →
      ∃ k' : Nat, k = k' ∧ D[k']? = some (x, (i : Int)) := by
    intro i x k hx hk
    have hmem : (x, (i : Int)) ∈ D := by
      refine h.perm.mem_iff.mpr (List.mem_iff_getElem?.mpr ⟨i, ?_⟩)
      have hi := (List.getElem?_eq_some_iff.mp hx).1
      rw [getElem?_zip_eq_some]
      exact ⟨hx, by rw [getElem?_indices hi, Nat.zero_add]⟩
    obtain ⟨k', hk', hD⟩ := h.placed.index hmem
    rw [toNat_natCast, hk] at hk'
    exact ⟨k', by simpa using hk', hD⟩
  obtain ⟨k, rfl, hDk⟩ := hplace hx hk
  obtain ⟨l, rfl, hDl⟩ := hplace hy hl
  have hordered : (X.zip (indices 0 X.length)).Pairwise fun d e => d.2 < e.2 := by
    have hgrows : (indices 0 X.length).Pairwise (· < ·) := by
      rw [indices, pairwise_map]
      exact (pairwise_lt_range').imp fun hlt => Int.ofNat_lt.mpr hlt
    rw [← pairwise_map, map_snd_zip (by simp)]
    exact hgrows
  have hrefl : le compare x x = true := by simpa using htotal.total x x
  have hsorted := hkept.pairwise hordered (x, 0)
  rcases Nat.lt_trichotomy k l with hlt | heq | hgt
  · exact_mod_cast hlt
  · rw [heq, hDl] at hDk
    simp only [Option.some.injEq, Prod.mk.injEq] at hDk
    omega
  · -- The later element would have the smaller number.
    have hk' := (List.getElem?_eq_some_iff.mp hDk).1
    have hl' := (List.getElem?_eq_some_iff.mp hDl).1
    have hlt := List.pairwise_iff_getElem.mp hsorted l k hl' hk' hgt
    rw [(List.getElem?_eq_some_iff.mp hDk).2, (List.getElem?_eq_some_iff.mp hDl).2] at hlt
    have := hlt ⟨hxy, hyx⟩ ⟨hrefl, hrefl⟩
    omega

/-- What `sort` returns. -/
structure Sorted (compare : α → α → Except JavaException Int) (a : List α) (r : List α × List Int) : Prop where
  permutation : IsPermutation r.2
  length : r.2.length = a.length
  moved : r.1 = permute r.2 a
  /-- For a comparison that is a total preorder, this is the stable sort. -/
  sorted : TotalPreorder (le compare) → r.1 = a.mergeSort (le compare)
  grows : TotalPreorder (le compare) → ∀ (i j : Nat) (x y : α) (k l : Int), i < j → a[i]? = some x →
    a[j]? = some y → le compare x y = true → le compare y x = true → r.2[i]? = some k → r.2[j]? = some l → k < l

theorem sort_sorted (a : List α) : Ensures (sort compare a) (Thrown compare) (Sorted compare a) := by
  have h := @mergeSort_spec _ compare a.length a.length [] a [] [] []
    ⟨a, a, initPermutation a.length, initPermutation a.length⟩ (Nat.le_refl _) (bounded_init _)
    (by simp) (by simp) (by simp) (by simp)
  simp only [length_nil, Nat.zero_add] at h
  refine Ensures.bind h fun s' hs' => ?_
  obtain ⟨D, hdest, -, hsorted, htrack⟩ := hs'.dest
  obtain ⟨htracked, hkept⟩ := htrack rfl (fresh_init a (Nat.le_refl _))
  obtain ⟨hperm, heq⟩ := htracked.permute hs'.bounded (Nat.le_refl _)
  have htake : s'.permutation.take a.length = s'.permutation := by
    rw [← hs'.bounded.permLength, take_length]
  rw [htake] at hperm heq
  have hres : s'.dest = D.map Prod.fst := by simpa using hdest
  refine Ensures.ok ⟨hperm, hs'.bounded.permLength, hres.trans heq, fun htotal => ?_, fun htotal => ?_⟩
  · -- Forgetting the tags.
    have hfst : KeepsTies (le compare) a (D.map Prod.fst) := by
      intro x
      have := congrArg (map Prod.fst) (hkept htotal (x, 0))
      rw [← map_fst_zip_indices a 0, ties, ties, filter_map, filter_map]
      exact this
    rw [hres]
    refine eq_of_keepsTies htotal.total (pairwise_mergeSort htotal.trans htotal.total a) (hsorted htotal) ?_
    exact fun x => (hfst x).trans (keepsTies_mergeSort htotal.trans htotal.total a x).symm
  · intro i j x y k l hij hx hy hxy hyx hk hl
    exact htracked.grows (hkept htotal) htotal hij hx hy hxy hyx hk hl

/-- **`sort` returns the sorted array and the permutation that sorts it.** -/
theorem sort_spec (a : List α) : Ensures (sort compare a) (Thrown compare) (fun r => IsPermutation r.2 ∧
      r.2.length = a.length ∧ r.1 = permute r.2 a ∧
      (TotalPreorder (le compare) → r.1.Pairwise (fun x y => le compare x y))) := by
  refine (sort_sorted a).mono fun r hr => ⟨hr.permutation, hr.length, hr.moved, fun htotal => ?_⟩
  rw [hr.sorted htotal]
  exact pairwise_mergeSort htotal.trans htotal.total a

/-- **`sort` is a stable sort** for every comparison that is a total preorder. -/
theorem sort_stable (hcompare : ∀ x y, ∃ c, compare x y = .ok c) (htotal : TotalPreorder (le compare)) (a : List α) :
    ∃ p, sort compare a = .ok (a.mergeSort (le compare), p) ∧ IsPermutation p ∧ p.length = a.length ∧
      (∀ i k : Nat, p[i]? = some (k : Int) → (a.mergeSort (le compare))[k]? = a[i]?) ∧
      ∀ (i j : Nat) (x y : α) (k l : Int), i < j → a[i]? = some x → a[j]? = some y →
        le compare x y = true → le compare y x = true → p[i]? = some k → p[j]? = some l → k < l := by
  have hthrown : ∀ e, ¬ Thrown compare e := by
    rintro e ⟨x, y, he⟩
    obtain ⟨c, hc⟩ := hcompare x y
    rw [hc] at he
    cases he
  obtain ⟨⟨sorted, p⟩, hsort, hr⟩ := (sort_sorted a).returns hthrown
  obtain rfl : sorted = a.mergeSort (le compare) := hr.sorted htotal
  refine ⟨p, hsort, hr.permutation, hr.length, fun i k hik => ?_, hr.grows htotal⟩
  have hmoved : a.mergeSort (le compare) = permute p a := hr.moved
  rw [hmoved]
  exact getElem?_permute hr.permutation hr.length hik

/-- Nine pairs, three of each number. -/
def ninePairs : List (Int × Nat) := [(2, 0), (1, 1), (0, 2), (2, 3), (1, 4), (0, 5), (2, 6), (1, 7), (0, 8)]

def compareFirst (x y : Int × Nat) : Except JavaException Int := .ok (x.1 - y.1)

theorem sort_stable_pairs :
    (∃ p, sort compareFirst ninePairs = .ok (ninePairs.mergeSort (le compareFirst), p) ∧ p.length = 9) ∧
      sort compareFirst ninePairs = .ok
        ([(0, 2), (0, 5), (0, 8), (1, 1), (1, 4), (1, 7), (2, 0), (2, 3), (2, 6)], [6, 3, 0, 7, 4, 1, 8, 5, 2]) := by
  have htotal : TotalPreorder (le compareFirst) := by
    constructor
    · intro x y z hxy hyz
      simp only [le, compareFirst, decide_eq_true_eq] at hxy hyz ⊢
      omega
    · intro x y
      simp only [le, compareFirst, Bool.or_eq_true, decide_eq_true_eq]
      omega
  obtain ⟨p, hsort, -, hlength, -⟩ := sort_stable (fun _ _ => ⟨_, rfl⟩) htotal ninePairs
  exact ⟨⟨p, hsort, hlength⟩, by decide +kernel⟩

end JavaFX.SortHelper
