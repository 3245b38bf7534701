/-
Specificities are compared as the counts of ids, style classes and pseudo-classes.

`Fits` says when the counts of a selector fit into their fields: fewer than 2 ^ 23 ids, so
that the number is not negative, fewer than 16 style classes and fewer than 16
pseudo-classes, and no two parts of a compound selector have the same one and none has
`:dir()`, as the set of them all would lose it.  Selectors that fit compare as they should.
A selector that does not fit is wrong with some that do: its number is negative, or it is
the number of a selector with other counts.
-/
import JavaFX.Css.Match
import JavaFX.Proofs.Css.BitSetQueries
import Mathlib.Algebra.Order.BigOperators.Group.List
import Mathlib.Algebra.Order.Group.Nat

namespace JavaFX

open List Nat

/-- A union has less elements than the two sets if they have one in common. -/
theorem BitSet.size_addAll (s other : BitSet) : (s.addAll (some other)).set.size ≤ s.size + other.size ∧
    ((s.addAll (some other)).set.size = s.size + other.size ↔ ∀ t, ¬(s.Mem t ∧ other.Mem t)) := by
  have hsize : (s.elements ++ other.elements.filter fun t => ¬s.Mem t).length = (s.addAll (some other)).set.size := by
    refine length_eq_size ?_ fun t => ?_
    · refine nodup_append.mpr ⟨s.nodup_elements, other.nodup_elements.filter _, ?_⟩
      rintro t ht _ ht' rfl
      exact of_decide_eq_true (mem_filter.mp ht').2 (mem_elements.mp ht)
    · rw [(addAll_spec s other).1 t, mem_append, mem_filter, mem_elements, mem_elements, decide_eq_true_iff]
      by_cases h : s.Mem t <;> simp [h]
  rw [← hsize, length_append, length_elements, ← length_elements other]
  refine ⟨Nat.add_le_add_left (length_filter_le _ _) _, ?_⟩
  rw [Nat.add_left_cancel_iff, length_filter_eq_length_iff]
  refine forall_congr' fun t => ?_
  rw [mem_elements, decide_eq_true_iff, not_and, imp_not_comm]

/-! ### Counts -/

/-- The numbers of ids, of style classes and of pseudo-classes.  `:dir()` is a pseudo-class. -/
structure Counts where
  ids : Nat := 0
  styleClasses : Nat := 0
  pseudoClasses : Nat := 0
deriving DecidableEq

namespace Counts

def add (x y : Counts) : Counts :=
  ⟨x.ids + y.ids, x.styleClasses + y.styleClasses, x.pseudoClasses + y.pseudoClasses⟩

/-- The lexicographic order. -/
def compare (x y : Counts) : Ordering :=
  (Ord.compare x.ids y.ids).then
    ((Ord.compare x.styleClasses y.styleClasses).then (Ord.compare x.pseudoClasses y.pseudoClasses))

/-- The number they are packed into. -/
def packed (x : Counts) : Nat := 256 * x.ids + 16 * x.styleClasses + x.pseudoClasses

/-- Each count fits into its field. -/
def Small (x : Counts) : Prop := x.ids < 2 ^ 23 ∧ x.styleClasses < 16 ∧ x.pseudoClasses < 16

instance (x : Counts) : Decidable x.Small := inferInstanceAs (Decidable (_ ∧ _))

variable {x : Counts}

variable {y : Counts}

theorem compare_eq_iff : x.compare y = .eq ↔ x = y := by
  obtain ⟨i, c, p⟩ := x
  obtain ⟨i', c', p'⟩ := y
  simp [compare]

theorem compare_zero_ne_lt (x : Counts) : x.compare {} ≠ .lt := by
  simp [compare, Ordering.then_eq_lt, Nat.compare_eq_lt]

theorem compare_field {a b c d : Nat} (hb : b < 16) (hd : d < 16) :
    Ord.compare (16 * a + b) (16 * c + d) = (Ord.compare a c).then (Ord.compare b d) := by
  rcases Nat.lt_trichotomy a c with h | rfl | h
  · rw [Nat.compare_eq_lt.mpr h, Nat.compare_eq_lt.mpr (by omega)]
    rfl
  · rw [Nat.compare_eq_eq.mpr rfl]
    simp only [compare_eq_ite_lt, Nat.add_lt_add_iff_left]
    rfl
  · rw [Nat.compare_eq_gt.mpr h, Nat.compare_eq_gt.mpr (by omega)]
    rfl

theorem compare_eq_packed (hx : x.Small) (hy : y.Small) : x.compare y = Ord.compare x.packed y.packed := by
  have hpacked : ∀ z : Counts, z.packed = 16 * (16 * z.ids + z.styleClasses) + z.pseudoClasses := by
    intro z
    unfold packed
    omega
  rw [hpacked, hpacked, compare_field hx.2.2 hy.2.2, compare_field hx.2.1 hy.2.1, compare]
  cases Ord.compare x.ids y.ids <;> rfl

/-- Every number that is not negative is that of small counts. -/
theorem exists_packed {n : Nat} (hn : n < 2 ^ 31) : ∃ x : Counts, x.Small ∧ x.packed = n := by
  refine ⟨⟨n / 256, n / 16 % 16, n % 16⟩, ⟨?_, ?_, ?_⟩, ?_⟩
  · simp only
    omega
  · exact mod_lt _ (by decide)
  · exact mod_lt _ (by decide)
  · simp only [packed]
    omega

theorem Small.packed_lt (h : x.Small) : x.packed < 2 ^ 31 := by
  obtain ⟨hi, hc, hp⟩ := h
  unfold packed
  omega

end Counts

theorem packed_toNat {ids styleClasses pseudoClasses : Nat} (h : Counts.Small ⟨ids, styleClasses, pseudoClasses⟩) :
    (BitVec.ofNat 32 ids <<< 8 ||| BitVec.ofNat 32 styleClasses <<< 4 |||
      BitVec.ofNat 32 pseudoClasses).toNat = Counts.packed ⟨ids, styleClasses, pseudoClasses⟩ := by
  obtain ⟨hi, hc, hp⟩ := h
  simp only at hi hc hp
  have hids : (BitVec.ofNat 32 ids <<< 8).toNat = ids <<< 8 := by
    rw [BitVec.toNat_shiftLeft, BitVec.toNat_ofNat, mod_eq_of_lt (by omega : ids < 2 ^ 32), mod_eq_of_lt]
    omega
  have hclasses : (BitVec.ofNat 32 styleClasses <<< 4).toNat = styleClasses <<< 4 := by
    rw [BitVec.toNat_shiftLeft, BitVec.toNat_ofNat, mod_eq_of_lt (by omega : styleClasses < 2 ^ 32), mod_eq_of_lt]
    omega
  have hpseudo : (BitVec.ofNat 32 pseudoClasses).toNat = pseudoClasses := by
    rw [BitVec.toNat_ofNat, mod_eq_of_lt (by omega)]
  have hlow : styleClasses <<< 4 ||| pseudoClasses = 16 * styleClasses + pseudoClasses := by
    rw [← shiftLeft_add_eq_or_of_lt hp]
    omega
  rw [BitVec.toNat_or, BitVec.toNat_or, hids, hclasses, hpseudo, Nat.or_assoc, ← shiftLeft_add_eq_or_of_lt (by omega)]
  simp only [Counts.packed]
  omega

/-- The counts of a simple selector. -/
def SimpleSelector.counts (s : SimpleSelector) : Counts where
  ids := if s.matchOnId then 1 else 0
  styleClasses := s.styleClassSet.set.size
  pseudoClasses := s.pseudoClassState.set.size + if s.nodeOrientation ≠ .inherit then 1 else 0

namespace Selector

def parts : Selector → List SimpleSelector
  | simple s => [s]
  | compound s => s.selectors

/-- The counts of all parts together. -/
def counts (s : Selector) : Counts := (s.parts.map SimpleSelector.counts).foldl Counts.add {}

/-- The pseudo-classes that the match of a selector counts. -/
def matchedPseudoClasses : Selector → Nat
  | simple s => s.counts.pseudoClasses
  | compound s => (CompoundSelector.countParts s.selectors {} 0 0).1.size

/-- No part of a compound selector has `:dir()`, and no two have the same pseudo-class. -/
def Apart : Selector → Prop
  | simple _ => True
  | compound s => (∀ part ∈ s.selectors, part.nodeOrientation = .inherit) ∧
      s.selectors.Pairwise fun part part' => ∀ t, ¬(part.pseudoClassState.set.Mem t ∧
        part'.pseudoClassState.set.Mem t)

/-- The counts fit into their fields, and no pseudo-class of a part is lost. -/
def Fits (s : Selector) : Prop := s.counts.Small ∧ s.Apart

/-- Comparing the matches of two selectors has the sign of comparing their counts. -/
def Agrees (a b : Selector) : Prop :=
  Ord.compare (a.createMatch.compareTo b.createMatch) 0 = a.counts.compare b.counts

instance (a b : Selector) : Decidable (a.Agrees b) := inferInstanceAs (Decidable (_ = _))

end Selector

/-! ### What is counted -/

/-- The loop over the parts counts ids and style classes.  It loses a pseudo-class that it has already, and `:dir()`. -/
theorem CompoundSelector.countParts_spec (parts : List SimpleSelector) :
    ∀ (allPseudoClasses : BitSet) (x : Counts), allPseudoClasses.size ≤ x.pseudoClasses →
      (countParts parts allPseudoClasses x.ids x.styleClasses).2 =
        (((parts.map SimpleSelector.counts).foldl Counts.add x).ids,
          ((parts.map SimpleSelector.counts).foldl Counts.add x).styleClasses) ∧
      (countParts parts allPseudoClasses x.ids x.styleClasses).1.size ≤
        ((parts.map SimpleSelector.counts).foldl Counts.add x).pseudoClasses ∧
      ((countParts parts allPseudoClasses x.ids x.styleClasses).1.size =
          ((parts.map SimpleSelector.counts).foldl Counts.add x).pseudoClasses ↔
        allPseudoClasses.size = x.pseudoClasses ∧
          (∀ part ∈ parts, ∀ t, ¬(allPseudoClasses.Mem t ∧ part.pseudoClassState.set.Mem t)) ∧
          (∀ part ∈ parts, part.nodeOrientation = .inherit) ∧ parts.Pairwise fun part part' =>
            ∀ t, ¬(part.pseudoClassState.set.Mem t ∧ part'.pseudoClassState.set.Mem t)) := by
  induction parts with
  | nil => exact fun _ _ hle => ⟨rfl, hle, by simp [countParts]⟩
  | cons part parts ih =>
    intro allPseudoClasses x hle
    obtain ⟨hunion, hapart⟩ := BitSet.size_addAll allPseudoClasses part.pseudoClassState.set
    obtain ⟨hcounts, hsize, hiff⟩ := ih (allPseudoClasses.addAll (some part.pseudoClassState.set)).set (x.add part.counts) (by
      simp only [Counts.add, SimpleSelector.counts]
      omega)
    refine ⟨hcounts, hsize, hiff.trans ?_⟩
    -- The set of the parts so far has grown by all that this part counts.
    have hgrown : (allPseudoClasses.addAll (some part.pseudoClassState.set)).set.size = (x.add part.counts).pseudoClasses ↔
        allPseudoClasses.size = x.pseudoClasses ∧ part.nodeOrientation = .inherit ∧
          ∀ t, ¬(allPseudoClasses.Mem t ∧ part.pseudoClassState.set.Mem t) := by
      rw [← hapart]
      simp only [Counts.add, SimpleSelector.counts]
      split
      · next hdir => exact ⟨by omega, fun h => absurd h.2.1 hdir⟩
      · next hdir => exact ⟨fun h => ⟨by omega, not_not.mp hdir, by omega⟩, by omega⟩
    have hnew (part' : SimpleSelector) : (∀ t, ¬((allPseudoClasses.addAll (some part.pseudoClassState.set)).set.Mem t ∧
          part'.pseudoClassState.set.Mem t)) ↔
        (∀ t, ¬(allPseudoClasses.Mem t ∧ part'.pseudoClassState.set.Mem t)) ∧
          ∀ t, ¬(part.pseudoClassState.set.Mem t ∧ part'.pseudoClassState.set.Mem t) := by
      rw [← forall_and]
      refine forall_congr' fun t => ?_
      rw [(BitSet.addAll_spec _ _).1 t, or_and_right, not_or]
    rw [hgrown, pairwise_cons, forall_mem_cons, forall_mem_cons]
    simp only [hnew, forall_and]
    tauto

namespace Selector

variable {a b : Selector}

theorem counts_simple (s : SimpleSelector) : (simple s).counts = s.counts := by
  simp [counts, parts, Counts.add]

/-- A compound selector may have lost pseudo-classes of its parts. -/
theorem matchedPseudoClasses_spec (s : Selector) : s.matchedPseudoClasses ≤ s.counts.pseudoClasses ∧
    (s.matchedPseudoClasses = s.counts.pseudoClasses ↔ s.Apart) := by
  cases s with
  | simple s =>
    have heq : (simple s).matchedPseudoClasses = (simple s).counts.pseudoClasses := by
      rw [counts_simple]
      rfl
    exact ⟨heq.le, iff_of_true heq trivial⟩
  | compound s =>
    obtain ⟨-, hle, hiff⟩ := CompoundSelector.countParts_spec s.selectors {} {} (Nat.le_refl 0)
    refine ⟨hle, hiff.trans ?_⟩
    have hempty : ∀ t, ¬({} : BitSet).Mem t := BitSet.mem_of_all_zero rfl
    simp only [hempty, false_and, not_false_eq_true, implies_true, true_and]
    exact and_iff_right rfl

theorem specificity_eq (s : Selector) : s.createMatch.specificity =
    BitVec.ofNat 32 s.counts.ids <<< 8 ||| BitVec.ofNat 32 s.counts.styleClasses <<< 4 |||
      BitVec.ofNat 32 s.matchedPseudoClasses := by
  cases s with
  | simple s =>
    rw [counts_simple]
    rfl
  | compound s =>
    have hspec := (CompoundSelector.countParts_spec s.selectors {} {} (Nat.le_refl 0)).1
    obtain ⟨hids, hclasses⟩ := Prod.mk.inj hspec
    simp only [createMatch, CompoundSelector.createMatch, Match.create, matchedPseudoClasses, counts, parts]
    rw [← hids, ← hclasses]

theorem Fits.specificity (h : a.Fits) : a.createMatch.specificity.toNat = a.counts.packed := by
  rw [specificity_eq, (matchedPseudoClasses_spec a).2.mpr h.2]
  exact packed_toNat h.1

theorem Fits.agrees (ha : a.Fits) (hb : b.Fits) : a.Agrees b := by
  have hlt := ha.1.packed_lt
  have hlt' := hb.1.packed_lt
  have hdiff : a.createMatch.compareTo b.createMatch = (a.counts.packed : Int) - b.counts.packed := by
    rw [Match.compareTo, BitVec.toInt_sub, BitVec.toInt_eq_toNat_of_lt, BitVec.toInt_eq_toNat_of_lt,
      ha.specificity, hb.specificity, Int.bmod_eq_of_le]
    · omega
    · omega
    · rw [hb.specificity]
      omega
    · rw [ha.specificity]
      omega
  rw [Agrees, Counts.compare_eq_packed ha.1 hb.1, Int.compare_eq_ite_lt, compare_eq_ite_lt]
  split_ifs <;> first | rfl | omega

/-! ### A selector with given counts -/

/-- The first elements of a registry. -/
def firstElements (n : Nat) : GrownSet := (List.range n).foldl GrownSet.add .empty

/-- `*` -/
def universal : SimpleSelector := ⟨"*", .empty, "", .empty, .inherit⟩

/-- `#id` -/
def ofId : SimpleSelector := ⟨"*", .empty, "id", .empty, .inherit⟩

/-- A selector `* #id … #id .c1.c2…:p1:p2…`. -/
def ofCounts (x : Counts) : CompoundSelector where
  selectors := universal :: (List.replicate x.ids ofId ++
    [⟨"*", firstElements x.styleClasses, "", firstElements x.pseudoClasses, .inherit⟩])
  relationships := List.replicate (x.ids + 1) .descendant
  shape := by simp

variable {n : Nat}

theorem size_firstElements (hn : n < 16) : (firstElements n).set.size = n := by
  have hall : ∀ n < 16, (firstElements n).set.size = n := by decide +kernel
  exact hall n hn

theorem foldl_ofId (k : Nat) (x : Counts) :
    (replicate k ofId.counts).foldl Counts.add x = { x with ids := x.ids + k } := by
  induction k generalizing x with
  | zero => rfl
  | succ k ih =>
    rw [replicate_succ, foldl_cons, ih]
    have hids : ofId.counts = ⟨1, 0, 0⟩ := by decide +kernel
    simp only [hids, Counts.add, Counts.mk.injEq]
    omega

variable {x : Counts}

theorem counts_ofCounts (hc : x.styleClasses < 16) (hp : x.pseudoClasses < 16) :
    (compound (ofCounts x)).counts = x := by
  have hempty : universal.counts = {} := by decide +kernel
  simp only [counts, parts, ofCounts, map_cons, map_append, map_replicate, foldl_cons, foldl_append, foldl_ofId, hempty]
  simp [SimpleSelector.counts, SimpleSelector.matchOnId, size_firstElements hc, size_firstElements hp, Counts.add]

theorem apart_ofCounts (x : Counts) : (compound (ofCounts x)).Apart := by
  have hempty : ∀ t, ¬GrownSet.empty.set.Mem t := BitSet.mem_of_all_zero rfl
  constructor
  · rw [ofCounts, forall_mem_cons, forall_mem_append]
    exact ⟨rfl, fun part hpart => eq_of_mem_replicate hpart ▸ rfl, forall_mem_singleton.mpr rfl⟩
  · -- Only the last part has pseudo-classes.
    simp [ofCounts, pairwise_append, pairwise_replicate, universal, ofId, hempty]

theorem fits_ofCounts (h : x.Small) : (compound (ofCounts x)).Fits :=
  ⟨(counts_ofCounts h.2.1 h.2.2).symm ▸ h, apart_ofCounts x⟩

/-! ### The order -/

/-- **A selector compares by its counts with all selectors that fit, if and only if it fits
itself.** -/
theorem agrees_iff_fits (a : Selector) : (∀ b, Fits b → a.Agrees b) ↔ a.Fits := by
  refine ⟨fun hagrees => ?_, fun ha b hb => ha.agrees hb⟩
  have hofCounts : ∀ x : Counts, x.Small →
      Ord.compare (a.createMatch.specificity - (compound (ofCounts x)).createMatch.specificity).toInt 0 =
        a.counts.compare x := by
    intro x hx
    have := hagrees _ (fits_ofCounts hx)
    rwa [Agrees, counts_ofCounts hx.2.1 hx.2.2] at this
  have hnumber : ∀ x : Counts, x.Small → (compound (ofCounts x)).createMatch.specificity.toNat = x.packed := by
    intro x hx
    rw [(fits_ofCounts hx).specificity, counts_ofCounts hx.2.1 hx.2.2]
  by_cases hneg : a.createMatch.specificity.toInt < 0
  · -- A negative number is less than that of a selector without ids and classes.
    have hsmall : Counts.Small {} := by decide
    have hzero : (compound (ofCounts {})).createMatch.specificity = 0#32 := by
      apply BitVec.eq_of_toNat_eq
      rfl
    have hcompare := hofCounts {} hsmall
    rw [hzero, BitVec.sub_zero, Int.compare_eq_lt.mpr hneg] at hcompare
    exact absurd hcompare.symm (Counts.compare_zero_ne_lt _)
  · -- Otherwise the selector with that number has the same counts.
    have hlt : a.createMatch.specificity.toNat < 2 ^ 31 := by
      rw [BitVec.toInt_eq_toNat_cond] at hneg
      split at hneg <;> omega
    obtain ⟨x, hx, hpacked⟩ := Counts.exists_packed hlt
    have hsame : (compound (ofCounts x)).createMatch.specificity = a.createMatch.specificity := by
      apply BitVec.eq_of_toNat_eq
      rw [hnumber x hx, hpacked]
    have hcompare := hofCounts x hx
    rw [hsame, BitVec.sub_self] at hcompare
    have hcounts : a.counts = x := Counts.compare_eq_iff.mp (hcompare.symm.trans (by decide))
    refine ⟨hcounts ▸ hx, (matchedPseudoClasses_spec a).2.mp ?_⟩
    have hle := (matchedPseudoClasses_spec a).1
    obtain ⟨hi, hc, hp⟩ := hx
    rw [← hcounts] at hi hc hp
    have hmatched : a.createMatch.specificity.toNat =
        Counts.packed ⟨a.counts.ids, a.counts.styleClasses, a.matchedPseudoClasses⟩ := by
      rw [specificity_eq]
      exact packed_toNat ⟨hi, hc, show a.matchedPseudoClasses < 16 by omega⟩
    rw [← hpacked, ← hcounts] at hmatched
    simp only [Counts.packed] at hmatched
    omega

/-- `.c1.c2…`, with `n` style classes. -/
def ofClasses (n : Nat) : SimpleSelector := ⟨"*", firstElements n, "", .empty, .inherit⟩

/-- `:p` -/
def ofPseudoClass : SimpleSelector := ⟨"*", .empty, "", firstElements 1, .inherit⟩

/-- `:dir(rtl)` -/
def ofDir : SimpleSelector := ⟨"*", .empty, "", .empty, .rightToLeft⟩

/-- Two parts, one below the other. -/
def ofParts (s s' : SimpleSelector) : Selector := compound ⟨[s, s'], [.descendant], rfl⟩

/-- Sixteen style classes count as one id, a pseudo-class counts once for two parts, and `:dir()`
does not count in a compound selector at all. -/
theorem specificity_misorders : ¬(simple (ofClasses 16)).Agrees (simple ofId) ∧
    ¬(ofParts ofPseudoClass ofPseudoClass).Agrees (ofParts universal ofPseudoClass) ∧
    ¬(ofParts universal ofDir).Agrees (simple universal) := by
  decide +kernel

end Selector

end JavaFX
