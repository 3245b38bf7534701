/-
What the calls of a `BitSet` do to the set of its elements.

Everything is said bit by bit: `Mem` is the bit of an element, and a word behind the
end of the array has none.  The result of a bulk call is what it should be, except
where the arrays differ in length.  `addAll` and `retainAll` take an array of another
length for a change, and `removeAll` cuts this set down to the length of the other.
-/
import JavaFX.Css.BitSet

namespace JavaFX.BitSet

open List Nat

/-! ### Bits of a word -/

variable {b n t max : Nat} {x : Long} {s : BitSet}

theorem mask_getLsbD {i : Nat} (hi : i < 64) : (mask b).getLsbD i = decide (i = b) := by
  unfold mask
  by_cases h : i = b
  · subst h
    simp [hi]
  · by_cases hlt : i < b
    · simp [hlt, h]
    · have : i - b ≠ 0 := by omega
      simp [h, this]

theorem mask_and_eq (hb : b < 64) (x : Long) : mask b &&& x = mask b ↔ x.getLsbD b = true := by
  constructor
  · intro h
    have := congrArg (fun y : Long => y.getLsbD b) h
    simpa [mask_getLsbD hb] using this
  · intro h
    apply BitVec.eq_of_getLsbD_eq
    intro i hi
    rw [BitVec.getLsbD_and, mask_getLsbD hi]
    by_cases hib : i = b
    · subst hib
      simp [h]
    · simp [hib]

theorem word_ne_iff {y : Long} : x ≠ y ↔ ∃ b < 64, x.getLsbD b ≠ y.getLsbD b := by
  constructor
  · intro h
    by_contra hall
    apply h
    apply BitVec.eq_of_getLsbD_eq
    intro i hi
    by_contra hne
    exact hall ⟨i, hi, hne⟩
  · intro h heq
    obtain ⟨b, -, hb⟩ := h
    rw [heq] at hb
    exact hb rfl

theorem getLsbD_not (hb : b < 64) : (~~~x).getLsbD b = !x.getLsbD b := by
  simp [hb]

/-! ### Elements of a set -/

/-- The bit of an element. -/
def Mem (s : BitSet) (t : Nat) : Prop := (s.word (t / 64)).getLsbD (t % 64) = true

/-- The set of the elements. -/
def members (s : BitSet) : Set Nat := { t | s.contains (some t) = true }

theorem word_eq_zero (h : s.bits.length ≤ n) : s.word n = 0 := by
  unfold word
  rw [getD_eq_getElem?_getD, getElem?_eq_none h]
  rfl

theorem Mem.lt (h : s.Mem t) : t / 64 < s.bits.length := by
  by_contra hge
  unfold Mem at h
  rw [word_eq_zero (by omega)] at h
  simp at h

theorem contains_iff (s : BitSet) (t : Nat) : s.contains (some t) = true ↔ s.Mem t := by
  have hb : t % 64 < 64 := mod_lt _ (by decide)
  unfold contains
  simp only [decide_eq_true_eq]
  rw [BitVec.and_comm, mask_and_eq hb]
  exact ⟨fun h => h.2, fun h => ⟨h.lt, h⟩⟩

theorem mem_members : t ∈ s.members ↔ s.Mem t := contains_iff s t

theorem exists_element {p : Nat → Nat → Prop} : (∃ t, p (t / 64) (t % 64)) ↔ ∃ n, ∃ b < 64, p n b := by
  constructor
  · rintro ⟨t, ht⟩
    exact ⟨t / 64, t % 64, mod_lt _ (by decide), ht⟩
  · rintro ⟨n, b, hb, hp⟩
    refine ⟨n * 64 + b, ?_⟩
    rw [show (n * 64 + b) / 64 = n by omega, show (n * 64 + b) % 64 = b by omega]
    exact hp

variable {f : Nat → Long} {bits : List Long} {removed : Bool} {c : SetChange}

theorem mem_map_range (h : s.bits = (range max).map f) (t : Nat) :
    s.Mem t ↔ t / 64 < max ∧ (f (t / 64)).getLsbD (t % 64) = true := by
  unfold Mem word
  rw [h]
  by_cases hlt : t / 64 < max
  · simp [hlt]
  · simp [hlt]

theorem mem_of_all_zero (h : s.bits.all (· = 0) = true) (t : Nat) : ¬ s.Mem t := by
  intro hm
  have hlt := hm.lt
  have hz := List.all_eq_true.mp h _ (getElem_mem hlt)
  unfold Mem word at hm
  rw [getD_eq_getElem?_getD, getElem?_eq_getElem hlt] at hm
  simp only [decide_eq_true_eq] at hz
  rw [hz] at hm
  simp at hm

/-- Dropping the words of an empty set changes nothing. -/
theorem mem_ite_empty {l : Bool} (t : Nat) :
    (⟨if bits.all (· = 0) then [] else bits, l⟩ : BitSet).Mem t ↔ (⟨bits, s.hasListeners⟩ : BitSet).Mem t := by
  by_cases h : bits.all (· = 0) = true
  · rw [if_pos h]
    constructor
    · intro hm
      have := hm.lt
      simp at this
    · intro hm
      exact absurd hm (mem_of_all_zero h t)
  · rw [if_neg h]
    rfl

/-! ### What is fired -/

theorem mem_notifyBits (hl : s.hasListeners = true) {bits : Long} : c ∈ s.notifyBits n bits removed ↔
      c.removed = removed ∧ c.element / 64 = n ∧ bits.getLsbD (c.element % 64) = true := by
  unfold notifyBits notifyObservers
  simp only [hl, if_true, mem_flatMap, mem_range]
  constructor
  · rintro ⟨b, hb, hc⟩
    by_cases hbit : mask b &&& bits = mask b
    · rw [if_pos hbit, mem_singleton] at hc
      subst hc
      rw [mask_and_eq hb] at hbit
      refine ⟨rfl, by show (n * 64 + b) / 64 = n; omega, ?_⟩
      rw [show (n * 64 + b) % 64 = b by omega]
      exact hbit
    · rw [if_neg hbit] at hc
      simp at hc
  · rintro ⟨hr, hn, hbit⟩
    have hb : c.element % 64 < 64 := mod_lt _ (by decide)
    refine ⟨c.element % 64, hb, ?_⟩
    rw [if_pos ((mask_and_eq hb bits).mpr hbit), mem_singleton]
    cases c with
    | mk element removed' =>
      subst hr hn
      simp only [SetChange.mk.injEq, and_true]
      omega

theorem eq_of_mem_notifyObservers (h : c ∈ s.notifyObservers t removed) : c = ⟨t, removed⟩ := by
  unfold notifyObservers at h
  split at h
  · exact List.mem_singleton.mp h
  · simp at h

theorem nodup_notifyObservers (s : BitSet) (t : Nat) (removed : Bool) : (s.notifyObservers t removed).Nodup := by
  unfold notifyObservers
  split <;> simp

theorem nodup_notifyBits (s : BitSet) (n : Nat) (bits : Long) (removed : Bool) :
    (s.notifyBits n bits removed).Nodup := by
  have hone : ∀ b c, c ∈ (if mask b &&& bits = mask b then s.notifyObservers (n * 64 + b) removed
      else []) → c.element = n * 64 + b := by
    intro b c hc
    split at hc
    · rw [eq_of_mem_notifyObservers hc]
    · simp at hc
  unfold notifyBits
  rw [nodup_flatMap]
  constructor
  · intro b _
    split
    · exact nodup_notifyObservers s _ removed
    · exact nodup_nil
  · refine List.Pairwise.imp ?_ (nodup_range)
    intro b b' hne c hc hc'
    have h1 := hone b c hc
    have h2 := hone b' c hc'
    omega

theorem fired_words (hl : s.hasListeners = true) (f : Nat → Long) (max : Nat) (removed : Bool) :
    ((range max).flatMap fun n => s.notifyBits n (f n) removed).Nodup ∧
      ∀ c, c ∈ ((range max).flatMap fun n => s.notifyBits n (f n) removed) ↔
        c.removed = removed ∧ c.element / 64 < max ∧ (f (c.element / 64)).getLsbD (c.element % 64) = true := by
  constructor
  · rw [nodup_flatMap]
    refine ⟨fun n _ => nodup_notifyBits s n _ removed, ?_⟩
    refine List.Pairwise.imp ?_ (nodup_range)
    intro n n' hne c hc hc'
    rw [mem_notifyBits hl] at hc hc'
    exact hne (hc.2.1.symm.trans hc'.2.1)
  · intro c
    rw [mem_flatMap]
    constructor
    · rintro ⟨n, hn, hc⟩
      rw [mem_notifyBits hl] at hc
      obtain ⟨hr, rfl, hbit⟩ := hc
      exact ⟨hr, List.mem_range.mp hn, hbit⟩
    · rintro ⟨hr, hlt, hbit⟩
      exact ⟨c.element / 64, List.mem_range.mpr hlt, (mem_notifyBits hl).mpr ⟨hr, rfl, hbit⟩⟩

theorem notifyBits_zero (s : BitSet) (n : Nat) (removed : Bool) : s.notifyBits n 0 removed = [] := by
  unfold notifyBits
  rw [flatMap_eq_nil_iff]
  intro b hb
  rw [if_neg]
  rw [mask_and_eq (List.mem_range.mp hb)]
  simp

/-! ### One element -/

theorem word_set (h : s.bits = bits) {m : Nat} (hn : n < bits.length) :
    ({ s with bits := bits.set n x } : BitSet).word m = if m = n then x else s.word m := by
  subst h
  unfold word
  simp only [getD_eq_getElem?_getD, getElem?_set]
  by_cases hm : m = n
  · subst hm
    simp [hn]
  · rw [if_neg (Ne.symm hm), if_neg hm]

theorem word_append_zeros (s : BitSet) (k n : Nat) : (s.bits ++ replicate k 0).getD n 0 = s.word n := by
  unfold word
  simp only [getD_eq_getElem?_getD]
  by_cases hn : n < s.bits.length
  · rw [getElem?_append_left hn]
  · rw [getElem?_append_right (by omega), getElem?_eq_none (l := s.bits) (by omega), getElem?_replicate]
    split <;> simp

theorem mem_iff_of_word {s' : BitSet} (h : ∀ n, s'.word n = if n = t / 64 then x else s.word n) (u : Nat) :
    s'.Mem u ↔ if u / 64 = t / 64 then x.getLsbD (u % 64) = true else s.Mem u := by
  unfold Mem
  split <;> simp [*]

theorem add_mem (s : BitSet) (t u : Nat) : (s.add (some t)).set.Mem u ↔ u = t ∨ s.Mem u := by
  have hb : u % 64 < 64 := mod_lt _ (by decide)
  set grown : BitSet := { s with bits := s.bits ++ replicate (t / 64 + 1 - s.bits.length) 0 }
    with hgrown
  have hword : ∀ n, grown.word n = s.word n := fun n => word_append_zeros s _ n
  have hlen : t / 64 < grown.bits.length := by
    rw [hgrown]
    simp only [length_append, length_replicate]
    omega
  have hset : ∀ n, (s.add (some t)).set.word n
      = if n = t / 64 then s.word (t / 64) ||| mask (t % 64) else s.word n := by
    intro n
    have := word_set rfl (m := n) (x := grown.word (t / 64) ||| mask (t % 64)) hlen
    rw [hword, hword] at this
    rw [← this]
    unfold add word
    simp only [word_append_zeros]
    rfl
  rw [mem_iff_of_word hset]
  by_cases hn : u / 64 = t / 64
  · rw [BitVec.getLsbD_or, mask_getLsbD hb]
    unfold Mem
    rw [hn]
    have : u % 64 = t % 64 ↔ u = t := by omega
    simp only [Bool.or_eq_true, decide_eq_true_eq, this]
    exact or_comm
  · rw [if_neg hn]
    have : u ≠ t := fun h => hn (by rw [h])
    simp [this]

theorem or_mask_ne (hb : b < 64) : x ||| mask b ≠ x ↔ x.getLsbD b = false := by
  rw [word_ne_iff]
  constructor
  · rintro ⟨i, hi, hne⟩
    rw [BitVec.getLsbD_or, mask_getLsbD hi] at hne
    by_cases hib : i = b
    · subst hib
      simpa using hne
    · simp [hib] at hne
  · intro h
    refine ⟨b, hb, ?_⟩
    rw [BitVec.getLsbD_or, mask_getLsbD hb, h]
    simp

theorem and_not_mask_ne (hb : b < 64) : x &&& ~~~mask b ≠ x ↔ x.getLsbD b = true := by
  rw [word_ne_iff]
  constructor
  · rintro ⟨i, hi, hne⟩
    rw [BitVec.getLsbD_and, getLsbD_not hi, mask_getLsbD hi] at hne
    by_cases hib : i = b
    · subst hib
      simpa using hne
    · simp [hib] at hne
  · intro h
    refine ⟨b, hb, ?_⟩
    rw [BitVec.getLsbD_and, getLsbD_not hb, mask_getLsbD hb, h]
    simp

theorem add_modified (s : BitSet) (t : Nat) : (s.add (some t)).modified = true ↔ ¬ s.Mem t := by
  have hb : t % 64 < 64 := mod_lt _ (by decide)
  have hlen : t / 64 < (s.bits ++ replicate (t / 64 + 1 - s.bits.length) (0 : Long)).length := by
    simp only [length_append, length_replicate]
    omega
  unfold add Mem
  simp only [word_append_zeros, decide_eq_true_eq]
  rw [getD_eq_getElem?_getD, getElem?_set_self hlen, Option.getD_some, or_mask_ne hb]
  simp

theorem add_fired (s : BitSet) (t : Nat) :
    (s.add (some t)).fired = if (s.add (some t)).modified then s.notifyObservers t false else [] := by
  unfold add
  simp only [decide_eq_true_eq]

/-- **`remove`** clears the bit of the element, and says so if it was set. -/
theorem remove_spec (s : BitSet) (t : Nat) : (∀ u, (s.remove (some t)).set.Mem u ↔ u ≠ t ∧ s.Mem u) ∧
      ((s.remove (some t)).modified = true ↔ s.Mem t) ∧
      (s.remove (some t)).fired = if (s.remove (some t)).modified then s.notifyObservers t true else [] := by
  have hb : t % 64 < 64 := mod_lt _ (by decide)
  by_cases hlen : s.bits.length ≤ t / 64
  · have hno : ¬ s.Mem t := fun h => by have := h.lt; omega
    have heq : s.remove (some t) = ⟨s, false, []⟩ := by
      unfold remove
      simp only [if_pos hlen]
    rw [heq]
    refine ⟨?_, by simpa using hno, rfl⟩
    intro u
    constructor
    · intro hu
      exact ⟨fun h => hno (h ▸ hu), hu⟩
    · intro hu
      exact hu.2
  · have hlen' : t / 64 < s.bits.length := by omega
    set bits := s.bits.set (t / 64) (s.word (t / 64) &&& ~~~mask (t % 64)) with hbits
    have hword : ∀ n, (⟨bits, s.hasListeners⟩ : BitSet).word n
        = if n = t / 64 then s.word (t / 64) &&& ~~~mask (t % 64) else s.word n :=
      fun n => word_set rfl hlen'
    have hmem : ∀ u, (⟨bits, s.hasListeners⟩ : BitSet).Mem u ↔ u ≠ t ∧ s.Mem u := by
      intro u
      have hu : u % 64 < 64 := mod_lt _ (by decide)
      rw [mem_iff_of_word hword]
      by_cases hn : u / 64 = t / 64
      · rw [BitVec.getLsbD_and, getLsbD_not hu, mask_getLsbD hu]
        unfold Mem
        rw [hn]
        have : u % 64 = t % 64 ↔ u = t := by omega
        simp only [Bool.and_eq_true, Bool.not_eq_true', decide_eq_false_iff_not, this]
        exact and_comm
      · rw [if_neg hn]
        have : u ≠ t := fun h => hn (by rw [h])
        simp [this]
    have hget : bits.getD (t / 64) 0 = s.word (t / 64) &&& ~~~mask (t % 64) := by
      have := hword (t / 64)
      rw [if_pos rfl] at this
      exact this
    by_cases hm : s.Mem t
    · have heq : s.remove (some t) = ⟨⟨if bits.all (· = 0) then [] else bits, s.hasListeners⟩, true,
              s.notifyObservers t true⟩ := by
        unfold remove
        simp only [if_neg hlen]
        rw [if_pos]
        · rfl
        · show bits.getD (t / 64) 0 ≠ s.word (t / 64)
          rw [hget]
          exact (and_not_mask_ne hb).mpr hm
      rw [heq]
      refine ⟨?_, by simpa using hm, rfl⟩
      intro u
      exact (mem_ite_empty u).trans (hmem u)
    · have heq : s.remove (some t) = ⟨⟨bits, s.hasListeners⟩, false, []⟩ := by
        unfold remove
        simp only [if_neg hlen]
        rw [if_neg]
        · rfl
        · show ¬ bits.getD (t / 64) 0 ≠ s.word (t / 64)
          rw [hget, and_not_mask_ne hb]
          exact hm
      rw [heq]
      exact ⟨hmem, by simpa using hm, rfl⟩

/-! ### Two sets -/

theorem union_word (s other : BitSet) (n : Nat) :
    (if n < s.bits.length ∧ n < other.bits.length then s.word n ||| other.word n
      else if n < s.bits.length then s.word n else other.word n) = s.word n ||| other.word n := by
  by_cases ha : n < s.bits.length
  · by_cases hb : n < other.bits.length
    · rw [if_pos ⟨ha, hb⟩]
    · rw [if_pos ha, word_eq_zero (s := other) (by omega)]
      simp
  · rw [if_neg ha, word_eq_zero (s := s) (by omega)]
    simp

theorem added_bits (s other : BitSet) (n : Nat) : (if n < s.bits.length ∧ n < other.bits.length then
        s.notifyBits n (~~~s.word n &&& other.word n) false
      else if n < s.bits.length then [] else s.notifyBits n (other.word n) false)
      = s.notifyBits n (~~~s.word n &&& other.word n) false := by
  by_cases ha : n < s.bits.length
  · by_cases hb : n < other.bits.length
    · rw [if_pos ⟨ha, hb⟩]
    · rw [if_neg (fun h => hb h.2), if_pos ha, word_eq_zero (s := other) (by omega)]
      show [] = s.notifyBits n (~~~s.word n &&& 0#64) false
      rw [BitVec.and_zero]
      exact (notifyBits_zero s n false).symm
  · rw [if_neg (fun h => ha h.1), if_neg ha, word_eq_zero (s := s) (by omega)]
    congr 1
    apply BitVec.eq_of_getLsbD_eq
    intro i hi
    rw [BitVec.getLsbD_and, getLsbD_not hi]
    simp

/-- One of two sets has an element in the words that the other has not. -/
theorem any_ne_iff {s' : BitSet} : ((range max).any fun n => decide (s'.word n ≠ s.word n)) = true ↔
    ∃ t, t / 64 < max ∧ ¬ (s'.Mem t ↔ s.Mem t) := by
  unfold Mem
  rw [any_eq_true, exists_element (p := fun n b => n < max ∧ ¬ ((s'.word n).getLsbD b = true ↔ (s.word n).getLsbD b = true))]
  constructor
  · rintro ⟨n, hn, hne⟩
    rw [decide_eq_true_eq, word_ne_iff] at hne
    obtain ⟨b, hb, hne⟩ := hne
    exact ⟨n, b, hb, List.mem_range.mp hn, fun h => hne (Bool.eq_iff_iff.mpr h)⟩
  · rintro ⟨n, b, hb, hn, hne⟩
    refine ⟨n, List.mem_range.mpr hn, ?_⟩
    rw [decide_eq_true_eq, word_ne_iff]
    exact ⟨b, hb, fun h => hne (Bool.eq_iff_iff.mp h)⟩

theorem and_not_iff (s other : BitSet) (t : Nat) :
    (s.word (t / 64) &&& ~~~other.word (t / 64)).getLsbD (t % 64) = true ↔ s.Mem t ∧ ¬ other.Mem t := by
  rw [BitVec.getLsbD_and, getLsbD_not (mod_lt _ (by decide)), Bool.and_eq_true, Bool.not_eq_true', ← Bool.not_eq_true]
  rfl

/-- A bulk call that finds something to do leaves another set behind and fires; else it leaves all as it is. -/
theorem bulk_spec {r : Result} {set : BitSet} {fired : List SetChange} {test changed : Prop} [Decidable test]
    {p q : Nat → Prop}
    (hr : r = if test then ⟨set, true, if s.hasListeners then fired else []⟩ else ⟨s, false, []⟩)
    (htest : test ↔ changed) (hset : changed → ∀ t, set.Mem t ↔ p t)
    (hsame : ¬ changed → ∀ t, (s.Mem t ↔ p t) ∧ ¬ q t)
    (hfired : s.hasListeners = true → fired.Nodup ∧ ∀ c, c ∈ fired ↔ c.removed = removed ∧ q c.element) :
    (∀ t, r.set.Mem t ↔ p t) ∧ (r.modified = true ↔ changed) ∧
      (s.hasListeners = true → r.fired.Nodup ∧ ∀ c, c ∈ r.fired ↔ c.removed = removed ∧ q c.element) := by
  by_cases h : changed
  · rw [hr, if_pos (htest.mpr h)]
    refine ⟨hset h, by simpa using h, fun hl => ?_⟩
    simp only [hl]
    exact hfired hl
  · rw [hr, if_neg (fun ht => h (htest.mp ht))]
    refine ⟨fun t => (hsame h t).1, by simpa using h, fun _ => ⟨nodup_nil, fun c => ?_⟩⟩
    simp [(hsame h c.element).2]

/-- **`addAll`** is the union.  It takes a longer array for a change. -/
theorem addAll_spec (s other : BitSet) : (∀ t, (s.addAll (some other)).set.Mem t ↔ s.Mem t ∨ other.Mem t) ∧
      ((s.addAll (some other)).modified = true ↔ s.bits.length < other.bits.length ∨ ∃ t, other.Mem t ∧ ¬ s.Mem t) ∧
      (s.hasListeners = true → (s.addAll (some other)).fired.Nodup ∧ ∀ c, c ∈ (s.addAll (some other)).fired ↔
          c.removed = false ∧ other.Mem c.element ∧ ¬ s.Mem c.element) := by
  set max := if s.bits.length < other.bits.length then other.bits.length else s.bits.length with hmax
  have hlt_max : ∀ n, n < max ↔ n < s.bits.length ∨ n < other.bits.length := by
    intro n
    rw [hmax]
    split <;> omega
  set union : BitSet := { s with bits := (range max).map fun n => s.word n ||| other.word n }
  have hmem : ∀ t, union.Mem t ↔ s.Mem t ∨ other.Mem t := by
    intro t
    rw [mem_map_range rfl, BitVec.getLsbD_or, Bool.or_eq_true]
    exact and_iff_right_of_imp fun h => (hlt_max _).mpr (h.imp Mem.lt Mem.lt)
  -- a word that has no counterpart counts as changed
  have htest : ((range max).any fun n =>
      if n < s.bits.length ∧ n < other.bits.length then decide (union.word n ≠ s.word n)
      else if n < s.bits.length then false else true) = true ↔
        s.bits.length < other.bits.length ∨ ∃ t, other.Mem t ∧ ¬ s.Mem t := by
    by_cases hlt : s.bits.length < other.bits.length
    · simp only [hlt, true_or, iff_true]
      rw [any_eq_true]
      exact ⟨s.bits.length, List.mem_range.mpr ((hlt_max _).mpr (.inr hlt)), by simp⟩
    · have hall : ∀ n ∈ range max, (if n < s.bits.length ∧ n < other.bits.length then decide (union.word n ≠ s.word n)
          else if n < s.bits.length then false else true) = decide (union.word n ≠ s.word n) := by
        intro n hn
        have hn := List.mem_range.mp hn
        have ha : n < s.bits.length := by
          rcases (hlt_max n).mp hn with h | h
          · exact h
          · omega
        by_cases hb : n < other.bits.length
        · rw [if_pos ⟨ha, hb⟩]
        · have : union.word n = s.word n ||| other.word n := by
            unfold word
            rw [getD_eq_getElem?_getD, getElem?_map, getElem?_range hn]
            rfl
          rw [this, word_eq_zero (s := other) (by omega)]
          simp [ha]
      rw [any_eq_true, exists_congr fun n => and_congr_right fun hn => by rw [hall n hn], ← any_eq_true, any_ne_iff]
      simp only [hlt, false_or]
      refine exists_congr fun t => ?_
      rw [hmem, or_iff_left_iff_imp, Classical.not_imp, hlt_max]
      exact and_iff_right_of_imp fun h => .inr h.1.lt
  have hr : s.addAll (some other) = if ((range max).any fun n =>
        if n < s.bits.length ∧ n < other.bits.length then decide (union.word n ≠ s.word n)
        else if n < s.bits.length then false else true) = true then
      ⟨union, true, if s.hasListeners then (range max).flatMap fun n =>
        s.notifyBits n (~~~s.word n &&& other.word n) false else []⟩ else ⟨s, false, []⟩ := by
    unfold addAll
    simp only [union_word, added_bits]
    rfl
  refine bulk_spec (q := fun t => other.Mem t ∧ ¬ s.Mem t) hr htest (fun _ => hmem) (fun hno t => ?_) (fun hl => ?_)
  · have hsub : other.Mem t → s.Mem t := fun ht => by_contra fun hs => hno (.inr ⟨t, ht, hs⟩)
    exact ⟨⟨.inl, fun h => h.elim id hsub⟩, fun h => h.2 (hsub h.1)⟩
  · obtain ⟨hnodup, hfired⟩ := fired_words hl (fun n => ~~~s.word n &&& other.word n) max false
    refine ⟨hnodup, fun c => (hfired c).trans ?_⟩
    rw [BitVec.and_comm, and_not_iff]
    exact and_congr_right' (and_iff_right_of_imp fun h => (hlt_max _).mpr (.inr h.1.lt))

theorem removed_bits (s other : BitSet) (n : Nat) :
    (if n < other.bits.length then s.notifyBits n (s.word n &&& ~~~other.word n) true
      else s.notifyBits n (s.word n) true)
      = s.notifyBits n (s.word n &&& ~~~other.word n) true := by
  by_cases hb : n < other.bits.length
  · rw [if_pos hb]
  · rw [if_neg hb, word_eq_zero (s := other) (by omega)]
    congr 1
    apply BitVec.eq_of_getLsbD_eq
    intro i hi
    rw [BitVec.getLsbD_and, getLsbD_not hi]
    simp

/-- **`retainAll`** is the intersection.  It takes a shorter array for a change. -/
theorem retainAll_spec (s other : BitSet) : (∀ t, (s.retainAll (some other)).set.Mem t ↔ s.Mem t ∧ other.Mem t) ∧
      ((s.retainAll (some other)).modified = true ↔ other.bits.length < s.bits.length ∨
        ∃ t, s.Mem t ∧ ¬ other.Mem t) ∧
      (s.hasListeners = true → (s.retainAll (some other)).fired.Nodup ∧ ∀ c, c ∈ (s.retainAll (some other)).fired ↔
          c.removed = true ∧ s.Mem c.element ∧ ¬ other.Mem c.element) := by
  set max := if s.bits.length < other.bits.length then s.bits.length else other.bits.length with hmax
  have hlt_max : ∀ n, n < max ↔ n < s.bits.length ∧ n < other.bits.length := by
    intro n
    rw [hmax]
    split <;> omega
  set bits := (range max).map fun n => s.word n &&& other.word n with hbits
  set intersection : BitSet := { s with bits := bits }
  have hmem : ∀ t, intersection.Mem t ↔ s.Mem t ∧ other.Mem t := by
    intro t
    rw [mem_map_range hbits, BitVec.getLsbD_and, Bool.and_eq_true]
    exact and_iff_right_of_imp fun h => (hlt_max _).mpr ⟨Mem.lt h.1, Mem.lt h.2⟩
  have htest : (max < s.bits.length ∨ ((range max).any fun n => decide (intersection.word n ≠ s.word n)) = true) ↔
      other.bits.length < s.bits.length ∨ ∃ t, s.Mem t ∧ ¬ other.Mem t := by
    have hmax' : max < s.bits.length ↔ other.bits.length < s.bits.length := by
      rw [hmax]
      split <;> omega
    rw [any_ne_iff, hmax']
    refine or_congr_right' fun hlt => exists_congr fun t => ?_
    rw [hmem, and_iff_left_iff_imp, Classical.not_imp, hlt_max]
    exact and_iff_right_of_imp fun h => ⟨h.1.lt, by have := h.1.lt; omega⟩
  have hr : s.retainAll (some other)
      = if max < s.bits.length ∨ ((range max).any fun n => decide (intersection.word n ≠ s.word n)) = true then
        ⟨⟨if bits.all (· = 0) then [] else bits, s.hasListeners⟩, true,
          if s.hasListeners then (range s.bits.length).flatMap fun n =>
            s.notifyBits n (s.word n &&& ~~~other.word n) true else []⟩ else ⟨s, false, []⟩ := by
    unfold retainAll
    simp only [removed_bits]
    rfl
  refine bulk_spec (q := fun t => s.Mem t ∧ ¬ other.Mem t) hr htest (fun _ t => (mem_ite_empty t).trans (hmem t)) (fun hno t => ?_) (fun hl => ?_)
  · have hsub : s.Mem t → other.Mem t := fun hs => by_contra fun ho => hno (.inr ⟨t, hs, ho⟩)
    exact ⟨⟨fun h => ⟨h, hsub h⟩, And.left⟩, fun h => h.2 (hsub h.1)⟩
  · obtain ⟨hnodup, hfired⟩ := fired_words hl (fun n => s.word n &&& ~~~other.word n) s.bits.length true
    refine ⟨hnodup, fun c => (hfired c).trans ?_⟩
    rw [and_not_iff]
    exact and_congr_right' (and_iff_right_of_imp fun h => h.1.lt)

/-- **`removeAll`** is the difference, and what lies behind the array of the other set
goes too. -/
theorem removeAll_spec (s other : BitSet) : (∀ t, (s.removeAll (some other)).set.Mem t ↔ s.Mem t ∧ ¬ other.Mem t ∧
        ((∃ u, s.Mem u ∧ other.Mem u) → t / 64 < other.bits.length)) ∧
      ((s.removeAll (some other)).modified = true ↔ ∃ t, s.Mem t ∧ other.Mem t) ∧
      (s.hasListeners = true → (s.removeAll (some other)).fired.Nodup ∧ ∀ c, c ∈ (s.removeAll (some other)).fired ↔
          c.removed = true ∧ s.Mem c.element ∧ other.Mem c.element) := by
  set max := if s.bits.length < other.bits.length then s.bits.length else other.bits.length with hmax
  have hlt_max : ∀ n, n < max ↔ n < s.bits.length ∧ n < other.bits.length := by
    intro n
    rw [hmax]
    split <;> omega
  set bits := (range max).map fun n => s.word n &&& ~~~other.word n with hbits
  set difference : BitSet := { s with bits := bits }
  have hmem : ∀ t, difference.Mem t ↔ s.Mem t ∧ ¬ other.Mem t ∧ t / 64 < other.bits.length := by
    intro t
    rw [mem_map_range hbits, and_not_iff, hlt_max]
    exact ⟨fun h => ⟨h.2.1, h.2.2, h.1.2⟩, fun h => ⟨⟨h.1.lt, h.2.2⟩, h.1, h.2.1⟩⟩
  have htest : ((range max).any fun n => decide (difference.word n ≠ s.word n)) = true ↔ ∃ t, s.Mem t ∧ other.Mem t := by
    rw [any_ne_iff]
    refine exists_congr fun t => ?_
    rw [hmem, hlt_max]
    constructor
    · rintro ⟨⟨-, hlt⟩, h⟩
      by_contra hno
      exact h ⟨And.left, fun hs => ⟨hs, fun ho => hno ⟨hs, ho⟩, hlt⟩⟩
    · rintro ⟨hs, ho⟩
      exact ⟨⟨hs.lt, ho.lt⟩, fun h => (h.mpr hs).2.1 ho⟩
  have hr : s.removeAll (some other) = if ((range max).any fun n => decide (difference.word n ≠ s.word n)) = true then
      ⟨⟨if bits.all (· = 0) then [] else bits, s.hasListeners⟩, true,
        if s.hasListeners then (range max).flatMap fun n =>
          s.notifyBits n (s.word n &&& other.word n) true else []⟩ else ⟨s, false, []⟩ := by
    unfold removeAll
    rfl
  refine bulk_spec (q := fun t => s.Mem t ∧ other.Mem t) hr htest (fun hmod t => ?_) (fun hno t => ?_) (fun hl => ?_)
  · rw [mem_ite_empty, hmem]
    exact ⟨fun h => ⟨h.1, h.2.1, fun _ => h.2.2⟩, fun h => ⟨h.1, h.2.1, h.2.2 hmod⟩⟩
  · exact ⟨⟨fun h => ⟨h, fun ho => hno ⟨t, h, ho⟩, fun h => absurd h hno⟩, And.left⟩, fun h => hno ⟨t, h⟩⟩
  · obtain ⟨hnodup, hfired⟩ := fired_words hl (fun n => s.word n &&& other.word n) max true
    refine ⟨hnodup, fun c => (hfired c).trans ?_⟩
    rw [BitVec.getLsbD_and, Bool.and_eq_true]
    exact and_congr_right' (and_iff_right_of_imp fun h => (hlt_max _).mpr ⟨Mem.lt h.1, Mem.lt h.2⟩)

theorem clear_spec (s : BitSet) : (∀ t, ¬ s.clear.1.Mem t) ∧ (s.hasListeners = true → s.clear.2.Nodup ∧
      ∀ c, c ∈ s.clear.2 ↔ c.removed = true ∧ s.Mem c.element) := by
  refine ⟨fun t h => ?_, fun hl => ?_⟩
  · have := Mem.lt h
    simp [clear] at this
  · obtain ⟨hnodup, hfired⟩ := fired_words hl s.word s.bits.length true
    refine ⟨hnodup, fun c => (hfired c).trans ?_⟩
    exact ⟨fun h => ⟨h.1, h.2.2⟩, fun h => ⟨h.1, Mem.lt h.2, h.2⟩⟩

/-! ### Calls -/

/-- What a call does to a set of elements. -/
def Call.result (elements : Set Nat) : Call → Set Nat
  | .add t => elements ∪ {t}
  | .remove t => elements \ {t}
  | .addAll other => elements ∪ other.members
  | .retainAll other => elements ∩ other.members
  | .removeAll other => elements \ other.members
  | .clear => ∅

/-- A call does what it does to a set of elements, returns whether that changes the set,
and fires exactly what it changes. -/
structure Refines (s : BitSet) (c : Call) : Prop where
  result : (s.call c).1.members = c.result s.members
  returned : ∀ b, (s.call c).2.1 = some b → (b = true ↔ c.result s.members ≠ s.members)
  once : s.hasListeners = true → (s.call c).2.2.Nodup
  added : s.hasListeners = true → ∀ t, ⟨t, false⟩ ∈ (s.call c).2.2 ↔ t ∈ c.result s.members \ s.members
  removed : s.hasListeners = true → ∀ t, ⟨t, true⟩ ∈ (s.call c).2.2 ↔ t ∈ s.members \ c.result s.members

/-- The calls that go wrong.  The arrays differ in length, and `addAll` or `retainAll`
has nothing to do, or `removeAll` has something to remove and there are elements it
does not get to. -/
def Misses (s : BitSet) : Call → Prop
  | .addAll other => s.bits.length < other.bits.length ∧ other.members ⊆ s.members
  | .retainAll other => other.bits.length < s.bits.length ∧ s.members ⊆ other.members
  | .removeAll other => (s.members ∩ other.members).Nonempty ∧
      ∃ t ∈ s.members, other.bits.length ≤ t / 64
  | _ => False

/-- A call that only adds or only removes, and fires what it adds or removes. -/
theorem Refines.of_fired (call : Call) (removed : Bool) (result : (s.call call).1.members = call.result s.members)
    (returned : ∀ b, (s.call call).2.1 = some b → (b = true ↔ call.result s.members ≠ s.members))
    (honly : if removed then call.result s.members ⊆ s.members else s.members ⊆ call.result s.members)
    (hfired : s.hasListeners = true → (s.call call).2.2.Nodup ∧ ∀ c, c ∈ (s.call call).2.2 ↔ c.removed = removed ∧
      if removed then c.element ∈ s.members \ call.result s.members else c.element ∈ call.result s.members \ s.members) :
    Refines s call := by
  refine ⟨result, returned, fun hl => (hfired hl).1, fun hl t => ((hfired hl).2 _).trans ?_,
    fun hl t => ((hfired hl).2 _).trans ?_⟩
  · cases removed with
    | false => simp
    | true => simpa using fun h => honly h
  · cases removed with
    | false => simpa using fun h => honly h
    | true => simp

theorem fired_one (hl : s.hasListeners = true) (t : Nat) (removed modified : Bool) :
    (if modified then s.notifyObservers t removed else []).Nodup ∧
      ∀ c, c ∈ (if modified then s.notifyObservers t removed else []) ↔ c.removed = removed ∧
        c.element = t ∧ modified = true := by
  cases modified with
  | false => simp
  | true =>
    refine ⟨nodup_notifyObservers s t removed, fun c => ?_⟩
    cases c with
    | mk element removed' =>
      simp [notifyObservers, hl, and_comm]

theorem add_refines (s : BitSet) (t : Nat) : Refines s (.add t) := by
  have hmod := add_modified s t
  have hchange : s.members ∪ {t} ≠ s.members ↔ ¬ s.Mem t := by
    rw [Ne, Set.union_eq_left, Set.singleton_subset_iff, mem_members]
  refine .of_fired (.add t) false ?_ ?_ Set.subset_union_left fun hl => ?_
  · ext u
    show u ∈ (s.add (some t)).set.members ↔ u ∈ s.members ∪ {t}
    rw [mem_members, add_mem, Set.mem_union, mem_members]
    exact or_comm
  · intro b hb
    obtain rfl : (s.add (some t)).modified = b := Option.some.inj hb
    exact hmod.trans hchange.symm
  · show (s.add (some t)).fired.Nodup ∧ ∀ c, c ∈ (s.add (some t)).fired ↔ c.removed = false ∧ c.element ∈ (s.members ∪ {t}) \ s.members
    rw [add_fired]
    refine ⟨(fired_one hl t false _).1, fun c => ((fired_one hl t false _).2 c).trans (and_congr_right' ?_)⟩
    rw [hmod, Set.union_sdiff_left, Set.mem_sdiff, mem_members]
    exact and_congr_right fun h => by rw [h]

theorem remove_refines (s : BitSet) (t : Nat) : Refines s (.remove t) := by
  obtain ⟨hmem, hmod, hfired⟩ := remove_spec s t
  have hchange : s.members \ {t} ≠ s.members ↔ s.Mem t := by
    rw [Ne, sdiff_eq_left, Set.disjoint_singleton_right, mem_members, not_not]
  refine .of_fired (.remove t) true ?_ ?_ Set.sdiff_subset fun hl => ?_
  · ext u
    show u ∈ (s.remove (some t)).set.members ↔ u ∈ s.members \ {t}
    rw [mem_members, hmem, Set.mem_sdiff, mem_members]
    exact and_comm
  · intro b hb
    obtain rfl : (s.remove (some t)).modified = b := Option.some.inj hb
    exact hmod.trans hchange.symm
  · show (s.remove (some t)).fired.Nodup ∧ ∀ c, c ∈ (s.remove (some t)).fired ↔ c.removed = true ∧ c.element ∈ s.members \ (s.members \ {t})
    rw [hfired]
    refine ⟨(fired_one hl t true _).1, fun c => ((fired_one hl t true _).2 c).trans (and_congr_right' ?_)⟩
    rw [hmod, Set.sdiff_sdiff_right_self, Set.mem_inter_iff, mem_members, and_comm]
    exact and_congr_left fun h => by rw [h]

theorem addAll_refines_iff (s other : BitSet) : Refines s (.addAll other) ↔ ¬ Misses s (.addAll other) := by
  obtain ⟨hmem, hmod, hfired⟩ := addAll_spec s other
  have hchange : s.members ∪ other.members ≠ s.members ↔ ∃ t, other.Mem t ∧ ¬ s.Mem t := by
    rw [Ne, Set.union_eq_left, Set.not_subset]
    simp only [mem_members]
  have hsub : other.members ⊆ s.members ↔ ¬ ∃ t, other.Mem t ∧ ¬ s.Mem t := by
    rw [← hchange, not_not, Set.union_eq_left]
  constructor
  · rintro h ⟨hlt, hle⟩
    have := (h.returned _ rfl).mp (hmod.mpr (.inl hlt))
    exact hsub.mp hle (hchange.mp this)
  · intro h
    refine .of_fired (.addAll other) false ?_ ?_ Set.subset_union_left fun hl => ⟨(hfired hl).1, fun c => ?_⟩
    · ext t
      show t ∈ (s.addAll (some other)).set.members ↔ t ∈ s.members ∪ other.members
      rw [mem_members, hmem, Set.mem_union, mem_members, mem_members]
    · intro b hb
      obtain rfl : (s.addAll (some other)).modified = b := Option.some.inj hb
      refine hmod.trans ((or_iff_right_of_imp fun hlt => ?_).trans hchange.symm)
      by_contra hno
      exact h ⟨hlt, hsub.mpr hno⟩
    · refine ((hfired hl).2 c).trans (and_congr_right' ?_)
      show _ ↔ c.element ∈ (s.members ∪ other.members) \ s.members
      rw [Set.union_sdiff_left, Set.mem_sdiff, mem_members, mem_members]

theorem retainAll_refines_iff (s other : BitSet) : Refines s (.retainAll other) ↔ ¬ Misses s (.retainAll other) := by
  obtain ⟨hmem, hmod, hfired⟩ := retainAll_spec s other
  have hchange : s.members ∩ other.members ≠ s.members ↔ ∃ t, s.Mem t ∧ ¬ other.Mem t := by
    rw [Ne, Set.inter_eq_left, Set.not_subset]
    simp only [mem_members]
  have hsub : s.members ⊆ other.members ↔ ¬ ∃ t, s.Mem t ∧ ¬ other.Mem t := by
    rw [← hchange, not_not, Set.inter_eq_left]
  constructor
  · rintro h ⟨hlt, hle⟩
    have := (h.returned _ rfl).mp (hmod.mpr (.inl hlt))
    exact hsub.mp hle (hchange.mp this)
  · intro h
    refine .of_fired (.retainAll other) true ?_ ?_ Set.inter_subset_left fun hl => ⟨(hfired hl).1, fun c => ?_⟩
    · ext t
      show t ∈ (s.retainAll (some other)).set.members ↔ t ∈ s.members ∩ other.members
      rw [mem_members, hmem, Set.mem_inter_iff, mem_members, mem_members]
    · intro b hb
      obtain rfl : (s.retainAll (some other)).modified = b := Option.some.inj hb
      refine hmod.trans ((or_iff_right_of_imp fun hlt => ?_).trans hchange.symm)
      by_contra hno
      exact h ⟨hlt, hsub.mpr hno⟩
    · refine ((hfired hl).2 c).trans (and_congr_right' ?_)
      show _ ↔ c.element ∈ s.members \ (s.members ∩ other.members)
      rw [Set.sdiff_self_inter, Set.mem_sdiff, mem_members, mem_members]

theorem removeAll_refines_iff (s other : BitSet) : Refines s (.removeAll other) ↔ ¬ Misses s (.removeAll other) := by
  obtain ⟨hmem, hmod, hfired⟩ := removeAll_spec s other
  have hchange : s.members \ other.members ≠ s.members ↔ ∃ t, s.Mem t ∧ other.Mem t := by
    rw [Ne, sdiff_eq_left, Set.not_disjoint_iff]
    simp only [mem_members]
  constructor
  · rintro h ⟨⟨u, hu, hu'⟩, t, ht, hge⟩
    have hcommon : ∃ u, s.Mem u ∧ other.Mem u := ⟨u, mem_members.mp hu, mem_members.mp hu'⟩
    -- the element behind the other array is lost, though it is not in the other set
    have hno : ¬ other.Mem t := fun ho => by have := ho.lt; omega
    have hres : t ∈ (s.call (.removeAll other)).1.members := by
      rw [h.result]
      exact ⟨ht, fun ho => hno (mem_members.mp ho)⟩
    have := ((hmem t).mp (mem_members.mp hres)).2.2 hcommon
    omega
  · intro h
    have hbehind : ∀ t, s.Mem t → (∃ u, s.Mem u ∧ other.Mem u) → t / 64 < other.bits.length := by
      rintro t ht ⟨u, hu, hu'⟩
      by_contra hge
      exact h ⟨⟨u, mem_members.mpr hu, mem_members.mpr hu'⟩, t, mem_members.mpr ht, by omega⟩
    refine .of_fired (.removeAll other) true ?_ ?_ Set.sdiff_subset fun hl => ⟨(hfired hl).1, fun c => ?_⟩
    · ext t
      show t ∈ (s.removeAll (some other)).set.members ↔ t ∈ s.members \ other.members
      rw [mem_members, hmem, Set.mem_sdiff, mem_members, mem_members]
      exact ⟨fun h => ⟨h.1, h.2.1⟩, fun h => ⟨h.1, h.2, hbehind t h.1⟩⟩
    · intro b hb
      obtain rfl : (s.removeAll (some other)).modified = b := Option.some.inj hb
      exact hmod.trans hchange.symm
    · refine ((hfired hl).2 c).trans (and_congr_right' ?_)
      show _ ↔ c.element ∈ s.members \ (s.members \ other.members)
      rw [Set.sdiff_sdiff_right_self, Set.mem_inter_iff, mem_members, mem_members]

theorem clear_refines (s : BitSet) : Refines s .clear := by
  obtain ⟨hmem, hfired⟩ := clear_spec s
  refine .of_fired .clear true ?_ ?_ (Set.empty_subset _) fun hl => ⟨(hfired hl).1, fun c => ?_⟩
  · ext t
    show t ∈ s.clear.1.members ↔ t ∈ (∅ : Set Nat)
    rw [mem_members]
    simpa using hmem t
  · intro b hb
    simp [call] at hb
  · refine ((hfired hl).2 c).trans (and_congr_right' ?_)
    show _ ↔ c.element ∈ s.members \ (∅ : Set Nat)
    rw [Set.sdiff_empty, mem_members]

/-- **A set is what its calls say**, except for the calls that miss. -/
theorem refines_iff (s : BitSet) (c : Call) : Refines s c ↔ ¬ Misses s c := by
  cases c with
  | add t => exact ⟨fun _ h => h, fun _ => add_refines s t⟩
  | remove t => exact ⟨fun _ h => h, fun _ => remove_refines s t⟩
  | addAll other => exact addAll_refines_iff s other
  | retainAll other => exact retainAll_refines_iff s other
  | removeAll other => exact removeAll_refines_iff s other
  | clear => exact ⟨fun _ h => h, fun _ => clear_refines s⟩

/-- The set after some calls. -/
def run (s : BitSet) (calls : List Call) : BitSet := calls.foldl (fun s c => (s.call c).1) s

/-- Removing 0 from {0, 64} leaves nothing, and nobody hears of 64. -/
theorem removeAll_loses_element : ¬ Refines (({ hasListeners := true } : BitSet).run [.add 0, .add 64])
      (.removeAll (({} : BitSet).run [.add 0])) := by
  intro h
  have hmem : (64 : Nat) ∈ (({ hasListeners := true } : BitSet).run [.add 0, .add 64]).members \
      (({} : BitSet).run [.add 0]).members := by
    constructor
    · show contains (some 64) _ = true
      decide
    · show ¬ contains (some 64) _ = true
      decide
  have hkept : (64 : Nat) ∈ ((({ hasListeners := true } : BitSet).run [.add 0, .add 64]).call
      (.removeAll (({} : BitSet).run [.add 0]))).1.members := h.result ▸ hmem
  revert hkept
  show ¬ contains (some 64) _ = true
  decide

end JavaFX.BitSet
