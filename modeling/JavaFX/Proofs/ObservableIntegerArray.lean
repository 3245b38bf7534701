/-
What the calls on `ObservableIntegerArrayImpl` do to the contents.

Each step of a method either throws and leaves the arrays alone, or does one thing to one
array: `ensureCapacity` makes it longer, `copyTo` replaces a part of it.  `Sound` bounds
the sizes, so a sum of `int`s that has wrapped around is larger than any array, and the
array copy that follows throws.
-/
import JavaFX.Collections.ObservableIntegerArray

namespace JavaFX

open Program List Function

/-! ### Sums -/

variable {x : Int}

theorem wrap_of_lt (hlo : -2 ^ 31 ≤ x) (hhi : x < 2 ^ 31) : wrap x = x := by
  unfold wrap
  rw [Int.bmod_def]
  split <;> omega

theorem wrap_of_ge (hlo : 2 ^ 31 ≤ x) (hhi : x < 2 ^ 32) : wrap x = x - 2 ^ 32 := by
  unfold wrap
  rw [Int.bmod_def]
  split <;> omega

namespace ObservableIntegerArray

/-! ### Sizes -/

/-- The size is not greater than the capacity, and the capacity is one an `int[]` can have. -/
structure Sound (a : ObservableIntegerArray) : Prop where
  nonneg : 0 ≤ a.size
  le : a.size ≤ a.array.length
  bound : (a.array.length : Int) ≤ maxValue

theorem Sound.length_contents {a : ObservableIntegerArray} (h : a.Sound) : (a.contents.length : Int) = a.size := by
  have := h.nonneg
  have := h.le
  simp only [contents, length_take]
  omega

theorem lists_update (w : Arrays) (this : Nat) (a : ObservableIntegerArray) :
    lists (update w this a) = update (lists w) this a.contents := by
  funext i
  by_cases h : i = this
  · subst h
    simp [lists]
  · simp [lists, h]

theorem sound_update {w : Arrays} (h : ∀ i, (w i).Sound) {this : Nat} {a : ObservableIntegerArray}
    (ha : a.Sound) : ∀ i, (update w this a i).Sound := by
  intro i
  by_cases hi : i = this
  · subst hi
    simpa using ha
  · simpa [hi] using h i

/-- `arraycopy` into the middle of an array. -/
def splice (array : List Int) (index : Int) (xs : List Int) : List Int :=
  array.take index.toNat ++ xs ++ array.drop (index.toNat + xs.length)

theorem length_splice {array xs : List Int} {index : Int} (h0 : 0 ≤ index)
    (h : index + xs.length ≤ array.length) : (splice array index xs).length = array.length := by
  simp only [splice, length_append, length_take, length_drop]
  omega

variable {srcPos destPos length : Int}

variable {dest : List Int} {size : Int}

theorem arraycopy_eq {src : List Int} (hsrc : 0 ≤ srcPos ∧ 0 ≤ length ∧ srcPos + length ≤ src.length)
    (hdest : 0 ≤ destPos ∧ destPos + length ≤ dest.length) :
    arraycopy src srcPos dest destPos length
      = .ok (splice dest destPos ((src.drop srcPos.toNat).take length.toNat)) := by
  have hlen : ((src.drop srcPos.toNat).take length.toNat).length = length.toNat := by
    simp only [length_take, length_drop]
    omega
  have hend : (destPos + length).toNat = destPos.toNat + length.toNat := by omega
  rw [arraycopy, if_pos ⟨hsrc.1, hdest.1, hsrc.2.1, hsrc.2.2, hdest.2⟩, splice, hlen, hend]

theorem arraycopy_error {src : List Int}
    (h : ¬(0 ≤ srcPos ∧ 0 ≤ destPos ∧ 0 ≤ length ∧ srcPos + length ≤ src.length ∧ destPos + length ≤ dest.length)) :
    arraycopy src srcPos dest destPos length = .error .indexOutOfBounds := by
  rw [arraycopy, if_neg h]

/-! ### Single steps -/

variable {w : Arrays} {this : Nat}

theorem write_apply (f : ObservableIntegerArray → ObservableIntegerArray) :
    write this f w = (.ok (), update w this (f (w this))) := rfl

theorem rangeCheck_of_le (h : size ≤ (w this).size) : rangeCheck this size w = (.ok (), w) := by
  simp only [rangeCheck]
  rw [bind_ok (read_apply _ w), if_neg (by omega)]
  rfl

theorem rangeCheck_of_lt (h : (w this).size < size) : rangeCheck this size w = (.error .indexOutOfBounds, w) := by
  simp only [rangeCheck]
  rw [bind_ok (read_apply _ w), if_pos h]
  rfl

theorem copyInto_of_ok {src array : List Int} (h : arraycopy src srcPos (w this).array destPos length = .ok array) :
    copyInto this src srcPos destPos length w = (.ok (), update w this { w this with array }) := by
  simp only [copyInto]
  rw [bind_ok (read_apply _ w), h]
  rfl

theorem copyInto_of_error {src : List Int} {e : JavaException}
    (h : arraycopy src srcPos (w this).array destPos length = .error e) :
    copyInto this src srcPos destPos length w = (.error e, w) := by
  simp only [copyInto]
  rw [bind_ok (read_apply _ w), h]
  rfl

end ObservableIntegerArray

open ObservableIntegerArray

/-! ### Sources -/

namespace IntSource

variable {w : Arrays} {this : Nat} {src : IntSource} {xs : List Int}

theorem size_of_some (h : ∀ i, (w i).Sound) (hsrc : src.elements (lists w) = some xs) :
    src.size w = (.ok (xs.length : Int), w) := by
  cases src with
  | ints a =>
    obtain rfl := Option.some.inj hsrc
    rfl
  | array ref =>
    obtain rfl := Option.some.inj hsrc
    simp only [size, read_apply, lists, (h ref).length_contents]
  | null => simp [elements] at hsrc

theorem length_le (h : ∀ i, (w i).Sound) (hsrc : src.elements (lists w) = some xs) :
    (xs.length : Int) ≤ maxValue := by
  cases src with
  | ints a =>
    obtain rfl := Option.some.inj hsrc
    exact a.bound
  | array ref =>
    obtain rfl := Option.some.inj hsrc
    have := (h ref).length_contents
    have := (h ref).le
    have := (h ref).bound
    simp only [lists]
    omega
  | null => simp [elements] at hsrc

theorem elements_eq_none (hsrc : src.elements (lists w) = none) : src = .null := by
  cases src <;> simp [elements] at hsrc ⊢

variable {destIndex : Int}

section

variable (h : ∀ i, (w i).Sound)
include h

theorem copyTo_of_inRange (hsrc : src.elements (lists w) = some xs)
    {srcIndex length : Int} (hs : 0 ≤ srcIndex ∧ 0 ≤ length ∧ srcIndex + length ≤ xs.length)
    (hd : 0 ≤ destIndex ∧ destIndex + length ≤ (w this).array.length) :
    src.copyTo srcIndex this destIndex length w = (.ok (), update w this { w this with
          array := splice (w this).array destIndex ((xs.drop srcIndex.toNat).take length.toNat) }) := by
  have hmax := length_le h hsrc
  simp only [maxValue] at hmax
  cases src with
  | ints a =>
    obtain rfl := Option.some.inj hsrc
    exact copyInto_of_ok (arraycopy_eq hs hd)
  | array ref =>
    obtain rfl := Option.some.inj hsrc
    have hlen := (h ref).length_contents
    have hle := (h ref).le
    simp only [lists] at hs hmax ⊢
    have hcheck : ObservableIntegerArray.rangeCheck ref (wrap (srcIndex + length)) w = (.ok (), w) := by
      apply rangeCheck_of_le
      rw [wrap_of_lt (by omega) (by omega)]
      omega
    have hslice : ((w ref).array.drop srcIndex.toNat).take length.toNat
        = ((w ref).contents.drop srcIndex.toNat).take length.toNat := by
      rw [contents, drop_take, take_take, Nat.min_eq_left (by omega)]
    simp only [copyTo]
    rw [bind_ok hcheck, bind_ok (read_apply _ w), copyInto_of_ok (arraycopy_eq (by omega) hd), hslice]
  | null => simp [elements] at hsrc

theorem copyTo_of_not_inRange {srcIndex length : Int}
    (hsrcIndex : srcIndex < 2 ^ 31) (hlength : length < 2 ^ 31)
    (hnot : ∀ xs, src.elements (lists w) = some xs →
      ¬(0 ≤ srcIndex ∧ 0 ≤ destIndex ∧ 0 ≤ length ∧ srcIndex + length ≤ xs.length ∧
        destIndex + length ≤ (w this).array.length)) :
    ∃ e, src.copyTo srcIndex this destIndex length w = (.error e, w) := by
  cases src with
  | ints a => exact ⟨_, copyInto_of_error (arraycopy_error (hnot _ rfl))⟩
  | array ref =>
    have hlen := (h ref).length_contents
    have hmax := (h ref).bound
    have hno := hnot _ rfl
    simp only [lists, maxValue] at hno hmax
    simp only [copyTo]
    by_cases hcheck : wrap (srcIndex + length) ≤ (w ref).size
    · refine ⟨.indexOutOfBounds, ?_⟩
      rw [bind_ok (rangeCheck_of_le hcheck), bind_ok (read_apply _ w), copyInto_of_error (arraycopy_error ?_)]
      intro hin
      -- within the `int[]`, so the sum has not wrapped around
      rw [wrap_of_lt (by omega) (by omega)] at hcheck
      apply hno
      omega
    · exact ⟨_, bind_error (rangeCheck_of_lt (by omega))⟩
  | null => exact ⟨_, rfl⟩

theorem copyTo_cases {srcIndex length : Int} (hsrcIndex : srcIndex < 2 ^ 31) (hlength : length < 2 ^ 31)
    (this : Nat) (destIndex : Int) :
    (∃ xs, src.elements (lists w) = some xs ∧ (0 ≤ srcIndex ∧ 0 ≤ length ∧ srcIndex + length ≤ xs.length) ∧
      (0 ≤ destIndex ∧ destIndex + length ≤ (w this).array.length) ∧
      src.copyTo srcIndex this destIndex length w = (.ok (), update w this { w this with
        array := splice (w this).array destIndex ((xs.drop srcIndex.toNat).take length.toNat) })) ∨
    ∃ e, src.copyTo srcIndex this destIndex length w = (.error e, w) := by
  by_cases hin : ∃ xs, src.elements (lists w) = some xs ∧ (0 ≤ srcIndex ∧ 0 ≤ length ∧ srcIndex + length ≤ xs.length) ∧
      0 ≤ destIndex ∧ destIndex + length ≤ (w this).array.length
  · obtain ⟨xs, hsrc, hrange, hdest⟩ := hin
    exact .inl ⟨xs, hsrc, hrange, hdest, copyTo_of_inRange h hsrc hrange hdest⟩
  · refine .inr (copyTo_of_not_inRange h hsrcIndex hlength fun xs hsrc hall => hin ⟨xs, hsrc, ?_⟩)
    exact ⟨⟨hall.1, hall.2.2.1, hall.2.2.2.1⟩, hall.2.1, hall.2.2.2.2⟩

theorem rangeCheck_cases (srcIndex length : Int) :
    (∃ e, src.rangeCheck srcIndex length w = (.error e, w) ∧ ∀ xs, src.elements (lists w) = some xs →
        ¬(0 ≤ srcIndex ∧ 0 ≤ length ∧ wrap (srcIndex + length) ≤ xs.length)) ∨
    ∃ xs, src.rangeCheck srcIndex length w = (.ok (), w) ∧ src.elements (lists w) = some xs ∧
      0 ≤ srcIndex ∧ 0 ≤ length ∧ wrap (srcIndex + length) ≤ xs.length := by
  cases hsrc : src.elements (lists w) with
  | none =>
    left
    refine ⟨.nullPointer, ?_, by simp⟩
    rw [elements_eq_none hsrc]
    rfl
  | some xs =>
    simp only [rangeCheck, bind_ok (size_of_some h hsrc), Option.some.injEq]
    by_cases hsum : srcIndex < 0 ∨ (xs.length : Int) < wrap (srcIndex + length)
    · left
      refine ⟨.indexOutOfBounds, ?_, ?_⟩
      · rw [if_pos hsum]
        rfl
      · rintro _ rfl
        omega
    · rw [if_neg hsum]
      by_cases hneg : length < 0
      · left
        refine ⟨.indexOutOfBounds, ?_, ?_⟩
        · rw [if_pos hneg]
          rfl
        · rintro _ rfl
          omega
      · right
        refine ⟨xs, ?_, rfl, by omega, by omega, by omega⟩
        rw [if_neg hneg]
        rfl

end

end IntSource

namespace ObservableIntegerArray

variable {w : Arrays} {this : Nat} {heap : Int → Bool}

/-! ### Capacity -/

/-- The array `this` with `n` more places. -/
def grown (w : Arrays) (this n : Nat) : Arrays :=
  Function.update w this { w this with array := (w this).array ++ List.replicate n 0 }

variable {a : ObservableIntegerArray} {length capacity d i n srcIndex : Int} {array : List Int} {α : Type}
  {spec : Option (Lists × α)}

theorem contents_grown (h : a.Sound) (n : Nat) :
    ({ a with array := a.array ++ replicate n 0 } : ObservableIntegerArray).contents = a.contents := by
  have := h.le
  simp only [contents]
  exact take_append_of_le_length (by omega)

theorem lists_grown (h : ∀ i, (w i).Sound) (n : Nat) : lists (grown w this n) = lists w := by
  rw [grown, lists_update, contents_grown (h this)]
  exact update_eq_self this (lists w)

theorem grown_zero : grown w this 0 = w := by
  simp [grown]

theorem size_grown (n i : Nat) : (grown w this n i).size = (w i).size := by
  by_cases h : i = this
  · subst h
    simp [grown]
  · simp [grown, h]

theorem sound_grown (h : ∀ i, (w i).Sound) {n : Nat}
    (hn : ((w this).array.length : Int) + n ≤ maxValue) : ∀ i, (grown w this n i).Sound := by
  have hthis := h this
  apply sound_update h
  constructor
  · exact hthis.nonneg
  · have := hthis.le
    simp only [length_append]
    omega
  · simpa using hn

theorem newArray_of_heap (h0 : 0 ≤ length) (hheap : heap length = true) :
    newArray heap length w = (.ok (replicate length.toNat 0), w) := by
  rw [newArray, if_neg (by omega), if_pos hheap]
  rfl

theorem newArray_of_not_heap (h0 : 0 ≤ length) (hheap : heap length = false) :
    newArray heap length w = (.error .outOfMemory, w) := by
  rw [newArray, if_neg (by omega), if_neg (by simp [hheap])]
  rfl

theorem ensureCapacity_error (hlt : ((w this).array.length : Int) < capacity) (hheap : heap capacity = false) :
    ensureCapacity heap this capacity w = (.error .outOfMemory, w) := by
  simp only [ensureCapacity]
  rw [bind_ok (read_apply _ w), if_pos hlt, bind_error (newArray_of_not_heap (by omega) hheap)]

theorem ensureCapacity_ok (hroom : ((w this).array.length : Int) < capacity → heap capacity = true) :
    ensureCapacity heap this capacity w = (.ok (), grown w this (capacity - (w this).array.length).toNat) := by
  simp only [ensureCapacity]
  rw [bind_ok (read_apply _ w)]
  by_cases hlt : ((w this).array.length : Int) < capacity
  · have hcopy : arraycopy (w this).array 0 (replicate capacity.toNat 0) 0 (min (w this).array.length capacity)
          = .ok ((w this).array ++ replicate (capacity - (w this).array.length).toNat 0) := by
      have hmin : min ((w this).array.length : Int) capacity = (w this).array.length := by omega
      have hn : (capacity - (w this).array.length).toNat = capacity.toNat - (w this).array.length := by
        omega
      rw [hmin, arraycopy, if_pos (by simp; omega), hn]
      simp
    rw [if_pos hlt, bind_ok (newArray_of_heap (by omega) (hroom hlt)), hcopy]
    rfl
  · have hzero : (capacity - (w this).array.length).toNat = 0 := by omega
    rw [if_neg hlt, hzero, grown_zero]
    rfl

theorem ensureCapacity_cases (heap : Int → Bool) (this : Nat) (w : Arrays) (capacity : Int) :
    (∃ e, ensureCapacity heap this capacity w = (.error e, w)) ∨
    ensureCapacity heap this capacity w = (.ok (), grown w this (capacity - (w this).array.length).toNat) := by
  by_cases hroom : ((w this).array.length : Int) < capacity → heap capacity = true
  · exact .inr (ensureCapacity_ok hroom)
  · rw [Classical.not_imp, Bool.not_eq_true] at hroom
    exact .inl ⟨_, ensureCapacity_error hroom.1 hroom.2⟩

theorem ensureCapacity_bounded (heap : Int → Bool) (this : Nat) (h : ∀ i, (w i).Sound) (hle : capacity ≤ maxValue) :
    (∃ e, ensureCapacity heap this capacity w = (.error e, w)) ∨
    ∃ n : Nat, ensureCapacity heap this capacity w = (.ok (), grown w this n) ∧
      ((w this).array.length : Int) + n ≤ maxValue := by
  have hbound := (h this).bound
  rcases ensureCapacity_cases heap this w capacity with herr | hok
  · exact .inl herr
  · exact .inr ⟨_, hok, by omega⟩

theorem wrap_le (x : Int) : wrap x ≤ maxValue := by
  have := Int.bmod_lt (x := x) (m := 2 ^ 32) (by omega)
  simp only [wrap, maxValue]
  omega

theorem hugeCapacity_cases (minCapacity : Int) (w : Arrays) : hugeCapacity minCapacity w = (.error .outOfMemory, w) ∨
    ∃ capacity ≤ maxValue, hugeCapacity minCapacity w = (.ok capacity, w) := by
  by_cases hneg : minCapacity < 0
  · left
    rw [hugeCapacity, if_pos hneg]
    rfl
  · right
    refine ⟨if maxArraySize < minCapacity then maxValue else maxArraySize, ?_, ?_⟩
    · split
      · exact Int.le_refl _
      · simp only [maxArraySize]
        omega
    · rw [hugeCapacity, if_neg hneg]
      rfl

theorem growCapacity_cases (heap : Int → Bool) (this : Nat) (h : ∀ i, (w i).Sound) (length : Int) :
    (∃ e, growCapacity heap this length w = (.error e, w)) ∨
    ∃ n : Nat, growCapacity heap this length w = (.ok (), grown w this n) ∧
      ((w this).array.length : Int) + n ≤ maxValue := by
  simp only [growCapacity]
  rw [bind_ok (read_apply _ w)]
  by_cases hgrow : ((w this).array.length : Int) < wrap ((w this).size + length)
  · rw [if_pos hgrow]
    by_cases hmax : maxArraySize
        < if wrap ((w this).array.length + (w this).array.length / 2) < wrap ((w this).size + length)
          then wrap ((w this).size + length)
          else wrap ((w this).array.length + (w this).array.length / 2)
    · rw [if_pos hmax]
      rcases hugeCapacity_cases (wrap ((w this).size + length)) w with herr | ⟨capacity, hle, hok⟩
      · exact .inl ⟨_, bind_error herr⟩
      · rw [bind_ok hok]
        exact ensureCapacity_bounded heap this h hle
    · rw [if_neg hmax]
      apply ensureCapacity_bounded heap this h
      split
      · exact wrap_le _
      · exact wrap_le _
  · rw [if_neg hgrow]
    split
    · exact .inl ⟨_, rfl⟩
    · right
      refine ⟨0, ?_, ?_⟩
      · rw [grown_zero]
        rfl
      · simpa using (h this).bound

/-! ### Contents -/

variable {m : Int} {w' : Arrays} {e : JavaException} {method : Method Unit} {r : Except JavaException α × Arrays}
  {loses : Prop}

theorem take_splice {xs : List Int} (h0 : 0 ≤ d) (hd : d ≤ array.length) (hm : d + xs.length ≤ m) :
    (splice array d xs).take m.toNat = array.take d.toNat ++ xs
        ++ (array.drop (d.toNat + xs.length)).take (m - (d + xs.length)).toNat := by
  have hlen : (array.take d.toNat ++ xs).length = d.toNat + xs.length := by
    simp only [length_append, length_take]
    omega
  rw [splice, take_append, hlen, take_of_length_le (by omega)]
  congr 2
  omega

theorem contents_splice {xs : List Int} (hs : a.Sound) (h0 : 0 ≤ d) (h : d + xs.length ≤ a.size) :
    ({ a with array := splice a.array d xs } : ObservableIntegerArray).contents = splice a.contents d xs := by
  have hle := hs.le
  have hd : min d.toNat a.size.toNat = d.toNat := by omega
  have hrest : (a.size - (d + xs.length)).toNat = a.size.toNat - (d.toNat + xs.length) := by omega
  simp only [contents]
  rw [take_splice h0 (by omega) h, splice, take_take, hd, drop_take, hrest]

/-- The contents after `xs` is written from `d` on and the array ends there. -/
theorem contents_splice_end {xs : List Int} (h0 : 0 ≤ d) (hd : d ≤ a.array.length) (hm : m = d + xs.length) :
    ({ a with array := splice a.array d xs, size := m } : ObservableIntegerArray).contents
      = a.array.take d.toNat ++ xs := by
  have hzero : (m - (d + xs.length)).toNat = 0 := by omega
  simp only [contents]
  rw [take_splice h0 hd (by omega), hzero, take_zero, append_nil]

theorem length_slice {xs : List Int} (h : 0 ≤ i ∧ 0 ≤ n ∧ i + n ≤ xs.length) :
    (((xs.drop i.toNat).take n.toNat).length : Int) = n := by
  simp only [length_take, length_drop]
  omega

theorem slice_eq {xs : List Int} (h : 0 ≤ i ∧ 0 ≤ n ∧ i + n ≤ xs.length) :
    slice xs i n = some ((xs.drop i.toNat).take n.toNat) := by
  rw [slice, if_pos h]

theorem slice_self (xs : List Int) : (xs.drop (0 : Int).toNat).take (xs.length : Int).toNat = xs := by
  simp

theorem overwrite_eq {l xs : List Int} (h0 : 0 ≤ i) (h : i + xs.length ≤ l.length) :
    overwrite l i xs = some (splice l i xs) := by
  rw [overwrite, if_pos ⟨h0, h⟩]
  rfl

/-! ### What a call comes to -/

/-- A call that returns does what `spec` says; one that throws changes nothing but
capacities. -/
structure Does {α : Type} (w : Arrays) (spec : Option (Lists × α)) (r : Except JavaException α × Arrays) :
    Prop where
  sound : ∀ i, (r.2 i).Sound
  returned : ∀ a, r.1 = .ok a → spec = some (lists r.2, a)
  threw : ∀ e, r.1 = .error e → lists r.2 = lists w ∧ ∀ i, (r.2 i).size = (w i).size

theorem does_ok {a : α} (hs : ∀ i, (w' i).Sound) (h : spec = some (lists w', a)) : Does w spec (.ok a, w') where
  sound := hs
  returned := fun _ heq => by
    obtain rfl := Except.ok.inj heq
    exact h
  threw := fun _ heq => by cases heq

theorem does_error (hs : ∀ i, (w' i).Sound) (hlists : lists w' = lists w) (hsize : ∀ i, (w' i).size = (w i).size) :
    Does w spec (.error e, w') where
  sound := hs
  returned := fun _ heq => by cases heq
  threw := fun _ _ => ⟨hlists, hsize⟩

theorem does_error_self (hs : ∀ i, (w i).Sound) : Does w spec (.error e, w) :=
  does_error hs rfl (fun _ => rfl)

theorem does_fill {a : α} {this : Nat} {xs : List Int} (h : ∀ i, (w' i).Sound) (h0 : 0 ≤ d)
    (hroom : d + xs.length ≤ (w' this).array.length) (hm : m = d + xs.length)
    (hspec : spec = some (update (lists w') this ((w' this).array.take d.toNat ++ xs), a)) :
    Does w spec (.ok a, update w' this ⟨splice (w' this).array d xs, m⟩) := by
  refine does_ok (sound_update h ⟨?_, ?_, ?_⟩) ?_
  · simp only
    omega
  · rw [length_splice h0 hroom, hm]
    exact hroom
  · rw [length_splice h0 hroom]
    exact (h this).bound
  · rw [lists_update, contents_splice_end h0 (by omega) hm, hspec]

theorem Does.toCall {spec : Option (Lists × Unit)} (h : Does w spec (method w)) :
    Does w (spec.map fun l => (l.1, (none : Option (List Int))))
      ((do method; return (none : Option (List Int)) : Method _) w) := by
  rcases hrun : method w with ⟨r, w'⟩
  rw [hrun] at h
  cases r with
  | ok a =>
    rw [bind_ok hrun]
    refine does_ok h.sound ?_
    rw [h.returned a rfl]
    rfl
  | error e =>
    rw [bind_error hrun]
    exact does_error h.sound (h.threw e rfl).1 (h.threw e rfl).2

/-! ### `addAll` -/

theorem addAllInternal_does (heap : Int → Bool) (this : Nat) (h : ∀ i, (w i).Sound) (src : IntSource)
    (srcIndex length : Int) (hsrcIndex : srcIndex < 2 ^ 31) (hlength : length < 2 ^ 31) :
    Does w (do
        let xs ← slice (← src.elements (lists w)) srcIndex length
        return (update (lists w) this (lists w this ++ xs), ()))
      (addAllInternal heap this src srcIndex length w) := by
  simp only [addAllInternal]
  rcases growCapacity_cases heap this h length with ⟨e, herr⟩ | ⟨n, hok, hn⟩
  · rw [bind_error herr]
    exact does_error_self h
  · rw [bind_ok hok, bind_ok (read_apply _ _)]
    have hs := sound_grown h hn
    have hlists : lists (grown w this n) = lists w := lists_grown h n
    have hsize : ∀ i, (grown w this n i).size = (w i).size := size_grown n
    generalize grown w this n = w₁ at hs hlists hsize
    rw [← hlists]
    have hthis := hs this
    have hnonneg := hthis.nonneg
    rcases IntSource.copyTo_cases hs hsrcIndex hlength this (w₁ this).size with ⟨xs, hsrc, hrange, hdest, hcopy⟩ | ⟨e, herr⟩
    · have hbound := hthis.bound
      simp only [maxValue] at hbound
      have hlen := length_slice hrange
      rw [bind_ok hcopy, write_apply]
      simp only [update_idem, update_self]
      rw [wrap_of_lt (by omega) (by omega)]
      refine does_fill hs hnonneg (by omega) (by omega) ?_
      simp only [hsrc, slice_eq hrange, Option.bind_eq_bind, Option.bind_some, Option.pure_def]
      rfl
    · rw [bind_error herr]
      exact does_error hs hlists hsize

theorem addAll_does (heap : Int → Bool) (this : Nat) (h : ∀ i, (w i).Sound) (src : IntSource) : Does w (do
        let xs ← src.elements (lists w)
        return (update (lists w) this (lists w this ++ xs), ()))
      (addAll heap this src w) := by
  simp only [addAll]
  cases hsrc : src.elements (lists w) with
  | none =>
    rw [IntSource.elements_eq_none hsrc]
    exact does_error_self h
  | some xs =>
    have hmax := IntSource.length_le h hsrc
    simp only [maxValue] at hmax
    rw [bind_ok (IntSource.size_of_some h hsrc)]
    have hdoes := addAllInternal_does heap this h src 0 xs.length (by omega) (by omega)
    have hslice : slice xs 0 xs.length = some xs := by
      rw [slice_eq (by omega), slice_self]
    simpa only [hsrc, Option.bind_eq_bind, Option.bind_some, hslice] using hdoes

theorem addAllRange_does (heap : Int → Bool) (this : Nat) (h : ∀ i, (w i).Sound) (src : IntSource)
    (srcIndex length : JavaInt) :
    Does w (do
        let xs ← slice (← src.elements (lists w)) srcIndex.val length.val
        return (update (lists w) this (lists w this ++ xs), ()))
      (addAllRange heap this src srcIndex.val length.val w) := by
  simp only [addAllRange]
  rcases IntSource.rangeCheck_cases h srcIndex.val length.val with ⟨e, herr, _⟩ | ⟨xs, hok, _⟩
  · rw [bind_error herr]
    exact does_error_self h
  · rw [bind_ok hok]
    exact addAllInternal_does heap this h src _ _ srcIndex.upper length.upper

/-! ### `set` and `copyTo` -/

theorem does_splice {a : α} (h : ∀ i, (w i).Sound) {this : Nat} {xs : List Int} (h0 : 0 ≤ d)
    (hle : d + xs.length ≤ (w this).size)
    (hspec : spec = some (update (lists w) this (splice (lists w this) d xs), a)) :
    Does w spec (.ok a, update w this { w this with array := splice (w this).array d xs }) := by
  have hthis := h this
  have hsz := hthis.le
  refine does_ok (sound_update h ⟨hthis.nonneg, ?_, ?_⟩) ?_
  · rw [length_splice h0 (by omega)]
    exact hsz
  · rw [length_splice h0 (by omega)]
    exact hthis.bound
  · rw [lists_update, contents_splice hthis h0 hle, hspec]
    rfl

theorem setRange_does (this : Nat) (h : ∀ i, (w i).Sound) (src : IntSource) (destIndex srcIndex length : JavaInt) :
    Does w (do
        let xs ← slice (← src.elements (lists w)) srcIndex.val length.val
        let l ← overwrite (lists w this) destIndex.val xs
        return (update (lists w) this l, ()))
      (setRange this destIndex.val src srcIndex.val length.val w) := by
  have hlen := (h this).length_contents
  have hbound := (h this).bound
  simp only [maxValue] at hbound
  simp only [setRange]
  by_cases hcheck : wrap (destIndex.val + length.val) ≤ (w this).size
  · rw [bind_ok (rangeCheck_of_le hcheck)]
    rcases IntSource.copyTo_cases h srcIndex.upper length.upper this destIndex.val with
      ⟨xs, hsrc, hrange, hdest, hcopy⟩ | ⟨e, herr⟩
    · rw [hcopy]
      rw [wrap_of_lt (by omega) (by omega)] at hcheck
      have hslice := length_slice hrange
      apply does_splice h hdest.1 (by omega)
      have hover : overwrite (lists w this) destIndex.val
          ((xs.drop srcIndex.val.toNat).take length.val.toNat) = some _ :=
        overwrite_eq hdest.1 (by simp only [lists]; omega)
      simp only [hsrc, slice_eq hrange, hover, Option.bind_eq_bind, Option.bind_some, Option.pure_def]
    · rw [herr]
      exact does_error_self h
  · rw [bind_error (rangeCheck_of_lt (by omega))]
    exact does_error_self h

theorem set_eq_splice {index : Int} (value : Int) (h0 : 0 ≤ index)
    (h : index < array.length) : array.set index.toNat value = splice array index [value] := by
  rw [splice, set_eq_take_append_cons_drop, if_pos (by omega)]
  simp

theorem set_does (this : Nat) (h : ∀ i, (w i).Sound) (index value : JavaInt) : Does w (do
        let l ← overwrite (lists w this) index.val [value.val]
        return (update (lists w) this l, ()))
      (set this index.val value.val w) := by
  have hlen := (h this).length_contents
  have hbound := (h this).bound
  simp only [maxValue] at hbound
  simp only [set]
  by_cases hcheck : wrap (index.val + 1) ≤ (w this).size
  · rw [bind_ok (rangeCheck_of_le hcheck), bind_ok (read_apply _ w)]
    by_cases hin : 0 ≤ index.val ∧ index.val < (w this).array.length
    · rw [setAt, if_pos hin, set_eq_splice _ hin.1 hin.2]
      rw [wrap_of_lt (by omega) (by omega)] at hcheck
      apply does_splice h hin.1 (by simpa using hcheck)
      have hover : overwrite (lists w this) index.val [value.val] = some _ :=
        overwrite_eq hin.1 (by simp only [lists, length_singleton]; omega)
      simp only [hover, Option.bind_eq_bind, Option.bind_some, Option.pure_def]
    · rw [setAt, if_neg hin]
      exact does_error_self h
  · rw [bind_error (rangeCheck_of_lt (by omega))]
    exact does_error_self h

theorem slice_of_check (h : a.Sound) (hi : i < 2 ^ 31) (hn : n < 2 ^ 31) (hcheck : wrap (i + n) ≤ a.size)
    (hcopy : 0 ≤ i ∧ 0 ≤ n ∧ i + n ≤ a.array.length) :
    slice a.contents i n = some ((a.array.drop i.toNat).take n.toNat) := by
  have hlen := h.length_contents
  have hbound := h.bound
  simp only [maxValue] at hbound
  rw [wrap_of_lt (by omega) (by omega)] at hcheck
  rw [slice_eq (by omega), contents, drop_take, take_take, Nat.min_eq_left (by omega)]

theorem copyTo_does (this : Nat) (h : ∀ i, (w i).Sound) (dest : IntDestination)
    (srcIndex destIndex length : JavaInt) :
    Does w (onLists this (lists w) (.copyTo srcIndex dest destIndex length))
      (copyTo this srcIndex.val dest destIndex.val length.val w) := by
  have hsrcIndex := srcIndex.upper
  have hlength := length.upper
  simp only [copyTo]
  by_cases hcheck : wrap (srcIndex.val + length.val) ≤ (w this).size
  · rw [bind_ok (rangeCheck_of_le hcheck), bind_ok (read_apply _ w)]
    cases dest with
    | ints a =>
      by_cases hin : 0 ≤ srcIndex.val ∧ 0 ≤ destIndex.val ∧ 0 ≤ length.val ∧
          srcIndex.val + length.val ≤ (w this).array.length ∧
          destIndex.val + length.val ≤ a.elements.length
      · obtain ⟨hs, hd, hn, hsn, hdn⟩ := hin
        have hcopy := arraycopy_eq ⟨hs, hn, hsn⟩ ⟨hd, hdn⟩
        have hlen := length_slice ⟨hs, hn, hsn⟩
        have hover : overwrite a.elements destIndex.val
            (((w this).array.drop srcIndex.val.toNat).take length.val.toNat) = some _ :=
          overwrite_eq hd (by omega)
        simp only [hcopy]
        refine does_ok h ?_
        have hslice : slice (lists w this) srcIndex.val length.val = some _ :=
          slice_of_check (h this) hsrcIndex hlength hcheck ⟨hs, hn, hsn⟩
        simp only [onLists, Option.bind_eq_bind, hslice, Option.bind_some, hover]
        rfl
      · simp only [arraycopy_error hin]
        exact does_error_self h
    | array ref =>
      simp only
      by_cases hcheck' : wrap (destIndex.val + length.val) ≤ (w ref).size
      · rw [bind_ok (rangeCheck_of_le hcheck')]
        by_cases hin : 0 ≤ srcIndex.val ∧ 0 ≤ destIndex.val ∧ 0 ≤ length.val ∧
            srcIndex.val + length.val ≤ (w this).array.length ∧
            destIndex.val + length.val ≤ (w ref).array.length
        · obtain ⟨hs, hd, hn, hsn, hdn⟩ := hin
          have hcopy := arraycopy_eq ⟨hs, hn, hsn⟩ ⟨hd, hdn⟩
          have hlen := length_slice ⟨hs, hn, hsn⟩
          have hcontents := (h ref).length_contents
          have hbound := (h ref).bound
          simp only [maxValue] at hbound
          rw [wrap_of_lt (by omega) (by omega)] at hcheck'
          have hover : overwrite (lists w ref) destIndex.val
              (((w this).array.drop srcIndex.val.toNat).take length.val.toNat) = some _ :=
            overwrite_eq hd (by simp only [lists]; omega)
          rw [bind_ok (copyInto_of_ok hcopy)]
          apply does_splice h hd (by omega)
          have hslice : slice (lists w this) srcIndex.val length.val = some _ :=
            slice_of_check (h this) hsrcIndex hlength hcheck ⟨hs, hn, hsn⟩
          simp only [onLists, Option.bind_eq_bind, hslice, Option.bind_some, hover]
          rfl
        · rw [bind_error (copyInto_of_error (arraycopy_error hin))]
          exact does_error_self h
      · rw [bind_error (rangeCheck_of_lt (by omega))]
        exact does_error_self h
    | null => exact does_error_self h
  · rw [bind_error (rangeCheck_of_lt (by omega))]
    exact does_error_self h

/-! ### `resize`, `ensureCapacity` and `trimToSize` -/

theorem ensureCapacity_does (heap : Int → Bool) (this : Nat) (h : ∀ i, (w i).Sound) (capacity : JavaInt) :
    Does w (some (lists w, ())) (ensureCapacity heap this capacity.val w) := by
  have hcap : capacity.val ≤ maxValue := by
    have := capacity.upper
    simp only [maxValue]
    omega
  rcases ensureCapacity_bounded heap this h hcap with ⟨e, herr⟩ | ⟨n, hok, hn⟩
  · rw [herr]
    exact does_error_self h
  · rw [hok]
    exact does_ok (sound_grown h hn) (by rw [lists_grown h])

theorem trimToSize_does (heap : Int → Bool) (this : Nat) (h : ∀ i, (w i).Sound) :
    Does w (some (lists w, ())) (trimToSize heap this w) := by
  have hthis := h this
  have hnonneg := hthis.nonneg
  have hle := hthis.le
  simp only [trimToSize]
  rw [bind_ok (read_apply _ w)]
  by_cases htrim : ((w this).array.length : Int) ≠ (w this).size
  · rw [if_pos htrim]
    cases hheap : heap (w this).size with
    | false =>
      rw [bind_error (newArray_of_not_heap hnonneg hheap)]
      exact does_error_self h
    | true =>
      have hcopy : arraycopy (w this).array 0 (replicate (w this).size.toNat 0) 0 (w this).size
          = .ok (w this).contents := by
        rw [arraycopy, if_pos (by simp; omega)]
        simp [contents]
      have hlen := hthis.length_contents
      rw [bind_ok (newArray_of_heap hnonneg hheap), hcopy]
      refine does_ok (sound_update h ⟨hnonneg, by simp only; omega, ?_⟩) ?_
      · have := hthis.bound
        simp only
        omega
      · rw [lists_update]
        have hsame : ({ w this with array := (w this).contents } : ObservableIntegerArray).contents = lists w this := by
          simp only [contents, lists, take_take, Nat.min_self]
        rw [hsame, update_eq_self]
  · rw [if_neg htrim]
    exact does_ok h rfl

theorem set_splice_zeros {k : Nat} (h0 : 0 ≤ d) (h : d + k < array.length) :
    (splice array d (replicate k 0)).set (d.toNat + k) 0 = splice array d (replicate (k + 1) 0) := by
  have hlen : (array.take d.toNat ++ replicate k (0 : Int)).length = d.toNat + k := by
    simp only [length_append, length_take, length_replicate]
    omega
  have hdrop : array.drop (d.toNat + k)
      = array[d.toNat + k] :: array.drop (d.toNat + (k + 1)) := drop_eq_getElem_cons (by omega)
  simp only [splice, length_replicate]
  rw [set_append_right _ _ (by omega), hlen, Nat.sub_self, hdrop, set_cons_zero, replicate_succ']
  simp

theorem fill_ok {lo hi : Int} (h0 : 0 ≤ lo) (hle : lo ≤ hi) (hhi : hi ≤ (w this).array.length) :
    fill this lo hi w = (.ok (), update w this { w this with
      array := splice (w this).array lo (replicate (hi - lo).toNat 0) }) := by
  have hstart : (w this).array = splice (w this).array lo (replicate (lo - lo).toNat 0) := by simp [splice]
  have hstep : ∀ i array, lo ≤ i → i < hi → array = splice (w this).array lo (replicate (i - lo).toNat 0) →
      ∃ array', setAt array i 0 = .ok array' ∧
        array' = splice (w this).array lo (replicate (i + 1 - lo).toNat 0) := by
    rintro i array hlo hlt rfl
    have hlen : (splice (w this).array lo (replicate (i - lo).toNat 0)).length
        = (w this).array.length := length_splice h0 (by simp; omega)
    have hi : i.toNat = lo.toNat + (i - lo).toNat := by omega
    have hk : (i + 1 - lo).toNat = (i - lo).toNat + 1 := by omega
    refine ⟨_, by rw [setAt, if_pos (by omega)], ?_⟩
    rw [hi, hk, set_splice_zeros h0 (by omega)]
  obtain ⟨array, hrun, harray⟩ := forRange_inv
    (fun i array => array = splice (w this).array lo (replicate (i - lo).toNat 0)) hle hstart hstep
  simp only [fill]
  rw [bind_ok (read_apply _ w), hrun, harray]
  rfl

theorem contents_resize (h : a.Sound) (h0 : 0 ≤ n) :
    a.array.take (min a.size n).toNat ++ replicate (n - min a.size n).toNat 0
      = a.contents.take n.toNat ++ replicate (n.toNat - a.contents.length) 0 := by
  have hlen := h.length_contents
  have hmin : min a.size.toNat n.toNat = (min a.size n).toNat := by omega
  have hk : (n - min a.size n).toNat = n.toNat - a.contents.length := by omega
  rw [hk]
  simp only [contents, take_take]
  rw [Nat.min_comm, hmin]

theorem resize_does (heap : Int → Bool) (this : Nat) (h : ∀ i, (w i).Sound) {newSize : Int}
    (hnew : newSize ≤ maxValue) :
    Does w (if 0 ≤ newSize then
        some (update (lists w) this ((lists w this).take newSize.toNat ++
          replicate (newSize.toNat - (lists w this).length) 0), ())
        else none)
      (resize heap this newSize w) := by
  simp only [resize]
  by_cases h0 : newSize < 0
  · rw [if_pos h0]
    exact does_error_self h
  · rw [if_neg h0, if_pos (by omega)]
    by_cases hroom : ((w this).array.length : Int) < newSize → heap newSize = true
    · rw [bind_ok (ensureCapacity_ok hroom), bind_ok (read_apply _ _), bind_ok (write_apply _)]
      have hn : ((w this).array.length : Int) + (newSize - (w this).array.length).toNat ≤ maxValue := by
        have := (h this).bound
        omega
      have hs := sound_grown h hn
      have hlists : lists (grown w this (newSize - (w this).array.length).toNat) = lists w :=
        lists_grown h _
      have hcap : newSize ≤ (grown w this (newSize - (w this).array.length).toNat this).array.length := by
        simp [grown]
        omega
      generalize grown w this _ = w₁ at hs hlists hcap
      have hthis := hs this
      have hnonneg := hthis.nonneg
      rw [← hlists]
      rw [fill_ok (by omega) (by omega) (by simpa using hcap)]
      simp only [update_idem, update_self]
      refine does_fill hs (by omega) (by simp; omega) (by rw [length_replicate]; omega) ?_
      rw [contents_resize hthis (by omega)]
      rfl
    · rw [Classical.not_imp, Bool.not_eq_true] at hroom
      rw [bind_error (ensureCapacity_error hroom.1 hroom.2)]
      exact does_error_self h

/-! ### `setAll` -/

theorem setAllInternal_self (heap : Int → Bool) (this : Nat) (h : ∀ i, (w i).Sound)
    (h0 : 0 ≤ srcIndex) (hn : 0 ≤ length) (hsrcIndex : srcIndex < 2 ^ 31)
    (hlength : length < 2 ^ 31) (hcheck : wrap (srcIndex + length) ≤ (w this).size) :
    Does w (do
        let xs ← slice (lists w this) srcIndex length
        return (update (lists w) this xs, ()))
      (setAllInternal heap this (.array this) srcIndex length w) := by
  have hthis := h this
  have hlen := hthis.length_contents
  rw [setAllInternal, if_pos (by simp [IntSource.isArray])]
  by_cases hzero : srcIndex = 0
  · subst hzero
    rw [if_pos rfl]
    rw [Int.zero_add, wrap_of_lt (by omega) hlength] at hcheck
    have hdoes := resize_does heap this h (show length ≤ maxValue by simp only [maxValue]; omega)
    have hnone : length.toNat - (lists w this).length = 0 := by
      simp only [lists]
      omega
    have hslice : slice (lists w this) 0 length = some ((lists w this).take length.toNat) := by
      rw [slice_eq (by simp only [lists]; omega)]
      rfl
    rw [if_pos hn, hnone, replicate_zero, append_nil] at hdoes
    simpa only [hslice, Option.bind_eq_bind, Option.bind_some, Option.pure_def] using hdoes
  · rw [if_neg hzero, bind_ok (read_apply _ w)]
    by_cases hsum : srcIndex + length ≤ (w this).array.length
    · have hcopy : arraycopy (w this).array srcIndex (w this).array 0 length = .ok _ :=
        arraycopy_eq ⟨h0, hn, hsum⟩ ⟨Int.le_refl 0, by omega⟩
      have hxs := length_slice ⟨h0, hn, hsum⟩
      have hslice : slice (lists w this) srcIndex length = some _ :=
        slice_of_check hthis hsrcIndex hlength hcheck ⟨h0, hn, hsum⟩
      rw [bind_ok (copyInto_of_ok hcopy), write_apply]
      simp only [update_idem, update_self]
      refine does_fill h (Int.le_refl 0) (by omega) (by omega) ?_
      simp only [hslice, Option.bind_eq_bind, Option.bind_some, Option.pure_def]
      rfl
    · rw [bind_error (copyInto_of_error (arraycopy_error (by omega)))]
      exact does_error_self h

/-- The array `this` with its size set to 0. -/
def emptied (w : Arrays) (this : Nat) : Arrays :=
  Function.update w this { w this with size := 0 }

theorem sound_emptied (h : ∀ i, (w i).Sound) : ∀ i, (emptied w this i).Sound := by
  have hthis := h this
  refine sound_update h ⟨Int.le_refl 0, ?_, hthis.bound⟩
  exact Int.natCast_nonneg _

/-- The array `this` after its size has been set to 0 and `ensureCapacity(length)` has
made room. -/
def cleared (w : Arrays) (this : Nat) (length : Int) : Arrays :=
  grown (emptied w this) this (length - (w this).array.length).toNat

theorem sound_cleared (h : ∀ i, (w i).Sound) (hlength : length ≤ maxValue) : ∀ i,
    (cleared w this length i).Sound := by
  apply sound_grown (sound_emptied h)
  have := (h this).bound
  simp [emptied]
  omega

theorem cleared_of_ne (length : Int) {i : Nat} (hne : i ≠ this) : cleared w this length i = w i := by
  simp [cleared, grown, emptied, hne]

theorem cleared_self (length : Int) : cleared w this length this
      = ⟨(w this).array ++ replicate (length - (w this).array.length).toNat 0, 0⟩ := by
  simp [cleared, grown, emptied]

theorem length_cleared (length : Int) :
    ((cleared w this length this).array.length : Int) = max ((w this).array.length : Int) length := by
  rw [cleared_self]
  simp
  omega

theorem elements_cleared {src : IntSource} (hother : src.isArray this = false) (length : Int) :
    src.elements (lists (cleared w this length)) = src.elements (lists w) := by
  cases src with
  | ints a => rfl
  | array ref =>
    have hne : ref ≠ this := by
      simpa [IntSource.isArray] using hother
    simp only [IntSource.elements, lists, cleared_of_ne length hne]
  | null => rfl

theorem ensureCapacity_emptied (hroom : ((w this).array.length : Int) < length → heap length = true) :
    ensureCapacity heap this length (emptied w this) = (.ok (), cleared w this length) := by
  have hsame : (emptied w this this).array = (w this).array := by simp [emptied]
  rw [ensureCapacity_ok (by rwa [hsame]), hsame, cleared]

theorem setAllInternal_other (heap : Int → Bool) (this : Nat) (h : ∀ i, (w i).Sound) {src : IntSource}
    (hother : src.isArray this = false) {xs : List Int} (hsrc : src.elements (lists w) = some xs)
    (hrange : 0 ≤ srcIndex ∧ 0 ≤ length ∧ srcIndex + length ≤ xs.length)
    (hroom : ((w this).array.length : Int) < length → heap length = true) :
    Does w (do
        let xs ← slice (← src.elements (lists w)) srcIndex length
        return (update (lists w) this xs, ()))
      (setAllInternal heap this src srcIndex length w) := by
  have hmax := IntSource.length_le h hsrc
  have hs : ∀ i, (cleared w this length i).Sound := sound_cleared h (by omega)
  have hlen : ((cleared w this length this).array.length : Int) = _ := length_cleared length
  have hslice := length_slice hrange
  have hcopy : src.copyTo srcIndex this 0 length (cleared w this length) = (.ok (), _) :=
    IntSource.copyTo_of_inRange hs ((elements_cleared hother length).trans hsrc) hrange ⟨Int.le_refl 0, by omega⟩
  rw [setAllInternal, if_neg (by simp [hother]), bind_ok (write_apply _), ← emptied,
    bind_ok (ensureCapacity_emptied hroom), bind_ok hcopy, write_apply]
  simp only [update_idem, update_self]
  refine does_fill hs (Int.le_refl 0) (by omega) (by omega) ?_
  simp only [hsrc, slice_eq hrange, Option.bind_eq_bind, Option.bind_some, Option.pure_def]
  congr 2
  funext i
  by_cases hi : i = this
  · subst hi
    simp
  · simp [lists, hi, cleared_of_ne length hi]

/-- From somewhere else, when `ensureCapacity` or the copy throws: the size stays 0. -/
theorem setAllInternal_other_error (heap : Int → Bool) (this : Nat) (h : ∀ i, (w i).Sound)
    {src : IntSource} (hother : src.isArray this = false) {xs : List Int}
    (hsrc : src.elements (lists w) = some xs) (hsrcIndex : srcIndex < 2 ^ 31)
    (hlength : length < 2 ^ 31)
    (hnot : ¬(srcIndex + length ≤ xs.length ∧ (((w this).array.length : Int) < length → heap length = true))) :
    ∃ e w', setAllInternal heap this src srcIndex length w = (.error e, w') ∧
      (∀ i, (w' i).Sound) ∧ (w' this).size = 0 ∧ ∀ i, i ≠ this → w' i = w i := by
  rw [setAllInternal, if_neg (by simp [hother]), bind_ok (write_apply _), ← emptied]
  by_cases hroom : ((w this).array.length : Int) < length → heap length = true
  · have hs : ∀ i, (cleared w this length i).Sound := sound_cleared h (by simp only [maxValue]; omega)
    obtain ⟨e, herr⟩ : ∃ e, src.copyTo srcIndex this 0 length (cleared w this length)
        = (.error e, cleared w this length) := by
      refine IntSource.copyTo_of_not_inRange hs hsrcIndex hlength ?_
      intro ys hys hall
      rw [elements_cleared hother, hsrc, Option.some.injEq] at hys
      subst hys
      exact hnot ⟨hall.2.2.2.1, hroom⟩
    refine ⟨e, _, ?_, hs, by rw [cleared_self], fun i hi => cleared_of_ne length hi⟩
    rw [bind_ok (ensureCapacity_emptied hroom), bind_error herr]
  · rw [Classical.not_imp, Bool.not_eq_true] at hroom
    have hsame : (emptied w this this).array = (w this).array := by simp [emptied]
    refine ⟨.outOfMemory, emptied w this, ?_, sound_emptied h, by simp [emptied], fun i hi => by simp [emptied, hi]⟩
    exact bind_error (ensureCapacity_error (by rw [hsame]; exact hroom.1) hroom.2)

/-- A call does what it should, or it throws after the size has been set to 0. -/
def Judged {α : Type} (loses : Prop) (w : Arrays) (spec : Option (Lists × α))
    (r : Except JavaException α × Arrays) : Prop :=
  (¬loses ∧ Does w spec r) ∨ (loses ∧ ∃ e w', r = (.error e, w') ∧ (∀ i, (w' i).Sound) ∧ ∃ i, (w' i).size ≠ (w i).size)

theorem Does.judged (h : Does w spec r) : Judged False w spec r :=
  .inl ⟨id, h⟩

theorem Judged.toCall {spec : Option (Lists × Unit)} {spec' : Option (Lists × Option (List Int))}
    (h : Judged loses w spec (method w)) (hspec : spec.map (fun l => (l.1, none)) = spec') :
    Judged loses w spec' ((do method; return (none : Option (List Int)) : Method _) w) := by
  subst hspec
  rcases h with ⟨hno, hdoes⟩ | ⟨hyes, e, w', hrun, hs, hsize⟩
  · exact .inl ⟨hno, hdoes.toCall⟩
  · exact .inr ⟨hyes, e, w', bind_error hrun, hs, hsize⟩

theorem loses_of_not {src : IntSource} {xs : List Int} (hsrc : src.elements (lists w) = some xs)
    (hother : src.isArray this = false) (hsize : (w this).size ≠ 0)
    (h0 : 0 ≤ srcIndex) (hn : 0 ≤ length) (hcheck : wrap (srcIndex + length) ≤ xs.length)
    (hnot : ¬(srcIndex + length ≤ xs.length ∧ (((w this).array.length : Int) < length → heap length = true))) :
    Loses heap this w src srcIndex length := by
  refine ⟨hsize, hother, h0, hn, xs, hsrc, ?_⟩
  by_cases hwrap : 2 ^ 31 ≤ srcIndex + length
  · exact .inl hwrap
  · rw [wrap_of_lt (by omega) (by omega)] at hcheck
    right
    rw [not_and, Classical.not_imp, Bool.not_eq_true] at hnot
    exact ⟨hcheck, hnot hcheck⟩

theorem Loses.not_and_wrap_le {src : IntSource} {xs : List Int}
    (h : Loses heap this w src srcIndex length) (hsrc : src.elements (lists w) = some xs)
    (hmax : (xs.length : Int) ≤ maxValue) (hsrcIndex : srcIndex < 2 ^ 31) (hlength : length < 2 ^ 31) :
    wrap (srcIndex + length) ≤ xs.length ∧ ¬(srcIndex + length ≤ xs.length ∧
      (((w this).array.length : Int) < length → heap length = true)) := by
  obtain ⟨_, _, h0, hn, ys, hys, hcase⟩ := h
  obtain rfl := Option.some.inj (hsrc.symm.trans hys)
  simp only [maxValue] at hmax
  rcases hcase with hwrap | ⟨hle, hlt, hheap⟩
  · rw [wrap_of_ge hwrap (by omega)]
    omega
  · rw [wrap_of_lt (by omega) (by omega)]
    refine ⟨hle, fun hboth => ?_⟩
    simp [hboth.2 hlt] at hheap

/-- **`setAll`** after its checks: the contents are lost exactly when `Loses` says so. -/
theorem setAllInternal_judged (heap : Int → Bool) (this : Nat) (h : ∀ i, (w i).Sound) {src : IntSource}
    {xs : List Int} (hsrc : src.elements (lists w) = some xs)
    (h0 : 0 ≤ srcIndex) (hn : 0 ≤ length) (hsrcIndex : srcIndex < 2 ^ 31) (hlength : length < 2 ^ 31)
    (hcheck : wrap (srcIndex + length) ≤ xs.length) :
    Judged (Loses heap this w src srcIndex length) w (do
        let xs ← slice (← src.elements (lists w)) srcIndex length
        return (update (lists w) this xs, ()))
      (setAllInternal heap this src srcIndex length w) := by
  have hmax := IntSource.length_le h hsrc
  by_cases hself : src.isArray this = true
  · left
    refine ⟨fun hloses => Bool.false_ne_true (hloses.2.1.symm.trans hself), ?_⟩
    obtain rfl : src = .array this := by
      cases src <;> simp_all [IntSource.isArray]
    obtain rfl := Option.some.inj hsrc
    have hlen := (h this).length_contents
    exact setAllInternal_self heap this h h0 hn hsrcIndex hlength (by rwa [lists, hlen] at hcheck)
  · have hother : src.isArray this = false := by simpa using hself
    by_cases hgood : srcIndex + length ≤ xs.length ∧ (((w this).array.length : Int) < length → heap length = true)
    · left
      refine ⟨fun hloses => ?_, ?_⟩
      · exact (hloses.not_and_wrap_le hsrc hmax hsrcIndex hlength).2 hgood
      · exact setAllInternal_other heap this h hother hsrc ⟨h0, hn, hgood.1⟩ hgood.2
    · obtain ⟨e, w', hrun, hs, hzero, hrest⟩ :=
        setAllInternal_other_error heap this h hother hsrc hsrcIndex hlength hgood
      by_cases hsize : (w this).size = 0
      · left
        refine ⟨fun hloses => hloses.1 hsize, ?_⟩
        rw [hrun]
        refine does_error hs ?_ ?_
        · funext i
          by_cases hi : i = this
          · subst hi
            simp [lists, contents, hzero, hsize]
          · simp [lists, hrest i hi]
        · intro i
          by_cases hi : i = this
          · rw [hi, hzero, hsize]
          · rw [hrest i hi]
      · right
        refine ⟨loses_of_not hsrc hother hsize h0 hn hcheck hgood, e, w', hrun, hs, this, ?_⟩
        rw [hzero]
        exact Ne.symm hsize

theorem setAll_judged (heap : Int → Bool) (this : Nat) (h : ∀ i, (w i).Sound) (src : IntSource) :
    Judged (LosesContents heap this w (.setAll src)) w (do
        let xs ← src.elements (lists w)
        return (update (lists w) this xs, ()))
      (setAll heap this src w) := by
  simp only [setAll]
  cases hsrc : src.elements (lists w) with
  | none =>
    left
    refine ⟨fun ⟨xs, hxs, _⟩ => by simp [hsrc] at hxs, ?_⟩
    rw [IntSource.elements_eq_none hsrc]
    exact does_error_self h
  | some xs =>
    have hmax := IntSource.length_le h hsrc
    simp only [maxValue] at hmax
    have hslice : slice xs 0 xs.length = some xs := by
      rw [slice_eq (by omega), slice_self]
    have hloses : LosesContents heap this w (.setAll src) ↔ Loses heap this w src 0 xs.length := by
      simp [LosesContents, hsrc]
    rw [bind_ok (IntSource.size_of_some h hsrc), hloses]
    have hjudged := setAllInternal_judged heap this h hsrc (Int.le_refl 0) (Int.natCast_nonneg xs.length)
      (by omega) (by omega) (by rw [wrap_of_lt (by omega) (by omega)]; omega)
    simpa only [hsrc, Option.bind_eq_bind, Option.bind_some, hslice] using hjudged

theorem setAllRange_judged (heap : Int → Bool) (this : Nat) (h : ∀ i, (w i).Sound) (src : IntSource)
    (srcIndex length : JavaInt) :
    Judged (LosesContents heap this w (.setAllRange src srcIndex length)) w (do
        let xs ← slice (← src.elements (lists w)) srcIndex.val length.val
        return (update (lists w) this xs, ()))
      (setAllRange heap this src srcIndex.val length.val w) := by
  simp only [setAllRange]
  rcases IntSource.rangeCheck_cases h srcIndex.val length.val with
    ⟨e, herr, hfails⟩ | ⟨xs, hok, hsrc, h0, hn, hcheck⟩
  · left
    refine ⟨fun hloses => ?_, ?_⟩
    · obtain ⟨_, _, h0, hn, xs, hsrc, _⟩ := id hloses
      have hpasses := Loses.not_and_wrap_le hloses hsrc (IntSource.length_le h hsrc) srcIndex.upper length.upper
      exact hfails xs hsrc ⟨h0, hn, hpasses.1⟩
    · rw [bind_error herr]
      exact does_error_self h
  · rw [bind_ok hok]
    exact setAllInternal_judged heap this h hsrc h0 hn srcIndex.upper length.upper hcheck

/-! ### Every call -/

theorem run_judged (heap : Int → Bool) (this : Nat) (h : ∀ i, (w i).Sound) (call : Call) :
    Judged (LosesContents heap this w call) w (onLists this (lists w) call) (run heap this call w) := by
  cases call with
  | addAll src =>
    refine (addAll_does heap this h src).judged.toCall ?_
    simp [onLists, Option.map_bind, comp_def]
  | addAllRange src srcIndex length =>
    refine (addAllRange_does heap this h src srcIndex length).judged.toCall ?_
    simp [onLists, Option.map_bind, comp_def]
  | setAll src =>
    refine (setAll_judged heap this h src).toCall ?_
    simp [onLists, Option.map_bind, comp_def]
  | setAllRange src srcIndex length =>
    refine (setAllRange_judged heap this h src srcIndex length).toCall ?_
    simp [onLists, Option.map_bind, comp_def]
  | setRange destIndex src srcIndex length =>
    refine (setRange_does this h src destIndex srcIndex length).judged.toCall ?_
    simp [onLists, Option.map_bind, comp_def]
  | set index value =>
    refine (set_does this h index value).judged.toCall ?_
    simp [onLists, Option.map_bind, comp_def]
  | copyTo srcIndex dest destIndex length =>
    exact (copyTo_does this h dest srcIndex destIndex length).judged
  | resize newSize =>
    have hmax : newSize.val ≤ maxValue := by
      have := newSize.upper
      simp only [maxValue]
      omega
    refine (resize_does heap this h hmax).judged.toCall ?_
    by_cases h0 : 0 ≤ newSize.val <;> simp [onLists, h0]
  | clear =>
    refine (resize_does heap this h (show (0 : Int) ≤ maxValue by decide)).judged.toCall ?_
    simp [onLists]
  | ensureCapacity capacity => exact (ensureCapacity_does heap this h capacity).judged.toCall rfl
  | trimToSize => exact (trimToSize_does heap this h).judged.toCall rfl

theorem Judged.sound (h : Judged loses w spec r) : ∀ i, (r.2 i).Sound := by
  rcases h with ⟨_, hdoes⟩ | ⟨_, e, w', rfl, hs, _⟩
  · exact hdoes.sound
  · exact hs

theorem reached_sound (h : Reached w) : ∀ i, (w i).Sound := by
  induction h with
  | new =>
    intro i
    exact ⟨Int.le_refl 0, Int.le_refl 0, show (0 : Int) ≤ maxValue by decide⟩
  | call heap this call _ ih => exact (run_judged heap this ih call).sound

theorem meets_iff_of_judged {heap : Int → Bool} {call : Call}
    (h : Judged (LosesContents heap this w call) w (onLists this (lists w) call) (run heap this call w)) :
    Meets heap this call w ↔ ¬LosesContents heap this w call := by
  rcases hrun : run heap this call w with ⟨r, w'⟩
  simp only [Meets, hrun]
  rw [hrun] at h
  rcases h with ⟨hno, hdoes⟩ | ⟨hyes, e, w'', heq, _, i, hsize⟩
  · refine ⟨fun _ => hno, fun _ => ?_⟩
    cases r with
    | ok out => exact hdoes.returned out rfl
    | error e =>
      intro i
      exact ⟨(hdoes.threw e rfl).2 i, congrFun (hdoes.threw e rfl).1 i⟩
  · obtain ⟨rfl, rfl⟩ := Prod.mk.inj heq
    refine ⟨fun hall => absurd (hall i).1 hsize, fun hno => absurd hyes hno⟩

/-- **A growable array, except for `setAll`.**  In every run, each call does what the
operation on lists does or throws and leaves all sizes and contents as they were, if and
only if it is not a `setAll` that has set the size to 0 when it throws.  The size is never
greater than the capacity. -/
theorem calls_meet_iff {w : Arrays} (h : Reached w) (heap : Int → Bool) (this : Nat) (call : Call) :
    (Meets heap this call w ↔ ¬LosesContents heap this w call) ∧ ∀ i, (w i).size ≤ (w i).array.length :=
  ⟨meets_iff_of_judged (run_judged heap this (reached_sound h) call), fun i => (reached_sound h i).le⟩

/-- `setAll(new int[] {7}, Integer.MAX_VALUE, 1)`. -/
def setAllWrapping : Call :=
  .setAllRange (.ints ⟨[7], by decide⟩) ⟨2147483647, by decide, by decide⟩ ⟨1, by decide, by decide⟩

/-- An array with the elements 1, 2 and 3. -/
def threeElements : Arrays :=
  (run (fun _ => true) 0 (.setAll (.ints ⟨[1, 2, 3], by decide⟩)) (fun _ => {})).2

/-- `set(1, this, 0, 2)`: the first two elements move behind themselves. -/
def moveUp : Call :=
  .setRange ⟨1, by decide, by decide⟩ (.array 0) ⟨0, by decide, by decide⟩ ⟨2, by decide, by decide⟩

theorem calls_meet_iff_threeElements : Meets (fun _ => true) 0 moveUp threeElements ∧
      ((run (fun _ => true) 0 moveUp threeElements).2 0).contents = [1, 1, 2] ∧
      (threeElements 0).size ≤ (threeElements 0).array.length := by
  have h := calls_meet_iff (.call (fun _ => true) 0 (.setAll (.ints ⟨[1, 2, 3], by decide⟩)) .new)
    (fun _ => true) 0 moveUp
  exact ⟨h.1.mpr id, by decide, h.2 0⟩

/-- The sum of index and length wraps around, `rangeCheck` lets it through, and the array
is empty when the copy throws. -/
theorem setAll_loses_contents : ∃ (w : Arrays) (call : Call), Reached w ∧ (w 0).contents = [1, 2, 3] ∧
      (run (fun _ => true) 0 call w).1 = .error .indexOutOfBounds ∧
      ((run (fun _ => true) 0 call w).2 0).contents = [] ∧ ¬Meets (fun _ => true) 0 call w := by
  refine ⟨threeElements, setAllWrapping, .call _ _ _ .new, by decide, by decide, by decide, ?_⟩
  intro hmeets
  have hsize := (hmeets 0).1
  revert hsize
  decide

end ObservableIntegerArray

end JavaFX
