/-
`java.util.BitSet`, as far as the sources use it.

The bits are kept in words of 64; `words` is the number of words there is room for, which
grows when a bit beyond it is set and shrinks to what is needed when the set is cloned.
No bit beyond it is set.
-/
import Mathlib.Data.List.Range

namespace JavaFX

structure JavaBitSet where
  get : Nat → Bool
  words : Nat
  bound : ∀ i, get i = true → i < 64 * words

namespace JavaBitSet

/-- `new BitSet()`. -/
def empty : JavaBitSet where
  get := fun _ => false
  words := 1
  bound := by simp

/-- `size()`: the number of bits there is room for. -/
def size (b : JavaBitSet) : Nat := 64 * b.words

/-- `stream()`: the bits that are set, in ascending order. -/
def stream (b : JavaBitSet) : List Nat := (List.range b.size).filter b.get

/-- `isEmpty()`. -/
def isEmpty (b : JavaBitSet) : Bool := b.stream.isEmpty

theorem isEmpty_iff {b : JavaBitSet} : b.isEmpty = true ↔ ∀ i, b.get i = false := by
  simp only [isEmpty, List.isEmpty_iff, stream, List.filter_eq_nil_iff, List.mem_range, Bool.not_eq_true]
  refine ⟨fun h i => ?_, fun h i _ => h i⟩
  by_contra hi
  exact hi (h i (b.bound i (by simpa using hi)))

def cardinality (b : JavaBitSet) : Nat := b.stream.length

/-- `length()`: one more than the highest bit that is set. -/
def length (b : JavaBitSet) : Nat :=
  match b.stream.getLast? with
  | some i => i + 1
  | none => 0

/-- The words there is room for once `wordsRequired` are needed. -/
def capacity (b : JavaBitSet) (wordsRequired : Nat) : Nat :=
  if b.words < wordsRequired then max (2 * b.words) wordsRequired else b.words

theorem le_capacity (b : JavaBitSet) (n : Nat) : b.words ≤ b.capacity n ∧ n ≤ b.capacity n := by
  unfold capacity
  split <;> omega

/-- `set(i)`. -/
def set (i : Nat) (b : JavaBitSet) : JavaBitSet where
  get := Function.update b.get i true
  words := b.capacity (i / 64 + 1)
  bound j hj := by
    have hcap := b.le_capacity (i / 64 + 1)
    by_cases hji : j = i
    · omega
    · rw [Function.update_of_ne hji] at hj
      have := b.bound j hj
      omega

/-- `clear(i)`. -/
def clear (i : Nat) (b : JavaBitSet) : JavaBitSet where
  get := Function.update b.get i false
  words := b.words
  bound j hj := by
    by_cases hji : j = i
    · rw [hji, Function.update_self] at hj
      cases hj
    · rw [Function.update_of_ne hji] at hj
      exact b.bound j hj

/-- `clear()`. -/
def clearAll (b : JavaBitSet) : JavaBitSet where
  get := fun _ => false
  words := b.words
  bound := by simp

/-- `set(from, to, true)` of a range that is not empty. -/
def setRange (lo hi : Nat) (b : JavaBitSet) : JavaBitSet where
  get := fun i => (lo ≤ i && i < hi) || b.get i
  words := b.capacity ((hi - 1) / 64 + 1)
  bound j hj := by
    have hcap := b.le_capacity ((hi - 1) / 64 + 1)
    simp only [Bool.or_eq_true, Bool.and_eq_true, decide_eq_true_eq] at hj
    rcases hj with hj | hj
    · omega
    · have := b.bound j hj
      omega

/-- `set(from, to, false)`. -/
def clearRange (lo hi : Nat) (b : JavaBitSet) : JavaBitSet where
  get := fun i => !(lo ≤ i && i < hi) && b.get i
  words := b.words
  bound j hj := b.bound j (Bool.and_eq_true_iff.mp hj).2

theorem lt_length {b : JavaBitSet} {i : Nat} (h : b.get i = true) : i < b.length := by
  have hmem : i ∈ b.stream := List.mem_filter.mpr ⟨List.mem_range.mpr (b.bound i h), h⟩
  have hsorted : b.stream.Pairwise (· < ·) := List.pairwise_lt_range.filter _
  unfold length
  obtain ⟨pre, last, heq⟩ := List.eq_nil_or_concat'  b.stream |>.resolve_left (List.ne_nil_of_mem hmem)
  rw [heq, List.getLast?_concat]
  rw [heq] at hmem hsorted
  rcases List.mem_append.mp hmem with hpre | hlast
  · have := (List.pairwise_append.mp hsorted).2.2 i hpre last (by simp)
    simp only
    omega
  · simp only [List.mem_singleton] at hlast
    simp only
    omega

end JavaBitSet

end JavaFX
