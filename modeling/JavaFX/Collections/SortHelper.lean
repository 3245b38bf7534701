/-
`com.sun.javafx.collections.SortHelper`: a merge sort that reports where every
element went.

The sort is the one of an old class library, with two arrays that swap their roles
from one level of the recursion to the next.  Beside it the helper keeps
`permutation`, the current place of each element by its original index, and
`reversePermutation`, the original index of the element at each place.  The sources
have the sort three times, for `int`s, for comparable objects and for a
comparator; they differ only in how two elements are compared.  `compare` is that
comparison; a comparator may throw.

`off` is the distance from an index of `dest` to the index of `src` that holds the
same element.  It is not zero when a range of an array is sorted, since the
auxiliary array holds the range only.
-/
import JavaFX.Runtime

namespace JavaFX.SortHelper

variable {α : Type}

def insertionSortThreshold : Int := 7

/-- The two arrays of the sort, and the two of the helper. -/
structure Arrays (α : Type) where
  src : List α
  dest : List α
  permutation : List Int
  reversePermutation : List Int

/-- `swap(dest, a, b)`. -/
def swap (a b : Int) (s : Arrays α) : Except JavaException (Arrays α) := do
  let t ← getAt s.dest a
  let u ← getAt s.dest b
  let dest ← setAt s.dest a u
  let dest ← setAt dest b t
  let ra ← getAt s.reversePermutation a
  let permutation ← setAt s.permutation ra b
  let rb ← getAt s.reversePermutation b
  let permutation ← setAt permutation rb a
  let reversePermutation ← setAt s.reversePermutation a rb
  let reversePermutation ← setAt reversePermutation b ra
  return { s with dest, permutation, reversePermutation }

/-- `for (j = i; j > low && c.compare(dest[j-1], dest[j]) > 0; j--) swap(dest, j, j-1)`. -/
def insertLoop (compare : α → α → Except JavaException Int) (low : Int) :
    Nat → Int → Arrays α → Except JavaException (Arrays α)
  | 0, _, s => .ok s
  | fuel + 1, j, s =>
    if low < j then do
      let x ← getAt s.dest (j - 1)
      let y ← getAt s.dest j
      if 0 < (← compare x y) then do
        let s ← swap j (j - 1) s
        insertLoop compare low fuel (j - 1) s
      else return s
    else .ok s

def insertionSort (compare : α → α → Except JavaException Int) (low high : Int) (s : Arrays α) :
    Except JavaException (Arrays α) :=
  forRange low high (fun i s => insertLoop compare low (i - low).toNat i s) s

/-- `dest[i] = src[next]; permutation[reversePermutation[next++]] = i`, where `next` is
`p` or `q`. -/
def mergeTake (fromLeft : Bool) (i : Int) (s : Arrays α × Int × Int) :
    Except JavaException (Arrays α × Int × Int) := do
  let (a, p, q) := s
  let next := if fromLeft then p else q
  let dest ← setAt a.dest i (← getAt a.src next)
  let permutation ← setAt a.permutation (← getAt a.reversePermutation next) i
  return ({ a with dest, permutation }, if fromLeft then p + 1 else p,
    if fromLeft then q else q + 1)

/-- One round of the merge: `p` and `q` are the next elements of the two halves. -/
def mergeStep (compare : α → α → Except JavaException Int) (mid high i : Int)
    (s : Arrays α × Int × Int) : Except JavaException (Arrays α × Int × Int) := do
  let (a, p, q) := s
  if q ≥ high then mergeTake true i s
  else if p < mid then
    let c ← compare (← getAt a.src p) (← getAt a.src q)
    mergeTake (decide (c ≤ 0)) i s
  else mergeTake false i s

/-- `reversePermutation[permutation[i]] = i` for all `i` of the range. -/
def invert (low high : Int) (s : Arrays α) : Except JavaException (Arrays α) :=
  forRange low high (fun i s => do
    let reversePermutation ← setAt s.reversePermutation (← getAt s.permutation i) i
    return { s with reversePermutation }) s

def Arrays.swapRoles (s : Arrays α) : Arrays α := { s with src := s.dest, dest := s.src }

/-- The sorted halves `[low, mid)` and `[mid, high)` of `src` become the `length`
elements of `dest` from `destLow` on.  Halves that are in order already are copied. -/
def mergeHalves (compare : α → α → Except JavaException Int) (low mid high destLow length : Int)
    (s : Arrays α) : Except JavaException (Arrays α) := do
  let destHigh := destLow + length
  if (← compare (← getAt s.src (mid - 1)) (← getAt s.src mid)) ≤ 0 then do
    let dest ← arraycopy s.src low s.dest destLow length
    return { s with dest }
  else do
    let (s, _, _) ← forRange destLow destHigh (mergeStep compare mid high) (s, low, mid)
    invert destLow destHigh s

/-- `mergeSort(src, dest, low, high, off)`.  Every level at least halves the range,
so a fuel of its length never runs out. -/
def mergeSort (compare : α → α → Except JavaException Int) :
    Nat → Int → Int → Int → Arrays α → Except JavaException (Arrays α)
  | 0, low, high, _, s => insertionSort compare low high s
  | fuel + 1, low, high, off, s =>
    let length := high - low
    if length < insertionSortThreshold then insertionSort compare low high s
    else do
      let destLow := low
      let low := low + off
      let high := high + off
      let mid := (low + high) / 2
      let s ← mergeSort compare fuel low mid (-off) s.swapRoles
      let s ← mergeSort compare fuel mid high (-off) s
      mergeHalves compare low mid high destLow length s.swapRoles

def initPermutation (length : Nat) : List Int := (List.range length).map Int.ofNat

/-- `sort(T[] a, Comparator c)`: the sorted array, and where every element went. -/
def sort (compare : α → α → Except JavaException Int) (a : List α) : Except JavaException (List α × List Int) := do
  let result := initPermutation a.length
  let s ← mergeSort compare a.length 0 a.length 0 ⟨a, a, result, result⟩
  return (s.dest, s.permutation)

def rangeCheck (arrayLen : Nat) (fromIndex toIndex : Int) : Except JavaException Unit :=
  if fromIndex > toIndex then .error .illegalArgument
  else if fromIndex < 0 then .error .indexOutOfBounds
  else if toIndex > arrayLen then .error .indexOutOfBounds
  else .ok ()

/-- `sort(a, fromIndex, toIndex, c)`: the array with its range sorted, and the
range's part of the permutation. -/
def sortRange (compare : α → α → Except JavaException Int) (a : List α) (fromIndex toIndex : Int) :
    Except JavaException (List α × List Int) := do
  rangeCheck a.length fromIndex toIndex
  let aux := (a.drop fromIndex.toNat).take (toIndex - fromIndex).toNat
  let result := initPermutation a.length
  let s ← mergeSort compare (toIndex - fromIndex).toNat fromIndex toIndex (-fromIndex) ⟨aux, a, result, result⟩
  return (s.dest, (s.permutation.drop fromIndex.toNat).take (toIndex - fromIndex).toNat)

/-- `Integer.compareTo`. -/
def compareInts (x y : Int) : Except JavaException Int :=
  .ok (if x < y then -1 else if x = y then 0 else 1)

/-- `sort(int[] a, fromIndex, toIndex)`. -/
def sortInts (a : List Int) (fromIndex toIndex : Int) : Except JavaException (List Int × List Int) :=
  sortRange compareInts a fromIndex toIndex

end JavaFX.SortHelper
