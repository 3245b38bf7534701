/-
`MultipleSelectionModelBase.SelectedIndicesList`: the selected rows as an observable list.

The rows are the bits of a bit set, the list holds them in ascending order, and every call
reports what it does in terms of positions in the list.  Inside an atomic section nothing
is reported.  `size` caches the number of rows, -1 stands for a number nobody has asked
for.  `itemCount` is what `getItemCount()` says.

`fired` is what the listeners have been told.  The shortcut `get` takes for neighbouring
positions is not modelled: a change is read against the rows there are.
-/
import JavaFX.Collections.ListChangeBuilder
import JavaFX.Lib.Program
import JavaFX.Runtime.BitSet
import Mathlib.Data.List.Sort

namespace JavaFX

open Program

structure SelectedIndicesList where
  bitset : JavaBitSet := .empty
  size : Int := -1
  atomicityCount : Nat := 0
  changeBuilder : ListChangeBuilder Nat := {}
  fired : List (Change Nat) := []

namespace SelectedIndicesList

/-- A call on the list. -/
abbrev Call (α : Type) := Program JavaException SelectedIndicesList α

/-- The rows the list holds. -/
def rows (s : SelectedIndicesList) : List Nat := s.bitset.stream

def isAtomic (s : SelectedIndicesList) : Bool := s.atomicityCount > 0

def startAtomic : Call Unit := modify fun s => { s with atomicityCount := s.atomicityCount + 1 }

def stopAtomic : Call Unit := modify fun s => { s with atomicityCount := s.atomicityCount - 1 }

/-! ### Reports -/

/-- A report, unless the list is atomic. -/
def unlessAtomic (call : Call Unit) : Call Unit := fun s =>
  if s.isAtomic then (.ok (), s) else call s

def beginChange : Call Unit :=
  unlessAtomic (modify fun s => { s with changeBuilder := s.changeBuilder.beginChange })

def endChange : Call Unit := unlessAtomic fun s =>
  match s.changeBuilder.endChange s.rows with
  | .ok (changeBuilder, change) =>
    (.ok (), { s with changeBuilder, fired := s.fired ++ change.toList })
  | .error e => (.error e, s)

/-- A call that mirrors a mutation on the builder. -/
def mirror (f : ListChangeBuilder Nat → Except JavaException (ListChangeBuilder Nat)) : Call Unit :=
  unlessAtomic fun s =>
    match f s.changeBuilder with
    | .ok changeBuilder => (.ok (), { s with changeBuilder })
    | .error e => (.error e, s)

def nextAdd (lo hi : Int) : Call Unit := mirror (·.nextAdd lo hi)

def nextRemove (idx : Int) (removed : Nat) : Call Unit := mirror (·.nextRemove idx removed)

def nextRemoveAll (idx : Int) (removed : List Nat) : Call Unit := mirror (·.nextRemoveAll idx removed)

/-! ### Looking -/

/-- `bitset.get(index)`. -/
def isSelected (index : Int) : Call Bool :=
  if index < 0 then throw .indexOutOfBounds else read fun s => s.bitset.get index.toNat

def isValidIndex (itemCount index : Int) : Bool := index ≥ 0 && index < itemCount

/-- `size()`. -/
def getSize : Call Int := fun s =>
  if s.size ≥ 0 then (.ok s.size, s)
  else (.ok s.bitset.cardinality, { s with size := s.bitset.cardinality })

/-- `indexOf` a row that is selected. -/
def indexOfSelected (index : Nat) : Call Int := do
  let length ← read (·.bitset.length)
  if index = 0 then return 0
  else if index = length - 1 then
    let size ← getSize
    return size - 1
  else if index > length / 2 then
    let above ← read fun s => (s.bitset.stream.filter (index < ·)).length
    let size ← getSize
    return size - (1 + above)
  else read fun s => (s.bitset.stream.filter (· < index)).length

def indexOf (index : Int) : Call Int := do
  if ← isSelected index then indexOfSelected index.toNat else return -1

/-! ### Selecting -/

/-- The bits change, and the number of rows is not known any more. -/
def setBits (f : JavaBitSet → JavaBitSet) : Call Unit :=
  modify fun s => { s with bitset := f s.bitset, size := -1 }

/-- What `set(index)` does to a row it may select. -/
def select (index : Int) : Call Unit := do
  beginChange
  setBits (·.set index.toNat)
  let indicesIndex ← indexOf index
  nextAdd indicesIndex (indicesIndex + 1)
  endChange

/-- `set(index)`. -/
def set (itemCount index : Int) : Call Unit := do
  if isValidIndex itemCount index then
    if ← isSelected index then return ()
    else select index
  else return ()

/-- `bitset.set(index, end, true)`. -/
def setBitRange (lo hi : Int) : Call Unit :=
  if lo < 0 ∨ hi < 0 ∨ lo > hi then throw .indexOutOfBounds
  else if lo = hi then modify fun s => { s with size := -1 }
  else setBits (·.setRange lo.toNat hi.toNat)

/-- `set(index, end, true)`. -/
def setRange (index «end» : Int) : Call Unit := do
  beginChange
  modify fun s => { s with size := -1 }
  setBitRange index «end»
  let indicesIndex ← indexOf index
  nextAdd indicesIndex (indicesIndex + («end» - index))
  endChange

/-- The rows of a call that may be selected and are not, in ascending order. -/
def newIndices (itemCount : Int) (indices : List Int) (s : SelectedIndicesList) : List Nat :=
  (((indices.eraseDups.filter (isValidIndex itemCount)).map Int.toNat).filter
    fun i => !s.bitset.get i).insertionSort (· ≤ ·)

/-- The last round of the loop below reports what is left of a run. -/
def reportLast (size pos start : Int) : Call Unit :=
  if pos = size then nextAdd start (start + pos) else pure ()

/-- The loop that reports runs of new rows; `size` is their number, and `pos`, `start`,
`end` and `previousEndValue` are the variables of the loop. -/
def reportRuns (size : Int) : List Nat → Int → Int → Int → Nat → Call Unit
  | [], _, _, _, _ => return ()
  | endValue :: rest, pos, start, «end», previousEndValue =>
    if (previousEndValue : Int) ≠ endValue - 1 then do
      nextAdd start («end» + 1)
      reportRuns size rest (pos + 1) («end» + 1) («end» + 1) endValue
    else do
      reportLast size (pos + 1) start
      reportRuns size rest (pos + 1) start («end» + 1) endValue

/-- What `set(index, indices...)` reports once the new rows are selected. -/
def reportNew (sortedNewIndices : List Nat) : Call Unit :=
  match sortedNewIndices with
  | [] => return ()
  | [index] => do
    beginChange
    let indicesIndex ← indexOf index
    nextAdd indicesIndex (indicesIndex + 1)
    endChange
  | startValue :: rest => do
    beginChange
    let start ← indexOf startValue
    reportRuns sortedNewIndices.length rest 1 start (start + 1) startValue
    endChange

/-- `set(index, indices...)`. -/
def setIndices (itemCount index : Int) (indices : List Int) : Call Unit :=
  if indices = [] then set itemCount index
  else do
    startAtomic
    let sortedNewIndices ← read (newIndices itemCount (index :: indices))
    forEach (fun i : Nat => set itemCount i) sortedNewIndices
    stopAtomic
    reportNew sortedNewIndices

/-! ### Clearing -/

/-- `clear()`. -/
def clearAll : Call Unit := do
  beginChange
  let removed ← read (·.bitset.stream)
  modify fun s => { s with size := 0, bitset := s.bitset.clearAll }
  nextRemoveAll 0 removed
  endChange

/-- What `clear(index)` does to a row that is selected. -/
def deselect (index : Int) : Call Unit := do
  let indicesIndex ← indexOf index
  beginChange
  setBits (·.clear index.toNat)
  nextRemove indicesIndex index.toNat
  endChange

/-- `clear(index)`. -/
def clear (index : Int) : Call Unit := do
  if ← isSelected index then deselect index else return ()

/-- A call that changes the rows. -/
inductive IndexCall
  | set (index : Int)
  | setIndices (index : Int) (indices : List Int)
  | setRange (index «end» : Int)
  | clear (index : Int)
  | clearAll
deriving DecidableEq, Repr

def IndexCall.run (itemCount : Int) : IndexCall → Call Unit
  | .set index => SelectedIndicesList.set itemCount index
  | .setIndices index indices => SelectedIndicesList.setIndices itemCount index indices
  | .setRange index «end» => SelectedIndicesList.setRange index «end»
  | .clear index => SelectedIndicesList.clear index
  | .clearAll => SelectedIndicesList.clearAll

end SelectedIndicesList

end JavaFX
