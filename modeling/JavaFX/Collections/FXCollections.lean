/-
`rotate` of `javafx.collections.FXCollections`.

An `ObservableList` is known by what `toArray` and `setAll` do to its state.  The loops are
given fuel, and a call that runs out of it has no result.
-/
import JavaFX.Collections.ObservableIntegerArray
import JavaFX.Collections.ObservableListWrapper

namespace JavaFX

open Program

/-- What the methods here use of a list. -/
structure ObservableList (E S : Type) where
  toArray : S → List E
  setAll : List E → Program JavaException S Bool

/-- `setAll(elements...)`, whose arguments are an array. -/
def arguments {E : Type} [DecidableEq E] (elements : List E) : Collection E where
  size := .ok elements.length
  isEmpty := .ok elements.isEmpty
  iterate _ := (elements, none)
  contains _ e := .ok (e ∈ elements)

/-- A wrapper as an `ObservableList`. -/
def ObservableListWrapper.asObservableList {E Obs : Type} [DecidableEq E] [DecidableEq Obs] :
    ObservableList E (ObservableListWrapper E Obs) where
  toArray := (·.backingList)
  setAll elements := ObservableListWrapper.setAll (arguments elements)

namespace FXCollections

variable {E S : Type}

/-- The inner loop of `rotate`: each element of the cycle takes the place of the one a
`distance` ahead, until the cycle is back where it started. -/
def moveCycle (size distance cycleStart : Int) :
    Nat → List E → E → Int → Int → Except JavaException (Option (List E × Int))
  | 0, _, _, _, _ => .ok none
  | fuel + 1, newContent, displaced, i, nMoved => do
    let i := wrap (i + distance)
    let i := if i ≥ size then i - size else i
    let tmp ← getAt newContent i
    let newContent ← setAt newContent i displaced
    if i ≠ cycleStart then
      moveCycle size distance cycleStart fuel newContent tmp i (nMoved + 1)
    else return some (newContent, nMoved + 1)

/-- The outer loop of `rotate`. -/
def moveCycles (size distance : Int) :
    Nat → List E → Int → Int → Except JavaException (Option (List E))
  | 0, _, _, _ => .ok none
  | fuel + 1, newContent, cycleStart, nMoved =>
    if nMoved = size then .ok (some newContent)
    else do
      let displaced ← getAt newContent cycleStart
      match ← moveCycle size distance cycleStart fuel newContent displaced cycleStart nMoved with
      | some (newContent, nMoved) =>
        moveCycles size distance fuel newContent (cycleStart + 1) nMoved
      | none => return none

/-- `rotate(list, distance)`. -/
def rotate (fuel : Nat) (list : ObservableList E S) (distance : Int) :
    Program JavaException S (Option Unit) := do
  let newContent ← read list.toArray
  let size : Int := newContent.length
  -- `distance % size`
  if size = 0 then throw .arithmetic
  else
    let distance := distance.tmod size
    let distance := if distance < 0 then distance + size else distance
    if distance = 0 then return some ()
    else
      match ← lift (moveCycles size distance fuel newContent 0 0) with
      | some newContent =>
        let _ ← list.setAll newContent
        return some ()
      | none => return none

end FXCollections

end JavaFX
