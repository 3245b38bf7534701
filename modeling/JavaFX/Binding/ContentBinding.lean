/-
`com.sun.javafx.binding.ContentBinding`, for lists and maps.

`bind` makes the target equal to the source and registers a listener, which repeats every
change of the source on the target.  The target is any list or map of `java.util` that can be
modified; a map is its mapping.  A change of a list comes with the source as it is when the
listener is called, after all of the change.
-/
import JavaFX.Collections.ObservableMapWrapper
import JavaFX.Collections.ListChangeBuilder

namespace JavaFX.ContentBinding

open Program

variable {E : Type}

/-- `checkParameters(property1, property2)` of two references. -/
def checkParameters (property1 property2 : Option Nat) : Except JavaException Unit :=
  match property1, property2 with
  | some ref1, some ref2 => if ref1 = ref2 then .error .illegalArgument else .ok ()
  | _, _ => .error .nullPointer

/-- `list.subList(fromIndex, toIndex)`. -/
def subList (l : List E) (fromIndex toIndex : Int) : Except JavaException (List E) :=
  if 0 ≤ fromIndex ∧ fromIndex ≤ toIndex ∧ toIndex ≤ l.length then
    .ok ((l.drop fromIndex.toNat).take (toIndex - fromIndex).toNat)
  else .error .indexOutOfBounds

/-- `list.subList(fromIndex, toIndex).clear()`. -/
def clearRange (fromIndex toIndex : Int) : Program JavaException (List E) Unit := do
  let list ← read id
  let _ ← lift (subList list fromIndex toIndex)
  modify (fun list => list.take fromIndex.toNat ++ list.drop toIndex.toNat)

/-- `list.addAll(index, c)`. -/
def addAll (index : Int) (c : List E) : Program JavaException (List E) Unit := do
  let list ← read id
  if 0 ≤ index ∧ index ≤ list.length then
    modify (fun list => list.take index.toNat ++ c ++ list.drop index.toNat)
  else
    throw .indexOutOfBounds

/-- The body of the loop in `ListContentBinding.onChanged`. -/
def onSubChange (source : List E) (change : SubChange E) : Program JavaException (List E) Unit := do
  if change.wasPermutated then
    clearRange change.from change.to
    let elements ← lift (subList source change.from change.to)
    addAll change.from elements
  else
    if change.getRemoved ≠ [] then
      clearRange change.from (change.from + change.getRemovedSize)
    if change.wasAdded then
      let elements ← lift (subList source change.from change.to)
      addAll change.from elements

/-- `ListContentBinding.onChanged`. -/
def onChanged (change : Change E) : Program JavaException (List E) Unit :=
  forEach (onSubChange change.list) change.changes

/-- `bind(list1, list2)` of two lists, up to the registration of the listener: `setAll`, or
`clear` and `addAll`. -/
def bind (list1 list2 : Option Nat) : Program JavaException (Nat → List E) Unit := do
  lift (checkParameters list1 list2)
  match list1, list2 with
  | some ref1, some ref2 => modify (fun lists => Function.update lists ref1 (lists ref2))
  | _, _ => pure ()

variable {K V : Type} [DecidableEq K]

/-- `MapContentBinding.onChanged`. -/
def onMapChanged (map : K → Option (Option V)) (change : MapChange K V) : K → Option (Option V) :=
  let map := if change.wasRemoved then Function.update map change.key none else map
  if change.wasAdded then Function.update map change.key (some change.added) else map

/-- `bind(map1, map2)` of two maps: `clear` and `putAll`. -/
def bindMaps (map1 map2 : Option Nat) : Program JavaException (Nat → K → Option (Option V)) Unit := do
  lift (checkParameters map1 map2)
  match map1, map2 with
  | some ref1, some ref2 => modify (fun maps => Function.update maps ref1 (maps ref2))
  | _, _ => pure ()

end JavaFX.ContentBinding
