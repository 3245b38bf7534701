/-
`com.sun.javafx.binding.MapExpressionHelper`: the listeners of a map property that get another map.

`SingleMapChange` has one listener, `Generic` has arrays of all three kinds.  Both find the
difference of the two maps with the same two loops, over the entries of the old map and over those
of the new one, and tell it through one change object.  Its setters assign every field, so what a
listener reads while it is called is what was set last; `MapChange` is what it reads then.

Maps are objects: `maps` gives the entries of a map by its reference, in the order of iteration.
-/
import JavaFX.Collections.ObservableMapWrapper

namespace JavaFX.MapExpressionHelper

open Program

variable {K V : Type} [DecidableEq K] [DecidableEq V]

/-- What is in a map: no key twice. -/
structure Contents (K V : Type) [DecidableEq K] where
  entries : List (K × Option V)
  nodup : (AssocList.keys entries).Nodup

/-! ### The change object -/

def setRemoved (key : K) (old : Option V) : MapChange K V := ⟨key, old, none, false, true⟩

def setAdded (key : K) (added : Option V) : MapChange K V := ⟨key, none, added, true, false⟩

def setPut (key : K) (old added : Option V) : MapChange K V := ⟨key, old, added, true, true⟩

/-! ### The two loops -/

/-- `oldEntry == null ? newEntry != null : !newEntry.equals(oldEntry)`. -/
def differs (oldEntry newEntry : Option V) : Except JavaException Bool :=
  match oldEntry with
  | none => .ok newEntry.isSome
  | some o =>
    match newEntry with
    | none => .error .nullPointer
    | some n => .ok (n != o)

section
variable {σ : Type} (onChanged : MapChange K V → Program JavaException σ Unit)

/-- An entry of the old map. -/
def oldEntry (currentValue : Contents K V) (e : K × Option V) : Program JavaException σ Unit :=
  match AssocList.get e.1 currentValue.entries with
  | some newEntry => do
    if ← lift (differs e.2 newEntry) then onChanged (setPut e.1 e.2 newEntry) else pure ()
  | none => onChanged (setRemoved e.1 e.2)

/-- An entry of the new map. -/
def newEntry (oldValue : Contents K V) (e : K × Option V) : Program JavaException σ Unit :=
  if (AssocList.get e.1 oldValue.entries).isNone then onChanged (setAdded e.1 e.2) else pure ()

/-- What the listeners are told if the value is another object than before. -/
def tellDifference (maps : Nat → Contents K V) (oldValue currentValue : Option Nat) : Program JavaException σ Unit :=
  match oldValue, currentValue with
  | none, none => throw .nullPointer
  | some old, none => forEach (fun e => onChanged (setRemoved e.1 e.2)) (maps old).entries
  | none, some current => forEach (fun e => onChanged (setAdded e.1 e.2)) (maps current).entries
  | some old, some current => do
    forEach (oldEntry onChanged (maps current)) (maps old).entries
    forEach (newEntry onChanged (maps old)) (maps current).entries

end

/-! ### One listener -/

structure SingleMapChange (K V : Type) where
  currentValue : Option Nat
  told : List (MapChange K V)

/-- `fireValueChangedEvent`, when the property has the value `value`. -/
def SingleMapChange.fireValueChangedEvent (maps : Nat → Contents K V) (value : Option Nat) :
    Program JavaException (SingleMapChange K V) Unit := do
  let oldValue ← read (·.currentValue)
  modify fun s => { s with currentValue := value }
  if value ≠ oldValue then
    tellDifference (fun change => modify fun s => { s with told := s.told ++ [change] }) maps oldValue value
  else pure ()

/-! ### All kinds of listeners -/

/-- What a listener of an array is told. -/
inductive Event (K V : Type)
  | invalidated (i : Nat)
  | changed (i : Nat) (oldValue newValue : Option Nat)
  | onChanged (i : Nat) (change : MapChange K V)
deriving DecidableEq

structure Generic (K V : Type) where
  invalidationSize : Nat
  changeSize : Nat
  mapChangeSize : Nat
  locked : Bool
  currentValue : Option Nat
  told : List (Event K V)

namespace Generic

def tell (event : Event K V) : Program JavaException (Generic K V) Unit :=
  modify fun s => { s with told := s.told ++ [event] }

/-- The listeners of a change of the map, one after the other. -/
def tellAll (mapChangeSize : Nat) (change : MapChange K V) : Program JavaException (Generic K V) Unit :=
  forEach (fun i => tell (.onChanged i change)) (List.range mapChangeSize)

/-- `notifyListeners(oldValue, null)`. -/
def notifyListeners (maps : Nat → Contents K V) (oldValue : Option Nat) :
    Program JavaException (Generic K V) Unit := do
  let s ← read id
  tryFinally (do
      modify fun s => { s with locked := true }
      forEach (fun i => tell (.invalidated i)) (List.range s.invalidationSize)
      if s.currentValue ≠ oldValue then do
        forEach (fun i => tell (.changed i oldValue s.currentValue)) (List.range s.changeSize)
        if 0 < s.mapChangeSize then tellDifference (tellAll s.mapChangeSize) maps oldValue s.currentValue
        else pure ()
      else pure ())
    (modify fun s => { s with locked := false })

/-- `fireValueChangedEvent`, when the property has the value `value`. -/
def fireValueChangedEvent (maps : Nat → Contents K V) (value : Option Nat) :
    Program JavaException (Generic K V) Unit := do
  let s ← read id
  if s.changeSize = 0 ∧ s.mapChangeSize = 0 then notifyListeners maps s.currentValue
  else do
    modify fun s => { s with currentValue := value }
    notifyListeners maps s.currentValue

end Generic

end JavaFX.MapExpressionHelper
