/-
`com.sun.javafx.collections.ObservableListWrapper`, with what it inherits from
`ModifiableObservableListBase`, `ObservableListBase` and `AbstractList`.

The wrapper passes every call on to a list the caller supplied.  That list behaves
as `java.util.List` says, except that any of its writes may be refused: `faults`
are the exceptions the next writes come to.  A refused write leaves the list as it
was.  A collection passed as an argument is code of the caller too; an iterator may
throw after it has handed out some elements, and so may `size`, `isEmpty` and
`contains`.

`fired` is what the registered listeners have been told.  Exceptions of listeners
are caught where they are notified, so they do not come back here.
-/
import JavaFX.Collections.ListChangeBuilder
import JavaFX.Collections.SortHelper
import JavaFX.Collections.ElementObserver
import JavaFX.Lib.Program

namespace JavaFX

open Program

/-- A collection passed as an argument.  What its iterator hands out may depend on
the list it is added to, since the two may be the same; the same holds for the
answers of `contains`, which is asked about one index after the other. -/
structure Collection (E : Type) where
  size : Except JavaException Int
  isEmpty : Except JavaException Bool
  iterate : List E → List E × Option JavaException
  contains : Nat → E → Except JavaException Bool

structure ObservableListWrapper (E Obs : Type) where
  backingList : List E
  faults : List (Option JavaException) := []
  elementObserver : Option (ElementObserver E Obs) := none
  changeBuilder : ListChangeBuilder E := {}
  hasListeners : Bool := false
  fired : List (Change E) := []

namespace ObservableListWrapper

variable {E Obs : Type}

/-- A call on a wrapper. -/
abbrev Call (E Obs α : Type) := Program JavaException (ObservableListWrapper E Obs) α

/-! ### The backing list -/

/-- A write to the backing list: it is refused, or `f` is what it does. -/
def write {α : Type} (f : List E → Except JavaException (List E × α)) : Call E Obs α := fun w =>
  match w.faults with
  | some e :: faults => (.error e, { w with faults })
  | _ =>
    match f w.backingList with
    | .ok (backingList, a) => (.ok a, { w with backingList, faults := w.faults.tail })
    | .error e => (.error e, { w with faults := w.faults.tail })

/-- `backingList.add(index, element)`. -/
def backingAdd (index : Int) (element : E) : Call E Obs Unit :=
  write fun l =>
    if 0 ≤ index ∧ index ≤ l.length then
      .ok (l.take index.toNat ++ element :: l.drop index.toNat, ())
    else .error .indexOutOfBounds

/-- `backingList.set(index, element)`. -/
def backingSet (index : Int) (element : E) : Call E Obs E :=
  write fun l =>
    match (if 0 ≤ index then l[index.toNat]? else none) with
    | some old => .ok (l.set index.toNat element, old)
    | none => .error .indexOutOfBounds

/-- `backingList.remove(index)`. -/
def backingRemove (index : Int) : Call E Obs E :=
  write fun l =>
    match (if 0 ≤ index then l[index.toNat]? else none) with
    | some old => .ok (l.eraseIdx index.toNat, old)
    | none => .error .indexOutOfBounds

/-- `backingList.clear()`. -/
def backingClear : Call E Obs Unit := write fun _ => .ok ([], ())

/-! ### Blocks of changes -/

def beginChange : Call E Obs Unit :=
  modify fun w => { w with changeBuilder := w.changeBuilder.beginChange }

/-- A call that mirrors a mutation on the builder. -/
def mirror (f : ListChangeBuilder E → Except JavaException (ListChangeBuilder E)) :
    Call E Obs Unit := fun w =>
  match f w.changeBuilder with
  | .ok changeBuilder => (.ok (), { w with changeBuilder })
  | .error e => (.error e, w)

/-- The listeners, if there are any, are told. -/
def fireChange (change : Change E) : Call E Obs Unit :=
  modify fun w => if w.hasListeners then { w with fired := w.fired ++ [change] } else w

def endChange : Call E Obs Unit := fun w =>
  match w.changeBuilder.endChange w.backingList with
  | .ok (changeBuilder, some change) => fireChange change { w with changeBuilder }
  | .ok (changeBuilder, none) => (.ok (), { w with changeBuilder })
  | .error e => (.error e,
      { w with changeBuilder := { w.changeBuilder with changeLock := w.changeBuilder.changeLock - 1 } })

/-- A block around one call on the builder. -/
def report (f : ListChangeBuilder E → Except JavaException (ListChangeBuilder E)) :
    Call E Obs Unit := do
  beginChange
  mirror f
  endChange

/-! ### Single elements -/

variable [DecidableEq E] [DecidableEq Obs]

/-- `new ObservableListWrapper(list, extractor)`: the elements that are there are attached. -/
def create (extractor : E → List Obs) (isNull : E → Bool) (list : List E) :
    ObservableListWrapper E Obs where
  backingList := list
  elementObserver := some (list.foldl (fun o e => o.attachListener e) { extractor, isNull })

def attachListener (e : E) : Call E Obs Unit :=
  modify fun w => { w with elementObserver := w.elementObserver.map (·.attachListener e) }

def detachListener (e : E) : Call E Obs Unit := fun w =>
  match w.elementObserver with
  | none => (.ok (), w)
  | some o =>
    match o.detachListener e with
    | .ok o => (.ok (), { w with elementObserver := some o })
    | .error ex => (.error ex, w)

def doAdd (index : Int) (element : E) : Call E Obs Unit := do
  attachListener element
  backingAdd index element

def doSet (index : Int) (element : E) : Call E Obs E := do
  let removed ← backingSet index element
  detachListener removed
  attachListener element
  return removed

def doRemove (index : Int) : Call E Obs E := do
  let removed ← backingRemove index
  detachListener removed
  return removed

/-- `add(index, element)`. -/
def addAt (index : Int) (element : E) : Call E Obs Unit := do
  doAdd index element
  report (·.nextAdd index (index + 1))

/-- `add(element)`. -/
def add (element : E) : Call E Obs Bool := do
  let size ← read (·.backingList.length)
  addAt size element
  return true

def set (index : Int) (element : E) : Call E Obs E := do
  let old ← doSet index element
  report (·.nextSet index old)
  return old

/-- `remove(index)`. -/
def removeAt (index : Int) : Call E Obs E := do
  let old ← doRemove index
  report (·.nextRemove index old)
  return old

/-- `backingList.indexOf(o)`; `equals` is what `o` says it is equal to. -/
def indexOf (equals : E → Except JavaException Bool) : List E → Except JavaException Int
  | [] => .ok (-1)
  | e :: es => do
    if ← equals e then return 0
    else
      let i ← indexOf equals es
      return if i = -1 then -1 else i + 1

/-- `remove(o)`. -/
def remove (equals : E → Except JavaException Bool) : Call E Obs Bool := do
  let i ← lift (indexOf equals (← read (·.backingList)))
  if i ≠ -1 then
    let _ ← removeAt i
    return true
  else return false

/-! ### Many elements -/

/-- The elements of a collection, one after the other, and the exception its
iterator ends with. -/
def iterate (c : Collection E) (body : E → Call E Obs Unit) : Call E Obs Bool := do
  let (elements, exception) ← read (fun w => c.iterate w.backingList)
  forEach body elements
  match exception with
  | some e => throw e
  | none => return !elements.isEmpty

def addAll (c : Collection E) : Call E Obs Bool := do
  beginChange
  tryFinally (iterate c (fun e => do let _ ← add e)) endChange

/-- The elements from `index` on. -/
def addEachAt : Int → List E → Call E Obs Unit
  | _, [] => return ()
  | index, e :: es => do
    addAt index e
    addEachAt (index + 1) es

/-- `addAll(index, c)`. -/
def addAllAt (index : Int) (c : Collection E) : Call E Obs Bool := do
  beginChange
  tryFinally (do
      let size ← read (·.backingList.length)
      if index < 0 ∨ index > size then throw .indexOutOfBounds
      else
        let (elements, exception) ← read (fun w => c.iterate w.backingList)
        addEachAt index elements
        match exception with
        | some e => throw e
        | none => return !elements.isEmpty)
    endChange

def clear : Call E Obs Unit := do
  let elements ← read (·.backingList)
  forEach detachListener elements
  if ← read (·.hasListeners) then
    beginChange
    mirror (·.nextRemoveAll 0 elements)
  backingClear
  if ← read (·.hasListeners) then
    endChange

def setAll (col : Collection E) : Call E Obs Bool := do
  let isEmpty ← read (·.backingList.isEmpty)
  if ← (if isEmpty then lift col.isEmpty else return false) then return false
  else
    beginChange
    tryFinally (do
        clear
        let _ ← addAll col
        return true)
      endChange

/-- `n` times `remove(index)`. -/
def removeTimes (index : Int) : Nat → Call E Obs Unit
  | 0 => return ()
  | n + 1 => do
    let _ ← removeAt index
    removeTimes index n

/-- `remove(fromIndex, toIndex)`. -/
def removeRange (fromIndex toIndex : Int) : Call E Obs Unit := do
  beginChange
  removeTimes fromIndex (toIndex - fromIndex).toNat
  endChange

/-- The indices, from `i` on, of the elements `c.contains` answers `mark` for. -/
def marked (c : Collection E) (mark : Bool) : Nat → List E → Except JavaException (List Nat)
  | _, [] => .ok []
  | i, e :: es => do
    let found ← c.contains i e
    let bs ← marked c mark (i + 1) es
    return if found = mark then i :: bs else bs

/-- The common body of `removeAll` and `retainAll`: the elements to remove are marked
in a `BitSet`, and removed from the last one to the first. -/
def removeMarked (mark : Bool) (c : Collection E) : Call E Obs Bool := do
  beginChange
  let size ← lift c.size
  if size < 0 then throw .negativeArraySize
  else
    let bs ← lift (marked c mark 0 (← read (·.backingList)))
    forEach (fun i : Nat => do let _ ← removeAt i) bs.reverse
    endChange
    return !bs.isEmpty

def removeAll : Collection E → Call E Obs Bool := removeMarked true
def retainAll : Collection E → Call E Obs Bool := removeMarked false

/-! ### Sorting -/

/-- The sorted array goes back into the list, element by element. -/
def writeBack : Nat → List E → Call E Obs Unit
  | _, [] => return ()
  | i, e :: es => do
    let _ ← backingSet i e
    writeBack (i + 1) es

def sort (compare : E → E → Except JavaException Int) : Call E Obs Unit := do
  if ← read (·.backingList.isEmpty) then return ()
  else
    let (sorted, perm) ← lift (SortHelper.sort compare (← read (·.backingList)))
    writeBack 0 sorted
    let list ← read (·.backingList)
    fireChange ⟨list, [⟨0, list.length, some [], perm, false⟩]⟩

/-! ### The calls of the interface -/

/-- A call that changes the list. -/
inductive ListCall (E : Type)
  | add (element : E)
  | addAt (index : Int) (element : E)
  | addAll (c : Collection E)
  | addAllAt (index : Int) (c : Collection E)
  | set (index : Int) (element : E)
  | setAll (col : Collection E)
  | remove (equals : E → Except JavaException Bool)
  | removeAt (index : Int)
  | removeRange (fromIndex toIndex : Int)
  | removeAll (c : Collection E)
  | retainAll (c : Collection E)
  | clear
  | sort (compare : E → E → Except JavaException Int)

/-- The call itself; what it returns is dropped. -/
def ListCall.run : ListCall E → Call E Obs Unit
  | .add element => do let _ ← ObservableListWrapper.add element
  | .addAt index element => ObservableListWrapper.addAt index element
  | .addAll c => do let _ ← ObservableListWrapper.addAll c
  | .addAllAt index c => do let _ ← ObservableListWrapper.addAllAt index c
  | .set index element => do let _ ← ObservableListWrapper.set index element
  | .setAll col => do let _ ← ObservableListWrapper.setAll col
  | .remove equals => do let _ ← ObservableListWrapper.remove equals
  | .removeAt index => do let _ ← ObservableListWrapper.removeAt index
  | .removeRange fromIndex toIndex => ObservableListWrapper.removeRange fromIndex toIndex
  | .removeAll c => do let _ ← ObservableListWrapper.removeAll c
  | .retainAll c => do let _ ← ObservableListWrapper.retainAll c
  | .clear => ObservableListWrapper.clear
  | .sort compare => ObservableListWrapper.sort compare

/-! ### Invalidations -/

/-- The updates an invalidated element reports. -/
def updateEach (e : E) : Nat → List E → Call E Obs Unit
  | _, [] => return ()
  | i, x :: xs => do
    if x = e then mirror (·.nextUpdate i)
    updateEach e (i + 1) xs

/-- The listener of an element is told that an observable is invalid. -/
def invalidated (listener : InvalidationListener E) : Call E Obs Unit := do
  beginChange
  updateEach listener.element 0 (← read (·.backingList))
  endChange

/-- An observable becomes invalid: its listeners are told. -/
def invalidate (obs : Obs) : Call E Obs Unit := do
  let listeners ← read (fun w => match w.elementObserver with
    | some o => (o.registrations.filter (fun r => r.1 = obs)).map Prod.snd
    | none => [])
  forEach invalidated listeners

end ObservableListWrapper

end JavaFX
