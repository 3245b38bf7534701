/-
The views of `com.sun.javafx.collections.VetoableListDecorator`: its sub-lists and their list
iterators.

A view proposes its changes with indexes of the root list.  A sub-list knows its offset.  A list
iterator has a cursor and the position of the element it returned last, both relative to its own
offset, which is where it was asked to start; beside them it wraps an iterator of the decorated
list, which has a cursor of its own.  In the sources `cursor` and `lastReturned` are not
initialised, so both are 0.

`proposeRemoval` is what the decorator proposes when a collection is removed from a sub-list.
-/
import JavaFX.Scene.ChildrenList

namespace JavaFX.VetoableListDecorator

/-! ### Bulk removal -/

section
variable {E : Type} [DecidableEq E]

/-- `removeAll`, or with `complement` `retainAll`, on a sub-list that begins at `offset`. -/
def proposeRemoval (offset : Int) (c : List E) (complement : Bool) (subList : List E) : Option (Proposal E) :=
  match ChildrenCall.removeFromList c complement offset subList [] with
  | [] => none
  | toBeRemoved => some ⟨[], toBeRemoved⟩

end

/-! ### Iterators of the decorated list -/

/-- A `java.util.ListIterator` of a sub-list: `size` elements of the root list, from `low` on.
`last` is the element that was returned last, unless the list was changed since. -/
structure ListIterator (E : Type) where
  list : List E
  low : Nat
  size : Nat
  position : Nat
  last : Option Nat
deriving DecidableEq

namespace ListIterator

variable {E : Type}

def next (it : ListIterator E) : Except JavaException (E × ListIterator E) :=
  match (if it.position < it.size then it.list[it.low + it.position]? else none) with
  | some e => .ok (e, { it with position := it.position + 1, last := some it.position })
  | none => .error .noSuchElement

def previous (it : ListIterator E) : Except JavaException (E × ListIterator E) :=
  match (if 0 < it.position then it.list[it.low + (it.position - 1)]? else none) with
  | some e => .ok (e, { it with position := it.position - 1, last := some (it.position - 1) })
  | none => .error .noSuchElement

def set (e : E) (it : ListIterator E) : Except JavaException (ListIterator E) :=
  match it.last with
  | some r => .ok { it with list := it.list.set (it.low + r) e }
  | none => .error (.illegalState "")

def remove (it : ListIterator E) : Except JavaException (ListIterator E) :=
  match it.last with
  | some r => .ok { it with
      list := it.list.eraseIdx (it.low + r)
      size := it.size - 1
      position := if r < it.position then it.position - 1 else it.position
      last := none }
  | none => .error (.illegalState "")

def add (e : E) (it : ListIterator E) : ListIterator E :=
  { it with
    list := it.list.insertIdx (it.low + it.position) e
    size := it.size + 1
    position := it.position + 1
    last := none }

end ListIterator

/-! ### The decorated iterator -/

/-- The modification counts behind an iterator: of the sub-lists, the innermost first, and of the
decorator. -/
structure ModCountAccessor where
  subLists : List Int
  decorator : Int
deriving DecidableEq

namespace ModCountAccessor

def get (a : ModCountAccessor) : Int := a.subLists.headD a.decorator

/-- Every level takes over the count of the next one. -/
def assign (n : Int) (a : ModCountAccessor) : ModCountAccessor := ⟨a.subLists.map fun _ => n, n⟩

def incrementAndGet (a : ModCountAccessor) : Int × ModCountAccessor := (a.decorator + 1, a.assign (a.decorator + 1))

def decrementAndGet (a : ModCountAccessor) : Int × ModCountAccessor := (a.decorator - 1, a.assign (a.decorator - 1))

end ModCountAccessor

structure VetoableListIterator (E : Type) where
  lit : ListIterator E
  modCountAccessor : ModCountAccessor
  modCount : Int
  offset : Int
  cursor : Int
  lastReturned : Int
deriving DecidableEq

/-- What a call comes to: the change it proposed, what it returned or threw, and the iterator
afterwards. -/
structure Answer (E : Type) where
  proposed : Option (Proposal E)
  result : Except JavaException (Option E)
  after : VetoableListIterator E

inductive IteratorCall (E : Type)
  | next
  | previous
  | set (e : E)
  | remove
  | add (e : E)
deriving DecidableEq

namespace VetoableListIterator

variable {E : Type}

def incrementModCount (s : VetoableListIterator E) : VetoableListIterator E :=
  { s with modCount := s.modCountAccessor.incrementAndGet.1, modCountAccessor := s.modCountAccessor.incrementAndGet.2 }

def decrementModCount (s : VetoableListIterator E) : VetoableListIterator E :=
  { s with modCount := s.modCountAccessor.decrementAndGet.1, modCountAccessor := s.modCountAccessor.decrementAndGet.2 }

/-- `checkForComodification` throws. -/
def comodified (s : VetoableListIterator E) : Bool := s.modCount != s.modCountAccessor.get

def next (s : VetoableListIterator E) : Answer E :=
  match s.lit.next with
  | .ok (e, lit) => ⟨none, .ok (some e), { s with lit, lastReturned := s.cursor, cursor := s.cursor + 1 }⟩
  | .error ex => ⟨none, .error ex, s⟩

def previous (s : VetoableListIterator E) : Answer E :=
  match s.lit.previous with
  | .ok (e, lit) => ⟨none, .ok (some e), { s with lit, lastReturned := s.cursor - 1, cursor := s.cursor - 1 }⟩
  | .error ex => ⟨none, .error ex, s⟩

section
variable (onProposedChange : List E → Proposal E → Except JavaException Unit)

def set (e : E) (s : VetoableListIterator E) : Answer E :=
  if s.lastReturned = -1 then ⟨none, .error (.illegalState ""), s⟩
  else
    let proposal : Proposal E := ⟨[e], [(s.offset + s.lastReturned, s.offset + s.lastReturned + 1)]⟩
    match onProposedChange s.lit.list proposal with
    | .error ex => ⟨some proposal, .error ex, s⟩
    | .ok () =>
      match s.lit.set e with
      | .ok lit => ⟨some proposal, .ok none, { s with lit }⟩
      | .error ex => ⟨some proposal, .error ex, s⟩

def remove (s : VetoableListIterator E) : Answer E :=
  if s.lastReturned = -1 then ⟨none, .error (.illegalState ""), s⟩
  else
    let proposal : Proposal E := ⟨[], [(s.offset + s.lastReturned, s.offset + s.lastReturned + 1)]⟩
    match onProposedChange s.lit.list proposal with
    | .error ex => ⟨some proposal, .error ex, s⟩
    | .ok () =>
      let t := s.incrementModCount
      match t.lit.remove with
      | .ok lit => ⟨some proposal, .ok none, { t with lit, lastReturned := -1, cursor := t.cursor - 1 }⟩
      | .error ex => ⟨some proposal, .error ex, t.decrementModCount⟩

def add (e : E) (s : VetoableListIterator E) : Answer E :=
  let proposal : Proposal E := ⟨[e], [(s.offset + s.cursor, s.offset + s.cursor)]⟩
  match onProposedChange s.lit.list proposal with
  | .error ex => ⟨some proposal, .error ex, s⟩
  | .ok () =>
    let t := s.incrementModCount
    ⟨some proposal, .ok none, { t with lit := t.lit.add e, cursor := t.cursor + 1 }⟩

/-- A call.  Every one of them checks the modification count first. -/
def call (s : VetoableListIterator E) (c : IteratorCall E) : Answer E :=
  if s.comodified then ⟨none, .error .concurrentModification, s⟩
  else
    match c with
    | .next => s.next
    | .previous => s.previous
    | .set e => s.set onProposedChange e
    | .remove => s.remove onProposedChange
    | .add e => s.add onProposedChange e

end

end VetoableListIterator

/-! ### Sub-lists -/

/-- A view of a list of `length` elements: the list itself, or a sub-list of a view. -/
structure View where
  offset : Int
  low : Nat
  size : Nat
  modCounts : ModCountAccessor

/-- The decorator with a modification count of its own. -/
def View.root (length : Nat) (modCount : Int) : View := ⟨0, 0, length, ⟨[], modCount⟩⟩

/-- `subList(fromIndex, toIndex)`. -/
def View.subList (fromIndex toIndex : Nat) (v : View) : View where
  offset := v.offset + fromIndex
  low := v.low + fromIndex
  size := toIndex - fromIndex
  modCounts := ⟨v.modCounts.get :: v.modCounts.subLists, v.modCounts.decorator⟩

/-- `listIterator(index)`. -/
def View.listIterator {E : Type} (list : List E) (index : Nat) (v : View) : VetoableListIterator E where
  lit := { list, low := v.low, size := v.size, position := index, last := none }
  modCountAccessor := v.modCounts
  modCount := v.modCounts.get
  offset := v.offset + index
  cursor := 0
  lastReturned := 0

/-- The views that can be made of a list, with indexes that `subList` accepts. -/
inductive View.Made (length : Nat) : View → Prop
  | root (modCount : Int) : Made length (View.root length modCount)
  | subList {v : View} (h : Made length v) {fromIndex toIndex : Nat} (hle : fromIndex ≤ toIndex)
      (hsize : toIndex ≤ v.size) : Made length (v.subList fromIndex toIndex)

end JavaFX.VetoableListDecorator
