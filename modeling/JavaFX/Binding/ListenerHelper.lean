/-
`com.sun.javafx.binding.ExpressionHelper` and
`com.sun.javafx.collections.ListListenerHelper`, with
`com.sun.javafx.binding.ExpressionHelperBase`.

The two classes keep their listeners in the same way.  They differ in what a change
listener is told: an `ExpressionHelper` calls it only if the value is not the one it
saw last.

Listeners are code of the caller.  While one of them runs it may add and remove
listeners and fire again, so a call of `fireValueChangedEvent` is not a function but
a frame on a stack: it calls a listener, other steps happen, and when the listener
is done it calls the next one.  What a listener throws is caught, so it is done then
too.  Arrays are objects: a frame may still read an array the helper has replaced,
or one that the helper writes to.
-/
import Mathlib.Data.List.Basic

namespace JavaFX

/-- The two kinds of listeners. -/
inductive Kind
  | invalidation
  | change
deriving DecidableEq, Repr

/-- The two classes. -/
inductive HelperClass
  | expressionHelper
  | listListenerHelper
deriving DecidableEq, Repr

def Kind.other : Kind → Kind
  | .invalidation => .change
  | .change => .invalidation

/-- The arrays there are. -/
abbrev Heap (L : Type) := List (List (Option L))

/-- An array of listeners and how many it holds. -/
structure Listeners where
  array : Option Nat := none
  size : Nat := 0
deriving DecidableEq, Repr

structure Generic (V : Type) where
  invalidation : Listeners := {}
  change : Listeners := {}
  locked : Bool := false
  currentValue : Option V := none
deriving DecidableEq, Repr

/-- A helper; `generic` is the number of a `Generic` object. -/
inductive Helper (L V : Type)
  | null
  | singleInvalidation (listener : Option L)
  | singleChange (listener : Option L) (currentValue : Option V)
  | generic (ref : Nat)
deriving DecidableEq, Repr

namespace Listeners

variable {L : Type}

/-- The array itself. -/
def slots (heap : Heap L) (a : Listeners) : List (Option L) :=
  match a.array with
  | some ref => heap.getD ref []
  | none => []

/-- The listeners in the array. -/
def content (heap : Heap L) (a : Listeners) : List L := ((a.slots heap).take a.size).filterMap id

/-! ### Arrays -/

/-- `Arrays.copyOf(array, newLength)`. -/
def copyOf (array : List (Option L)) (newLength : Nat) : List (Option L) :=
  array.take newLength ++ List.replicate (newLength - array.length) none

/-- The second loop of `trim`: from `src` on, what is not garbage moves down to `index`. -/
def compact (garbage : Option L → Bool) (index src : Nat) (listeners : List (Option L)) :
    Nat → Nat × List (Option L)
  | 0 => (index, listeners)
  | n + 1 =>
    match listeners[src]? with
    | some x =>
      if garbage x then compact garbage index (src + 1) listeners n
      else compact garbage (index + 1) (src + 1) (listeners.set index x) n
    | none => (index, listeners)

/-- `trim(size, listeners)`: the weak listeners whose target is gone are dropped, and
the slots behind the others cleared. -/
def trim (collected : L → Bool) (size : Nat) (listeners : List (Option L)) :
    Nat × List (Option L) :=
  let garbage := fun x : Option L => x.any collected
  let index := (listeners.take size).findIdx garbage
  if index < size then
    let (index, listeners) := compact garbage index (index + 1) listeners (size - (index + 1))
    (index, listeners.take index ++ List.replicate (size - index) none ++ listeners.drop size)
  else (size, listeners)

/-! ### Adding and removing -/

/-- The common part of the two `addListener` of `Generic`. -/
def add (collected : L → Bool) (locked : Bool) (listener : L) (heap : Heap L) (a : Listeners) :
    Heap L × Listeners :=
  match a.array with
  | none => (heap ++ [[some listener]], ⟨some heap.length, 1⟩)
  | some ref =>
    let array := a.slots heap
    let oldCapacity := array.length
    if locked then
      let newCapacity := if a.size < oldCapacity then oldCapacity else oldCapacity * 3 / 2 + 1
      (heap ++ [(copyOf array newCapacity).set a.size (some listener)], ⟨some heap.length, a.size + 1⟩)
    else if a.size = oldCapacity then
      let (size, array) := trim collected a.size array
      if size = oldCapacity then
        (heap.set ref array ++ [(copyOf array (oldCapacity * 3 / 2 + 1)).set size (some listener)],
          ⟨some heap.length, size + 1⟩)
      else (heap.set ref (array.set size (some listener)), ⟨some ref, size + 1⟩)
    else (heap.set ref (array.set a.size (some listener)), ⟨some ref, a.size + 1⟩)

variable [DecidableEq L]

/-- The place of a listener. -/
def indexOf (listener : L) (heap : Heap L) (a : Listeners) : Option Nat :=
  ((a.slots heap).take a.size).findIdx? (· = some listener)

/-- The last branch of the two `removeListener` of `Generic`: what is behind the
listener moves up, in a new array if the helper is locked. -/
def removeAt (locked : Bool) (index : Nat) (heap : Heap L) (a : Listeners) : Heap L × Listeners :=
  match a.array with
  | none => (heap, a)
  | some ref =>
    let old := a.slots heap
    let moved := (old.take a.size).drop (index + 1)
    if locked then
      (heap ++ [old.take index ++ moved ++ List.replicate (old.length - (a.size - 1)) none],
        ⟨some heap.length, a.size - 1⟩)
    else
      (heap.set ref (old.take index ++ moved ++ none :: old.drop a.size), ⟨some ref, a.size - 1⟩)

end Listeners

namespace Generic

variable {V : Type}

def listeners (g : Generic V) : Kind → Listeners
  | .invalidation => g.invalidation
  | .change => g.change

def setListeners (g : Generic V) (kind : Kind) (a : Listeners) : Generic V :=
  match kind with
  | .invalidation => { g with invalidation := a }
  | .change => { g with change := a }

end Generic

/-! ### Fires -/

/-- Where a loop of `fireValueChangedEvent` takes its listeners from: the array and the
size it saved, or the one listener of a `Single` helper. -/
inductive Source (L : Type)
  | nothing
  | array (ref size : Nat)
  | single (listener : Option L)
deriving DecidableEq, Repr

def Source.size {L : Type} : Source L → Nat
  | .nothing => 0
  | .array _ size => size
  | .single _ => 1

/-- What the loop finds at an index. -/
def Source.read {L : Type} (heap : Heap L) (i : Nat) : Source L → Option L
  | .nothing => none
  | .array ref _ => ((heap.getD ref [])[i]?).join
  | .single listener => listener

/-- A running `fireValueChangedEvent`.  `next` is the index the loop of `phase` comes to
next.  `registered` are the listeners there were when it started, `invoked` those that
have been called, `none` for a slot that was cleared; `compared` are the two values an
`ExpressionHelper` has compared before it calls the change listeners. -/
structure Frame (L V : Type) where
  generic : Option Nat
  invalidations : Source L
  changes : Source L
  phase : Kind := .invalidation
  next : Nat := 0
  registered : List L × List L
  invoked : List (Option L) := []
  compared : Option (Option V × Option V) := none
deriving DecidableEq, Repr

/-- A property with its helper, and everything that is going on. -/
structure Property (L V : Type) where
  heap : Heap L := []
  generics : List (Generic V) := []
  helper : Helper L V := .null
  value : Option V := none
  /-- The running fires, the innermost first. -/
  stack : List (Frame L V) := []
  /-- The fires that have come to their end. -/
  finished : List (Frame L V) := []

namespace Property

variable {L V : Type}

/-- The registered listeners of the two kinds, in order. -/
def registered (s : Property L V) : List L × List L :=
  match s.helper with
  | .null => ([], [])
  | .singleInvalidation listener => (listener.toList, [])
  | .singleChange listener _ => ([], listener.toList)
  | .generic ref =>
    match s.generics[ref]? with
    | some g => (g.invalidation.content s.heap, g.change.content s.heap)
    | none => ([], [])

/-! #### Listeners come and go -/

/-- `new SingleInvalidation(listener)` or `new SingleChange(listener)`. -/
def single (s : Property L V) (kind : Kind) (listener : Option L) : Helper L V :=
  match kind with
  | .invalidation => .singleInvalidation listener
  | .change => .singleChange listener s.value

/-- `new Generic(listener0, listener1)` for listeners of one kind. -/
def genericOfSame (s : Property L V) (kind : Kind) (listener0 : Option L) (listener1 : L) :
    Property L V :=
  let a : Listeners := ⟨some s.heap.length, 2⟩
  let currentValue := match kind with
    | .invalidation => none
    | .change => s.value
  { s with
    heap := s.heap ++ [[listener0, some listener1]]
    generics := s.generics ++ [({ currentValue } : Generic V).setListeners kind a]
    helper := .generic s.generics.length }

/-- `new Generic(invalidationListener, changeListener)`. -/
def genericOfBoth (s : Property L V) (invalidationListener changeListener : Option L) :
    Property L V :=
  { s with
    heap := s.heap ++ [[invalidationListener], [changeListener]]
    generics := s.generics ++ [{ invalidation := ⟨some s.heap.length, 1⟩
                                 change := ⟨some (s.heap.length + 1), 1⟩
                                 currentValue := s.value }]
    helper := .generic s.generics.length }

/-- `addListener`; `collected` are the weak listeners whose target is gone by now. -/
def addListener (kind : Kind) (listener : L) (collected : L → Bool) (s : Property L V) :
    Property L V :=
  match s.helper with
  | .null => { s with helper := s.single kind (some listener) }
  | .singleInvalidation listener' =>
    match kind with
    | .invalidation => s.genericOfSame .invalidation listener' listener
    | .change => s.genericOfBoth listener' (some listener)
  | .singleChange listener' _ =>
    match kind with
    | .invalidation => s.genericOfBoth (some listener) listener'
    | .change => s.genericOfSame .change listener' listener
  | .generic ref =>
    match s.generics[ref]? with
    | some g =>
      let (heap, a) := (g.listeners kind).add collected g.locked listener s.heap
      let g := g.setListeners kind a
      let g := if kind = .change ∧ a.size = 1 then { g with currentValue := s.value } else g
      { s with heap, generics := s.generics.set ref g }
    | none => s

variable [DecidableEq L] [DecidableEq V]

def removeListener (kind : Kind) (listener : L) (s : Property L V) : Property L V :=
  match s.helper with
  | .null => s
  | .singleInvalidation listener' =>
    if kind = .invalidation ∧ listener' = some listener then { s with helper := .null } else s
  | .singleChange listener' _ =>
    if kind = .change ∧ listener' = some listener then { s with helper := .null } else s
  | .generic ref =>
    match s.generics[ref]? with
    | some g =>
      let a := g.listeners kind
      let others := g.listeners kind.other
      match a.indexOf listener s.heap with
      | some index =>
        if a.size = 1 then
          if others.size = 1 then
            { s with helper := s.single kind.other ((others.slots s.heap)[0]?).join }
          else { s with generics := s.generics.set ref (g.setListeners kind {}) }
        else if a.size = 2 ∧ others.size = 0 then
          { s with helper := s.single kind ((a.slots s.heap)[1 - index]?).join }
        else
          let (heap, a) := a.removeAt g.locked index s.heap
          { s with heap, generics := s.generics.set ref (g.setListeners kind a) }
      | none => s
    | none => s

/-! #### Firing -/

/-- The `finally` of a fire. -/
def finish (s : Property L V) (f : Frame L V) : Property L V :=
  { s with
    generics := match f.generic with
      | some ref =>
        match s.generics[ref]? with
        | some g => s.generics.set ref { g with locked := false }
        | none => s.generics
      | none => s.generics
    finished := s.finished ++ [f] }

/-- A listener is called. -/
def invoke (s : Property L V) (f : Frame L V) : Property L V :=
  let source := match f.phase with
    | .invalidation => f.invalidations
    | .change => f.changes
  { s with
    stack := { f with next := f.next + 1, invoked := f.invoked ++ [source.read s.heap f.next] } :: s.stack }

/-- The change listeners are called one after the other, then the fire is over. -/
def fireChanges (s : Property L V) (f : Frame L V) : Property L V :=
  if f.next < f.changes.size then s.invoke f else s.finish f

/-- The step from the invalidation listeners to the change listeners.  An
`ExpressionHelper` compares the values here. -/
def enterChanges (cls : HelperClass) (s : Property L V) (f : Frame L V) : Property L V :=
  match cls with
  | .listListenerHelper =>
    s.fireChanges { f with phase := .change, next := 0 }
  | .expressionHelper =>
    if 0 < f.changes.size then
      match f.generic with
      | some ref =>
        match s.generics[ref]? with
        | some g =>
          let s' := { s with generics := s.generics.set ref { g with currentValue := s.value } }
          let f := { f with compared := some (g.currentValue, s.value) }
          if s.value ≠ g.currentValue then s'.fireChanges { f with phase := .change, next := 0 }
          else s'.finish f
        | none => s.finish f
      | none =>
        match s.helper with
        | .singleChange listener oldValue =>
          let s' := { s with helper := .singleChange listener s.value }
          let f := { f with compared := some (oldValue, s.value) }
          if s.value ≠ oldValue then s'.fireChanges { f with phase := .change, next := 0 }
          else s'.finish f
        | _ => s.finish f
    else s.finish f

/-- The fire goes on to the next listener. -/
def resume (cls : HelperClass) (s : Property L V) (f : Frame L V) : Property L V :=
  match f.phase with
  | .invalidation =>
    if f.next < f.invalidations.size then s.invoke f else enterChanges cls s f
  | .change => s.fireChanges f

/-- What a loop over these listeners saves. -/
def save (a : Listeners) : Source L :=
  match a.array with
  | some ref => .array ref a.size
  | none => .nothing

/-- `fireValueChangedEvent` begins. -/
def fireValueChangedEvent (cls : HelperClass) (s : Property L V) : Property L V :=
  match s.helper with
  | .null => s
  | .singleInvalidation listener =>
    resume cls s { generic := none, invalidations := .single listener, changes := .nothing,
                   registered := s.registered }
  | .singleChange listener _ =>
    resume cls s { generic := none, invalidations := .nothing, changes := .single listener,
                   registered := s.registered }
  | .generic ref =>
    match s.generics[ref]? with
    | some g =>
      resume cls { s with generics := s.generics.set ref { g with locked := true } }
        { generic := some ref, invalidations := save g.invalidation,
          changes := save g.change, registered := s.registered }
    | none => s

/-- What can happen: somebody, perhaps the listener that runs, calls the property, or
the listener that runs is done. -/
inductive Action (L V : Type)
  | addListener (kind : Kind) (listener : L) (collected : L → Bool)
  | removeListener (kind : Kind) (listener : L)
  | setValue (value : Option V)
  | fireValueChangedEvent
  | listenerReturns

def step (cls : HelperClass) (s : Property L V) : Action L V → Property L V
  | .addListener kind listener collected => s.addListener kind listener collected
  | .removeListener kind listener => s.removeListener kind listener
  | .setValue value => { s with value }
  | .fireValueChangedEvent => fireValueChangedEvent cls s
  | .listenerReturns =>
    match s.stack with
    | f :: stack => resume cls { s with stack } f
    | [] => s

end Property

end JavaFX
