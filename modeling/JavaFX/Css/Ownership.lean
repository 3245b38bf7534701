/-
`com.sun.javafx.collections.TrackableObservableList` and the lists made of it: the
selectors and the declarations of a `javafx.css.Rule`, and the rules of a
`javafx.css.Stylesheet`.

An element of such a list points back to the owner of the list.  The lists are
observable lists over an array list, and `onChanged` is the listener that is to keep the
pointers right; it does not touch the list.  The two constructors differ: only the one
that makes its own array list registers `onChanged`.

`E` are the elements by identity; what they say about equality with each other is an
argument of the calls that ask for it.  The urls that are resolved when a pointer is
set are not modelled.
-/
import JavaFX.Collections.ObservableListWrapper

namespace JavaFX

open ObservableListWrapper

variable {O E : Type}

/-- `wasRemoved()`. -/
def SubChange.wasRemoved (r : SubChange E) : Bool := !r.getRemoved.isEmpty

/-- `getAddedSubList()`, of a change of `list`. -/
def SubChange.getAddedSubList (list : List E) (r : SubChange E) : List E :=
  if r.wasAdded then (list.drop r.from.toNat).take (r.to - r.from).toNat else []

namespace TrackableObservableList

/-- `new TrackableObservableList(list)`: nobody listens. -/
def ofList (list : List E) : ObservableListWrapper E Unit := { backingList := list }

/-- `new TrackableObservableList()`: `onChanged` listens. -/
def new : ObservableListWrapper E Unit := { backingList := [], hasListeners := true }

end TrackableObservableList

/-! ### Pointers -/

variable [DecidableEq O] [DecidableEq E]

/-- Every element of `es` gets the owner `o`. -/
def assign (o : O) (es : List E) (owner : E → Option O) : E → Option O :=
  es.foldl (fun owner e => Function.update owner e (some o)) owner

/-- Every element of `es` that has the owner `o` has none any more. -/
def release (o : O) (es : List E) (owner : E → Option O) : E → Option O :=
  es.foldl (fun owner e => if owner e = some o then Function.update owner e none else owner) owner

/-- `onChanged` of `Stylesheet.rules`. -/
def Stylesheet.onChanged (stylesheet : O) (c : Change E) (owner : E → Option O) : E → Option O :=
  c.changes.foldl (fun owner r =>
    if r.wasAdded then assign stylesheet (r.getAddedSubList c.list) owner
    else if r.wasRemoved then release stylesheet r.getRemoved owner
    else owner) owner

/-- `onChanged` of a rule's list; `removed` is what is taken for the removed elements. -/
def Rule.onChanged (removed : Change E → SubChange E → List E) (rule : O) (c : Change E)
    (owner : E → Option O) : E → Option O :=
  c.changes.foldl (fun owner r =>
    let owner := if r.wasAdded then assign rule (r.getAddedSubList c.list) owner else owner
    if r.wasRemoved then release rule (removed c r) owner else owner) owner

/-- `declarationObservableList.onChanged`. -/
def Rule.declarationsOnChanged (rule : O) : Change E → (E → Option O) → E → Option O :=
  Rule.onChanged (fun _ r => r.getRemoved) rule

/-- `selectorObservableList.onChanged` takes the added elements for the removed ones. -/
def Rule.selectorsOnChanged (rule : O) : Change E → (E → Option O) → E → Option O :=
  Rule.onChanged (fun c r => r.getAddedSubList c.list) rule

/-! ### Lists and their owners -/

/-- The lists of all owners, and the pointers of the elements. -/
structure TrackedLists (O E : Type) where
  list : O → ObservableListWrapper E Unit
  owner : E → Option O

namespace TrackedLists

/-- What the list of an owner holds. -/
def elements (t : TrackedLists O E) (o : O) : List E := (t.list o).backingList

/-- A call on the list of `o`; `onChanged` hears of the changes it fires. -/
def call (onChanged : O → Change E → (E → Option O) → E → Option O) (o : O) (c : ListCall E)
    (t : TrackedLists O E) : TrackedLists O E where
  list := Function.update t.list o (c.run (t.list o)).2
  owner := ((c.run (t.list o)).2.fired.drop (t.list o).fired.length).foldl
    (fun owner change => onChanged o change owner) t.owner

end TrackedLists

/-- Stylesheets, rules, declarations and selectors. -/
structure StyleModel (S R D L : Type) where
  rules : TrackedLists S R
  declarations : TrackedLists R D
  selectors : TrackedLists R L

/-- A call on one of the lists. -/
inductive StyleEdit (S R D L : Type)
  | rules (stylesheet : S) (c : ListCall R)
  | declarations (rule : R) (c : ListCall D)
  | selectors (rule : R) (c : ListCall L)

variable {S R D L : Type} [DecidableEq S] [DecidableEq R] [DecidableEq D] [DecidableEq L]

namespace StyleModel

def step (m : StyleModel S R D L) : StyleEdit S R D L → StyleModel S R D L
  | .rules stylesheet c => { m with rules := m.rules.call Stylesheet.onChanged stylesheet c }
  | .declarations rule c =>
    { m with declarations := m.declarations.call Rule.declarationsOnChanged rule c }
  | .selectors rule c => { m with selectors := m.selectors.call Rule.selectorsOnChanged rule c }

end StyleModel

end JavaFX
