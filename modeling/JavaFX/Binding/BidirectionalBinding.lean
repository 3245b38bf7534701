/-
`com.sun.javafx.binding.BidirectionalBinding`: two properties that are kept equal.

The sources have the binding once for each kind of property.  The copies differ in the type of the
value only, which is `T` here.  An update of one property invalidates it, and the binding sets the
other one.  If that fails, the property that was updated is set back to `oldValue`.

The setters belong to the properties.  One that throws may have stored the value before it did; then
the property is left invalid, and a property that is invalid does not tell its listeners of the next
update.
-/
import JavaFX.Runtime

namespace JavaFX.BidirectionalBinding

/-- A property, and whether its value was read since it changed. -/
structure Property (T : Type) where
  value : T
  valid : Bool
deriving DecidableEq

/-- What a setter does when it is called. -/
inductive Setter
  | accepts
  | refuses
  | storesAndThrows
deriving DecidableEq

section
variable {T : Type} [DecidableEq T]

namespace Property

/-- The value, and the property is valid. -/
def get (p : Property T) : Property T := { p with valid := true }

def store (newValue : T) (p : Property T) : Property T := if p.value = newValue then p else ⟨newValue, false⟩

/-- Whether the setter returns, and the property afterwards. -/
def set (newValue : T) (setter : Setter) (p : Property T) : Bool × Property T :=
  match setter with
  | .accepts => (true, p.store newValue)
  | .refuses => (false, p)
  | .storesAndThrows => (false, p.store newValue)

end Property

/-- Two properties and their binding.  `bound` says that the binding still listens. -/
structure Pair (T : Type) where
  property1 : Property T
  property2 : Property T
  oldValue : T
  bound : Bool
deriving DecidableEq

/-- `bind`: the binding is made first, and then `property1` takes the value of `property2`. -/
def bind (property1 property2 : Property T) : Pair T where
  property1 := ((property1.get).store property2.value).get
  property2 := property2.get
  oldValue := property1.value
  bound := true

/-- One of the two properties. -/
inductive Side
  | first
  | second
deriving DecidableEq

namespace Pair

def source (side : Side) (s : Pair T) : Property T :=
  match side with
  | .first => s.property1
  | .second => s.property2

def target (side : Side) (s : Pair T) : Property T :=
  match side with
  | .first => s.property2
  | .second => s.property1

def replace (side : Side) (source target : Property T) (s : Pair T) : Pair T :=
  match side with
  | .first => { s with property1 := source, property2 := target }
  | .second => { s with property1 := target, property2 := source }

/-- How an update ends: normally, with the old value, or with the binding removed. -/
inductive Outcome
  | done
  | restored
  | removed
deriving DecidableEq

/-- `invalidated`: `target` is what the setter of the other property does, `restore` what the
setter of the source does when the old value is put back. -/
def invalidated (side : Side) (target restore : Setter) (s : Pair T) : Outcome × Pair T :=
  let source := (s.source side).get
  match (s.target side).set source.value target with
  | (true, other) => (.done, { s.replace side source other.get with oldValue := source.value })
  | (false, other) =>
    match source.set s.oldValue restore with
    | (true, source) => (.restored, s.replace side source.get other)
    | (false, source) => (.removed, { s.replace side source other with bound := false })

end Pair

/-- A call of the setter of one property, which accepts the value. -/
structure Update (T : Type) where
  side : Side
  value : T
  target : Setter
  restore : Setter
deriving DecidableEq

/-- The source stores the value, and if it was valid it tells the binding. -/
def Pair.update (u : Update T) (s : Pair T) : Pair.Outcome × Pair T :=
  let source := s.source u.side
  let stored := s.replace u.side (source.store u.value) (s.target u.side)
  if source.value = u.value ∨ source.valid = false ∨ s.bound = false then (.done, stored)
  else stored.invalidated u.side u.target u.restore

end

end JavaFX.BidirectionalBinding
