/-
`equals` and `hashCode` of `com.sun.javafx.css.ParsedValueImpl`.

The parsed values are numbered in the order in which they were made: the `value` of one is
final and can only refer to older ones.  What changes is the field `hash` of each, where
`hashCode` keeps its result; `Integer.MIN_VALUE` stands for no result yet.

Objects of other classes, and the case of letters, come from elsewhere: their `equals` and
`hashCode` are parameters.  An array has the hash code of its identity.  The functions are
given fuel for their nested calls, and as many rounds as there are older values are enough.
-/
import JavaFX.Lib.Descent
import JavaFX.Lib.Program
import JavaFX.Runtime

namespace JavaFX

/-- What the methods here call of other classes. -/
structure Objects (V : Type) where
  equals : V → V → Bool
  hashCode : V → BitVec 32
  identityHashCode : Nat → BitVec 32
  /-- The characters of a string, each one taken to upper case and then to lower case. -/
  foldCase : List CodeUnit → List CodeUnit

namespace ParsedValueImpl

/-- The field `value`; an array has an address. -/
inductive Value (V : Type)
  | null
  | string (s : List CodeUnit)
  | object (v : V)
  | parsed (i : Nat)
  | array (address : Nat) (values : List (Option Nat))
  | layers (address : Nat) (values : List (Option (List (Option Nat))))
deriving DecidableEq

variable {V : Type}

/-- The parsed values that a value refers to. -/
def Value.refs : Value V → List Nat
  | .parsed i => [i]
  | .array _ values => values.filterMap id
  | .layers _ values => (values.filterMap id).flatMap (·.filterMap id)
  | _ => []

/-- All parsed values. -/
structure Heap (V : Type) where
  value : Nat → Value V
  older : ∀ i, ∀ q ∈ (value i).refs, q < i

/-- The fields `hash`. -/
abbrev Fields : Type := Nat → BitVec 32

/-- `Integer.MIN_VALUE`. -/
def minValue : BitVec 32 := BitVec.intMin 32

/-- Nobody has called `hashCode` yet. -/
def fresh : Fields := fun _ => minValue

section
variable (objects : Objects V) (heap : Heap V)

/-! ### equals -/

/-- `s.equalsIgnoreCase(t)`. -/
def equalsIgnoreCase (s t : List CodeUnit) : Bool :=
  s.length = t.length ∧ objects.foldCase s = objects.foldCase t

/-- `thisValue != null ? thisValue.equals(otherValue) : otherValue == null`. -/
def entryEquals (equals : Nat → Nat → Bool) : Option Nat → Option Nat → Bool
  | some p, some q => equals p q
  | none, none => true
  | _, _ => false

/-- Two arrays of values. -/
def rowEquals (equals : Nat → Nat → Bool) (thisValues otherValues : List (Option Nat)) : Bool :=
  thisValues.length = otherValues.length ∧ (thisValues.zip otherValues).all fun e => entryEquals equals e.1 e.2

/-- Two layers, each of which may be `null`. -/
def layerEquals (equals : Nat → Nat → Bool) : Option (List (Option Nat)) → Option (List (Option Nat)) → Bool
  | some r, some s => rowEquals equals r s
  | none, none => true
  | _, _ => false

/-- Two arrays of layers. -/
def layersEqual (equals : Nat → Nat → Bool) (thisValues otherValues : List (Option (List (Option Nat)))) : Bool :=
  thisValues.length = otherValues.length ∧ (thisValues.zip otherValues).all fun e => layerEquals equals e.1 e.2

/-- What `equals` makes of the two fields `value`. -/
def valueEquals (equals : Nat → Nat → Bool) : Value V → Value V → Bool
  | .layers _ thisValues, .layers _ otherValues => layersEqual equals thisValues otherValues
  | .array _ thisValues, .array _ otherValues => rowEquals equals thisValues otherValues
  | .string s, .string t => equalsIgnoreCase objects s t
  | .object v, .object w => objects.equals v w
  | .parsed p, .parsed q => equals p q
  | .null, .null => true
  | _, _ => false

def equalsIn (hash : Fields) : Nat → Nat → Nat → Bool
  | 0, _, _ => false
  | fuel + 1, i, j =>
    if i = j then true
    else if hash i ≠ hash j then false
    else valueEquals objects (equalsIn hash fuel) (heap.value i) (heap.value j)

/-- `this.equals(obj)`, for two parsed values. -/
def equals (hash : Fields) : Nat → Nat → Bool := Descent.descend (equalsIn objects heap hash)

/-! ### hashCode -/

/-- A call that may call `hashCode` of other parsed values. -/
abbrev HashCall (α : Type) : Type := Program JavaException Fields α

/-- `String.hashCode`. -/
def stringHashCode (s : List CodeUnit) : BitVec 32 :=
  s.foldl (fun (hash : BitVec 32) c => 31 * hash + BitVec.ofNat 32 c.toNat) 0

/-- `value != null ? value.hashCode() : 0`. -/
def valueHashCode (hashCode : Nat → HashCall (BitVec 32)) : Value V → HashCall (BitVec 32)
  | .null => pure 0
  | .string s => pure (stringHashCode s)
  | .object v => pure (objects.hashCode v)
  | .parsed p => hashCode p
  | .array address _ | .layers address _ => pure (objects.identityHashCode address)

/-- The value of an element of an array, `null` if there is no element. -/
def elementValue : Option Nat → Value V
  | none => .null
  | some p => heap.value p

/-- The loops of `hashCode`: the state is the field `hash` of this value, which nobody else
reads in the meantime, and those of the others. -/
abbrev HashLoop : Type := Program JavaException (BitVec 32 × Fields) Unit

/-- `hash = 37 * hash + (value != null ? value.hashCode() : 0)`. -/
def mix (hashCode : Nat → HashCall (BitVec 32)) (value : Value V) : HashLoop := fun s =>
  match valueHashCode objects hashCode value s.2 with
  | (.ok code, fields) => (.ok (), (37 * s.1 + code, fields))
  | (.error e, fields) => (.error e, (s.1, fields))

/-- An element of an array of values: what has no value is left out. -/
def mixElement (hashCode : Nat → HashCall (BitVec 32)) (element : Option Nat) : HashLoop :=
  match elementValue heap element with
  | .null => pure ()
  | value => mix objects hashCode value

/-- A layer: its length is asked for without asking whether it is there. -/
def mixLayer (hashCode : Nat → HashCall (BitVec 32)) : Option (List (Option Nat)) → HashLoop
  | none => Program.throw .nullPointer
  | some values => Program.forEach (fun element => mix objects hashCode (elementValue heap element)) values

def hashLoops (hashCode : Nat → HashCall (BitVec 32)) : Value V → HashLoop
  | .layers _ values => Program.forEach (mixLayer objects heap hashCode) values
  | .array _ values => Program.forEach (mixElement objects heap hashCode) values
  | value => mix objects hashCode value

/-- The body of `hashCode`.  The field has what the loops have come to, also when they fail. -/
def hashBody (hashCode : Nat → HashCall (BitVec 32)) (i : Nat) : HashCall (BitVec 32) := fun fields =>
  if fields i = minValue then
    match hashLoops objects heap hashCode (heap.value i) (17, fields) with
    | (.ok _, (hash, fields)) => (.ok hash, Function.update fields i hash)
    | (.error e, (hash, fields)) => (.error e, Function.update fields i hash)
  else (.ok (fields i), fields)

def hashCodeIn : Nat → Nat → HashCall (BitVec 32)
  | 0, _ => pure 0
  | fuel + 1, i => hashBody objects heap (hashCodeIn fuel) i

/-- `this.hashCode()`. -/
def hashCode : Nat → HashCall (BitVec 32) := Descent.descend (hashCodeIn objects heap)

/-- The fields after some calls of `hashCode`, whatever they return. -/
def after (calls : List Nat) (hash : Fields) : Fields :=
  calls.foldl (fun hash i => (hashCode objects heap i hash).2) hash

end

end ParsedValueImpl

end JavaFX
