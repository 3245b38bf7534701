/-
`com.sun.javafx.css.SelectorPartitioning`.

Selectors are filed under the id, the type and the style classes of their rightmost
part.  A selector is an object; its ordinal is written when it is filed, and the
ordinals of all selectors are kept in one table here.  Assertions are off.

The order in which a `HashMap` hands out its values is not fixed.  It does not matter,
since what `match` has gathered is sorted at the end.
-/
import JavaFX.Css.Selector
import JavaFX.Lib.AssocList

namespace JavaFX

open AssocList

/-- The part that is matched against the node itself. -/
def Selector.rightmost : Selector → SimpleSelector
  | .simple selector => selector
  | .compound selector => selector.selectors.getLast (by
      intro h
      have := selector.shape
      simp [h] at this)

/-- A selector object. -/
structure SelectorObject where
  ref : Nat
  selector : Selector

inductive PartitionKey
  | name (key : String)
  | styleClasses (bits : List Long)
deriving DecidableEq

/-- A slot.  Of its partition only the key is ever asked for. -/
inductive Slot
  | mk (key : PartitionKey) (referents : List (PartitionKey × Slot)) (selectors : List SelectorObject)

namespace Slot

def key : Slot → PartitionKey
  | mk key _ _ => key

def referents : Slot → List (PartitionKey × Slot)
  | mk _ referents _ => referents

def selectors : Slot → List SelectorObject
  | mk _ _ selectors => selectors

/-- `new Slot(partition)`. -/
def new (key : PartitionKey) : Slot := mk key [] []

def addSelector (selector : SelectorObject) : Slot → Slot
  | mk key referents selectors => mk key referents (selectors ++ [selector])

end Slot

structure Partition where
  slots : List (PartitionKey × Slot) := []
  selectors : List SelectorObject := []

def Partition.addSelector (selector : SelectorObject) (p : Partition) : Partition :=
  { p with selectors := p.selectors ++ [selector] }

structure SelectorPartitioning where
  idMap : List (PartitionKey × Partition) := []
  typeMap : List (PartitionKey × Partition) := []
  styleClassMap : List (PartitionKey × Partition) := []
  ordinal : Nat := 0
  /-- The ordinals of the selector objects. -/
  ordinals : Nat → Nat := fun _ => 0

namespace SelectorPartitioning

/-- `getPartition(id, map)`. -/
def getPartition (id : PartitionKey) (map : List (PartitionKey × Partition)) :
    List (PartitionKey × Partition) :=
  upsert id {} (fun p => p) map

/-- The selector goes to the slot of its style classes, or to the slot itself. -/
def fileInSlot (styleClassKey : PartitionKey) (hasStyleClass : Bool) (selector : SelectorObject)
    (slot : Slot) : Slot :=
  if hasStyleClass then
    .mk slot.key (upsert styleClassKey (.new styleClassKey) (·.addSelector selector) slot.referents) slot.selectors
  else slot.addSelector selector

/-- The selector goes to the slot of its style classes, or to the partition itself. -/
def fileInPartition (styleClassKey : PartitionKey) (hasStyleClass : Bool)
    (selector : SelectorObject) (p : Partition) : Partition :=
  if hasStyleClass then
    { p with slots := upsert styleClassKey (.new styleClassKey) (·.addSelector selector) p.slots }
  else p.addSelector selector

/-- `partition(selector)`. -/
def partition (selector : SelectorObject) (st : SelectorPartitioning) : SelectorPartitioning :=
  let simpleSelector := selector.selector.rightmost
  let hasId := simpleSelector.id ≠ ""
  let idKey := PartitionKey.name simpleSelector.id
  let hasType := simpleSelector.name ≠ ""
  let typeKey := PartitionKey.name simpleSelector.name
  let selectorStyleClass := simpleSelector.styleClassSet.set
  let hasStyleClass := 0 < selectorStyleClass.size
  let styleClassKey := PartitionKey.styleClasses selectorStyleClass.bits
  let st := { st with
    ordinals := fun r => if r = selector.ref then st.ordinal else st.ordinals r
    ordinal := st.ordinal + 1 }
  if hasType then
    if hasId then
      let slots := ((get idKey st.idMap).getD {}).slots
      let referents := ((get typeKey slots).getD (.new typeKey)).referents
      { st with
        idMap := upsert idKey {} (fun p => { p with
          slots := upsert typeKey (.new typeKey) (fileInSlot styleClassKey hasStyleClass selector) p.slots }) st.idMap
        -- A new slot asks for the partition of its key, and leaves it in the map.
        typeMap := if (get typeKey slots).isNone then getPartition typeKey st.typeMap else st.typeMap
        styleClassMap := if hasStyleClass ∧ (get styleClassKey referents).isNone then
          getPartition styleClassKey st.styleClassMap else st.styleClassMap }
    else
      let slots := ((get typeKey st.typeMap).getD {}).slots
      { st with
        typeMap := upsert typeKey {} (fileInPartition styleClassKey hasStyleClass selector) st.typeMap
        styleClassMap := if hasStyleClass ∧ (get styleClassKey slots).isNone then
          getPartition styleClassKey st.styleClassMap else st.styleClassMap }
  -- `assert(false)`: a selector without a type is not filed.
  else st

/-- Everything that is filed, one selector after the other. -/
def partitionAll (selectors : List SelectorObject) : SelectorPartitioning :=
  selectors.foldl (fun st selector => st.partition selector) {}

/-- The key of a slot, as a set of style classes. -/
def keyContained (key : BitSet) : PartitionKey → Bool
  | .styleClasses bits => key.containsAll (some { bits })
  | .name _ => false

/-- The loop over the slots for style classes. -/
def gatherSlots (selectorStyleClass : Option BitSet) (slots : List (PartitionKey × Slot)) :
    List SelectorObject :=
  match selectorStyleClass with
  | some key =>
    if 0 < key.size then
      slots.flatMap fun e => if keyContained key e.2.key then e.2.selectors else []
    else []
  | none => []

/-- The keys of the `do`-`while` loops: the type, then the wildcard. -/
def typeKeys (type : String) : List String := if type = "*" then [type] else [type, "*"]

/-- What is gathered under the id. -/
def gatherById (id type : String) (selectorStyleClass : Option BitSet) (st : SelectorPartitioning) :
    List SelectorObject :=
  match get (.name id) st.idMap with
  | some partition =>
    partition.selectors ++ (typeKeys type).flatMap fun typePK =>
      match get (.name typePK) partition.slots with
      | some slot => slot.selectors ++ gatherSlots selectorStyleClass slot.referents
      | none => []
  | none => []

/-- What is gathered under the type alone. -/
def gatherByType (type : String) (selectorStyleClass : Option BitSet) (st : SelectorPartitioning) :
    List SelectorObject :=
  (typeKeys type).flatMap fun typePK =>
    match get (.name typePK) st.typeMap with
    | some partition => partition.selectors ++ gatherSlots selectorStyleClass partition.slots
    | none => []

/-- `match(selectorId, selectorType, selectorStyleClass)`.  The loop takes the bits of `c`
away one after the other: with a type, it looks under the id first, if there is one, and
then under the type. -/
def matchSelectors (selectorId selectorType : Option String) (selectorStyleClass : Option BitSet)
    (st : SelectorPartitioning) : List SelectorObject :=
  let selectors := match selectorType with
    | some type =>
      if type = "" then []
      else
        let byId := match selectorId with
          | some id => if id = "" then [] else gatherById id type selectorStyleClass st
          | none => []
        byId ++ gatherByType type selectorStyleClass st
    | none => []
  selectors.mergeSort fun o1 o2 => st.ordinals o1.ref ≤ st.ordinals o2.ref

end SelectorPartitioning

end JavaFX
