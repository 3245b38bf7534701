/-
`javafx.scene.control.TreeItem`: the links between the items of a tree, and the number of
rows each of them takes up when it is shown.

`I` are the items by identity; those that are made later are there from the start, as new
ones.  The children of an item are an observable list over an array list with one listener,
the item itself, so an edit is any call on that list.  A list of children holds no `null`.

What looking at an item may write is kept apart from what it is: its cached count, and
whether its `expanded` property has been read since it was last set.  A set property that
nobody has read does not report the next value it is set to.

An event goes to the item it is fired on and to everybody above it, and the handler an item
registers for itself in the constructor marks its count as dirty.  Other handlers, the
values and graphics of items and the comparator a `TreeTableView` leaves in its root are
not modelled.  Both the way up and the way down are recursive calls; `fuel` is the depth
they may have, and `endless` what comes of calls that have none.
-/
import JavaFX.Css.Ownership
import JavaFX.Lib.Outline

namespace JavaFX

open Program ObservableListWrapper

structure TreeItem (I : Type) where
  parent : Option I := none
  parentLinkCount : Int := 0
  children : ObservableListWrapper I Unit := { backingList := [], hasListeners := true }
  leaf : Bool := true
  expanded : Bool := false

/-- What looking at an item may write. -/
structure ExpandedCount where
  expandedValid : Bool := true
  expandedDescendentCountDirty : Bool := true
  expandedDescendentCount : Nat := 1
  previousExpandedDescendentCount : Nat := 1
deriving DecidableEq, Repr

structure TreeItems (I : Type) where
  item : I → TreeItem I
  count : I → ExpandedCount

/-- A call that never returns. -/
inductive NoReturn
  | endless
deriving DecidableEq, Repr

namespace TreeItems

variable {I : Type}

/-- A call on the items. -/
abbrev Call (I α : Type) := Program NoReturn (TreeItems I) α

/-- Items nobody has touched. -/
def new : TreeItems I where
  item := fun _ => {}
  count := fun _ => {}

/-- What the children list of an item holds. -/
def children (s : TreeItems I) (i : I) : List I := (s.item i).children.backingList

/-- The tree as it is drawn: an item shows its children if it has any and is expanded. -/
def outline (s : TreeItems I) : Outline I where
  parent i := (s.item i).parent
  children := s.children
  shown i := !(s.children i).isEmpty && (s.item i).expanded

variable [DecidableEq I]

def setItem (i : I) (f : TreeItem I → TreeItem I) (s : TreeItems I) : TreeItems I :=
  { s with item := Function.update s.item i (f (s.item i)) }

def setCount (i : I) (f : ExpandedCount → ExpandedCount) (s : TreeItems I) : TreeItems I :=
  { s with count := Function.update s.count i (f (s.count i)) }

/-! ### Properties -/

def isLeaf (i : I) : Call I Bool := read fun s => (s.item i).leaf

/-- Reading a property makes it valid. -/
def isExpanded (i : I) : Call I Bool := fun s =>
  (.ok (s.item i).expanded, s.setCount i fun c => { c with expandedValid := true })

/-- `!isLeaf() && isExpanded()`. -/
def isOpen (i : I) : Call I Bool := do
  if ← isLeaf i then return false
  else isExpanded i

/-! ### Events -/

/-- The handlers of an item and of everybody above it, the item's own last. -/
def buildEventDispatchChain : Nat → I → TreeItems I → Except NoReturn (List I)
  | 0, _, _ => .error .endless
  | fuel + 1, i, s =>
    match (s.item i).parent with
    | none => .ok [i]
    | some p => (buildEventDispatchChain fuel p s).map (· ++ [i])

/-- `itemListener`. -/
def itemListener (i : I) : Call I Unit :=
  modify (·.setCount i fun c => { c with expandedDescendentCountDirty := true })

/-- `fireEvent` of an event that changes the number of expanded items: it bubbles from
the item up. -/
def fireEvent (fuel : Nat) (i : I) : Call I Unit := do
  let chain ← lift (← read (buildEventDispatchChain fuel i))
  forEach itemListener chain.reverse

/-! ### Expanding -/

/-- `expanded.invalidated()`. -/
def expandedInvalidated (fuel : Nat) (i : I) : Call I Unit := do
  if ← isLeaf i then return ()
  else
    let _ ← isExpanded i
    fireEvent fuel i

/-- `setExpanded`; a property that has not been made yet is one that is false and valid. -/
def setExpanded (fuel : Nat) (i : I) (value : Bool) : Call I Unit := fun s =>
  if (s.item i).expanded = value then (.ok (), s)
  else if (s.count i).expandedValid then
    expandedInvalidated fuel i ((s.setItem i fun t => { t with expanded := value }).setCount i
        fun c => { c with expandedValid := false })
  else (.ok (), s.setItem i fun t => { t with expanded := value })

/-! ### Children -/

/-- One round of `updateChildrenParent`. -/
def updateChildParent (newParent : Option I) (s : TreeItems I) (i : I) : TreeItems I :=
  let currentParent := (s.item i).parent
  let s := if (s.item i).parentLinkCount = 0 then s.setItem i fun t => { t with parent := newParent }
    else s
  let parentMatch := currentParent.isSome && currentParent == newParent
  if parentMatch then
    if newParent.isNone then
      s.setItem i fun t => { t with parentLinkCount := t.parentLinkCount - 1 }
    else s.setItem i fun t => { t with parentLinkCount := t.parentLinkCount + 1 }
  else s

def updateChildrenParent (treeItems : List I) (newParent : Option I) (s : TreeItems I) :
    TreeItems I :=
  treeItems.foldl (updateChildParent newParent) s

/-- The items a change adds. -/
def added (c : Change I) : List I := c.changes.flatMap (·.getAddedSubList c.list)

/-- The items a change removes. -/
def removed (c : Change I) : List I := c.changes.flatMap (·.getRemoved)

def updateChildren (fuel : Nat) (i : I) (c : Change I) : Call I Unit := do
  modify fun s => s.setItem i fun t => { t with leaf := t.children.backingList.isEmpty }
  modify (updateChildrenParent (removed c) none)
  modify (updateChildrenParent (added c) (some i))
  fireEvent fuel i

def childrenListener (fuel : Nat) (i : I) (c : Change I) : Call I Unit := do
  modify (·.setCount i fun n => { n with expandedDescendentCountDirty := true })
  updateChildren fuel i c

/-- A call on the children of an item.  The list fires at the end of the call. -/
def edit (fuel : Nat) (i : I) (c : ListCall I) : Call I Unit := fun s =>
  let w := (c.run (s.item i).children).2
  forEach (childrenListener fuel i) (w.fired.drop (s.item i).children.fired.length)
    (s.setItem i fun t => { t with children := w })

/-! ### Counting -/

/-- `child.isExpanded() ? child.getExpandedDescendentCount(reset) : 1`. -/
def rowsOf (getCount : I → Call I Nat) (child : I) : Call I Nat := do
  if ← isExpanded child then getCount child else return 1

/-- One round of the loop over the children. -/
def addChild (getCount : I → Call I Nat) (i child : I) : Call I Unit := do
  let before ← read fun s => (s.count i).expandedDescendentCount
  let more ← rowsOf getCount child
  modify (·.setCount i fun c => { c with expandedDescendentCount := before + more })

def updateExpandedDescendentCount (getCount : I → Call I Nat) (i : I) : Call I Unit := do
  modify (·.setCount i fun c =>
    { c with
      previousExpandedDescendentCount := c.expandedDescendentCount
      expandedDescendentCount := 1 })
  if ← isOpen i then forEach (addChild getCount i) (← read (·.children i))
  else return ()

/-- Count again, and remember that the count is right. -/
def recount (getCount : I → Call I Nat) (i : I) : Call I Unit := do
  updateExpandedDescendentCount getCount i
  modify (·.setCount i fun c => { c with expandedDescendentCountDirty := false })

/-- `if (reset || expandedDescendentCountDirty)` with what it guards. -/
def refreshCount (reset : Bool) (getCount : I → Call I Nat) (i : I) : Call I Unit := fun s =>
  if reset || (s.count i).expandedDescendentCountDirty then recount getCount i s else (.ok (), s)

def getExpandedDescendentCount (reset : Bool) : Nat → I → Call I Nat
  | 0, _ => throw .endless
  | fuel + 1, i => do
    refreshCount reset (getExpandedDescendentCount reset fuel) i
    read fun s => (s.count i).expandedDescendentCount

/-! ### Calls -/

/-- A call on one of the items, or on its list of children. -/
inductive TreeCall (I : Type)
  | edit (i : I) (c : ListCall I)
  | setExpanded (i : I) (value : Bool)
  | isExpanded (i : I)
  | getExpandedDescendentCount (i : I) (reset : Bool)

/-- The call itself; what it returns is dropped. -/
def TreeCall.run (fuel : Nat) : TreeCall I → Call I Unit
  | .edit i c => TreeItems.edit fuel i c
  | .setExpanded i value => TreeItems.setExpanded fuel i value
  | .isExpanded i => do let _ ← TreeItems.isExpanded i
  | .getExpandedDescendentCount i reset => do
    let _ ← TreeItems.getExpandedDescendentCount reset fuel i

end TreeItems

end JavaFX
