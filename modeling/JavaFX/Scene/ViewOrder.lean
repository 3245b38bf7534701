/-
The order in which a `javafx.scene.Parent` draws and picks its children.

A child with a greater `viewOrder` is behind one with a smaller.  `viewOrderChildren` caches the
sorted list; it is empty when every view order is zero, and when it has yet to be computed, which
the dirty bit `PARENT_CHILDREN_VIEW_ORDER` tells.  The peer of the parent has its own two lists.  Its
children are brought up to date from `startIdx` on, the first index that has changed.

The list of children is described in `ChildrenList`.  Whatever it does it tells its listener as an
observable list does; `onChanged` is that listener.
-/
import JavaFX.Scene.ChildrenList

namespace JavaFX.ViewOrder

variable {N G V : Type}

/-! ### The peer -/

/-- The peer of a parent, `com.sun.javafx.sg.prism.NGGroup`. -/
structure NGGroup (G : Type) where
  children : List G := []
  viewOrderChildren : List G := []
deriving Repr, DecidableEq

namespace NGGroup

/-- `children.subList(fromIndex, children.size()).clear()`. -/
def clearFrom (fromIndex : Int) (g : NGGroup G) : Except JavaException (NGGroup G) :=
  if fromIndex < g.children.length then
    if 0 ≤ fromIndex then .ok { g with children := g.children.take fromIndex.toNat } else .error .indexOutOfBounds
  else .ok g

def add (index : Int) (node : G) (g : NGGroup G) : Except JavaException (NGGroup G) :=
  if index < -1 ∨ g.children.length < index then .error .indexOutOfBounds
  else if index = -1 then .ok { g with children := g.children ++ [node] }
  else .ok { g with children := g.children.take index.toNat ++ node :: g.children.drop index.toNat }

end NGGroup

/-! ### The parent -/

variable [DecidableEq N] [LinearOrder V] [Zero V]

/-- `childrenDirty` and `viewOrderDirty` are two of the dirty bits, all of which are set on a new node. -/
structure Parent (N G V : Type) [DecidableEq N] where
  list : Children N := {}
  viewOrder : N → V
  viewOrderChildren : List N := []
  startIdx : Int := 0
  childrenDirty : Bool := true
  viewOrderDirty : Bool := true
  peer : NGGroup G := {}

namespace Parent

def markViewOrderChildrenDirty (s : Parent N G V) : Parent N G V :=
  { s with viewOrderChildren := [], viewOrderDirty := true }

/-- The comparator: in descending order. -/
def compare (viewOrder : N → V) (a b : N) : Int :=
  if viewOrder a < viewOrder b then 1 else if viewOrder a = viewOrder b then 0 else -1

/-- `Collections.sort`, which is stable. -/
def sort (viewOrder : N → V) (l : List N) : List N := l.mergeSort fun a b => compare viewOrder a b ≤ 0

/-- The list `computeViewOrderChildren` comes to. -/
def viewOrderOf (viewOrder : N → V) (children : List N) : List N :=
  if children.any (fun child => viewOrder child ≠ 0) then sort viewOrder children else []

def computeViewOrderChildren (s : Parent N G V) : Parent N G V :=
  { s with viewOrderChildren := viewOrderOf s.viewOrder s.list.children }

/-- `getOrderedChildren`, and the parent it leaves. -/
def getOrderedChildren (s : Parent N G V) : List N × Parent N G V :=
  let s := if s.viewOrderDirty then s.computeViewOrderChildren else s
  (if s.viewOrderChildren.isEmpty then s.list.children else s.viewOrderChildren, s)

/-! ### Changes -/

/-- What the children now at the positions of a record say about the view order. -/
def viewOrderChanges (s : Parent N G V) (r : SubChange N) : Bool :=
  ((0 < r.getRemovedSize || 0 < r.to - r.from) && !s.viewOrderChildren.isEmpty) ||
    ((s.list.children.drop r.from.toNat).take (r.to - r.from).toNat).any fun node => s.viewOrder node ≠ 0

/-- The index from which the peer has to be updated after a change. -/
def startIdxAfter (c : Change N) (startIdx : Int) : Int :=
  match c.changes.head? with
  | some r => if r.from < startIdx then r.from else startIdx
  | none => startIdx

/-- The listener on the list of children. -/
def onChanged (c : Change N) (s : Parent N G V) : Parent N G V :=
  let viewOrderChildrenDirty := s.list.childSetModified && c.changes.any s.viewOrderChanges
  let s := { s with startIdx := startIdxAfter c s.startIdx, childrenDirty := true }
  if viewOrderChildrenDirty then s.markViewOrderChildrenDirty else s

/-- A call on the list of children; `change` is what the list tells. -/
def call (check : N → Except JavaException Unit) (c : ChildrenCall N) (change : Option (Change N))
    (s : Parent N G V) :
    Parent N G V :=
  match s.list.call check c with
  | (.error _, list) => { s with list }
  | (.ok (), list) =>
    match change with
    | some change => onChanged change { s with list }
    | none => { s with list }

def setTrigger (childrenTriggerPermutation : Bool) (s : Parent N G V) : Parent N G V :=
  { s with list := { s.list with childrenTriggerPermutation } }

/-- The node leaves its place and comes back by the call `c`. -/
def replace (check : N → Except JavaException Unit) (node : N) (c : ChildrenCall N)
    (removal addition : Option (Change N))
    (s : Parent N G V) : Parent N G V :=
  (((s.setTrigger true).call check (.remove node) removal).call check c addition).setTrigger false

def toFront (check : N → Except JavaException Unit) (node : N) (removal addition : Option (Change N))
    (s : Parent N G V) : Parent N G V :=
  if s.list.children.getLast? ≠ some node then s.replace check node (.add node) removal addition else s

def toBack (check : N → Except JavaException Unit) (node : N) (removal addition : Option (Change N))
    (s : Parent N G V) : Parent N G V :=
  if s.list.children.head? ≠ some node then s.replace check node (.addAt 0 node) removal addition else s

/-- A view order changes.  A child tells its parent. -/
def setViewOrder (node : N) (value : V) (s : Parent N G V) : Parent N G V :=
  let s := { s with viewOrder := Function.update s.viewOrder node value }
  if node ∈ s.list.children then s.markViewOrderChildrenDirty else s

/-! ### The update of the peer -/

variable (getPeer : N → G)

/-- The peers of the children from `idx` on are added. -/
def addPeers : Int → List N → NGGroup G → Except JavaException (NGGroup G)
  | _, [], g => .ok g
  | idx, child :: children, g => (g.add idx (getPeer child)).bind (addPeers (idx + 1) children)

/-- The part of `doUpdatePeer` for the children. -/
def updateChildren (s : Parent N G V) : Except JavaException (Parent N G V) :=
  if s.childrenDirty then
    (s.peer.clearFrom s.startIdx).bind fun peer =>
      (addPeers getPeer s.startIdx (s.list.children.drop s.startIdx.toNat) peer).map fun peer =>
        { s with peer, startIdx := s.list.children.length }
  else .ok s

/-- The part of `doUpdatePeer` for the view order. -/
def updateViewOrder (s : Parent N G V) : Parent N G V :=
  if s.viewOrderDirty then
    let s := s.computeViewOrderChildren
    { s with peer := { s.peer with viewOrderChildren := s.viewOrderChildren.map getPeer } }
  else s

/-- `doUpdatePeer`, after which the dirty bits are cleared. -/
def doUpdatePeer (s : Parent N G V) : Except JavaException (Parent N G V) :=
  (s.updateChildren getPeer).map fun s =>
    { s.updateViewOrder getPeer with childrenDirty := false, viewOrderDirty := false }

end Parent

end JavaFX.ViewOrder
