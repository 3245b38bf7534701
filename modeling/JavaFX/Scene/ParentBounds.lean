/-
The bounds of a `javafx.scene.Parent`: a box around its visible children.

The box is cached.  For every edge of it the parent remembers a child that reaches it, and every
child whose bounds have changed since is marked.  If the marked children reach every edge that one of
them may have given up, the box grows or shrinks to what they say, and the other children are not
asked; otherwise it is computed anew.  Once there have been more than ten children, the marked ones
are in a list of their own.

Coordinates are rational numbers, and bounds are those with the identity transform.
-/
import JavaFX.Scene.ChildrenList
import Mathlib.Algebra.Order.Ring.Rat

namespace JavaFX.ParentBounds

/-! ### Boxes -/

/-- The edges of a box, with the names the parent has for the nodes that reach them. -/
inductive Edge
  | left
  | top
  | near
  | right
  | bottom
  | far
deriving Repr, DecidableEq

namespace Edge

/-- `left`, `top` and `near` have the least coordinates, the other edges have the greatest. -/
def isLeast : Edge → Bool
  | .left | .top | .near => true
  | .right | .bottom | .far => false

/-- The first coordinate is at least as far outside as the second. -/
def reaches (e : Edge) (a b : ℚ) : Prop := if e.isLeast then a ≤ b else b ≤ a

/-- The first coordinate is farther outside. -/
def exceeds (e : Edge) (a b : ℚ) : Prop := if e.isLeast then a < b else b < a

instance (e : Edge) (a b : ℚ) : Decidable (e.reaches a b) := inferInstanceAs (Decidable (ite _ _ _))
instance (e : Edge) (a b : ℚ) : Decidable (e.exceeds a b) := inferInstanceAs (Decidable (ite _ _ _))

end Edge

/-- `BaseBounds`: `minX`, `minY`, `minZ`, `maxX`, `maxY` and `maxZ`, by the edges they belong to. -/
abbrev BaseBounds := Edge → ℚ

namespace BaseBounds

def isEmpty (b : BaseBounds) : Bool := b .right < b .left || b .bottom < b .top || b .far < b .near

/-- `makeEmpty()`. -/
def empty : BaseBounds := fun e => if e.isLeast then 0 else -1

end BaseBounds

/-! ### The parent -/

variable {N : Type} [DecidableEq N]

/-- `attached`, `visible`, `bounds` and `boundsChanged` belong to the nodes.  A node is `attached` if
this is its parent; `boundsChanged` is the mark its parent gives it. -/
structure Parent (N : Type) [DecidableEq N] where
  list : Children N := {}
  attached : N → Bool := fun _ => false
  visible : N → Bool
  bounds : N → BaseBounds
  boundsChanged : N → Bool := fun _ => false
  cachedBounds : BaseBounds := BaseBounds.empty
  cachedBoundsInvalid : Bool := false
  dirtyChildrenCount : Int := 0
  dirtyChildren : Option (List N) := none
  edge : Edge → Option N := fun _ => none

namespace Parent

/-! ### Marks -/

def setChildDirty (node : N) (dirty : Bool) (s : Parent N) : Parent N :=
  if s.boundsChanged node = dirty then s
  else
    let s := { s with boundsChanged := Function.update s.boundsChanged node dirty }
    if dirty then
      { s with
        dirtyChildren := s.dirtyChildren.map (· ++ [node])
        dirtyChildrenCount := s.dirtyChildrenCount + 1 }
    else
      { s with
        dirtyChildren := s.dirtyChildren.map fun l => l.erase node
        dirtyChildrenCount := s.dirtyChildrenCount - 1 }

def childIncluded (node : N) (s : Parent N) : Parent N :=
  setChildDirty node true { s with cachedBoundsInvalid := true }

/-- The six comparisons: the node is forgotten, and if there was one the box is invalid. -/
def childExcluded (node : N) (s : Parent N) : Parent N :=
  let isEdge := [Edge.left, .top, .near, .right, .bottom, .far].any fun e => s.edge e = some node
  setChildDirty node false { s with
      edge := fun e => if s.edge e = some node then none else s.edge e
      cachedBoundsInvalid := s.cachedBoundsInvalid || isEdge }

def childBoundsChanged (node : N) (s : Parent N) : Parent N :=
  setChildDirty node true { s with cachedBoundsInvalid := true }

def childVisibilityChanged (node : N) (s : Parent N) : Parent N :=
  if s.visible node then s.childIncluded node else s.childExcluded node

/-! ### The box -/

/-- A visible node with bounds that are not empty. -/
def counts (s : Parent N) (node : N) : Bool := s.visible node && !(s.bounds node).isEmpty

/-- A node goes into the box that is computed anew. -/
def extend (s : Parent N) (box : BaseBounds × (Edge → Option N)) (node : N) : BaseBounds × (Edge → Option N) :=
  if s.counts node then
    (fun e => if e.exceeds (s.bounds node e) (box.1 e) then s.bounds node e else box.1 e,
      fun e => if e.exceeds (s.bounds node e) (box.1 e) then some node else box.2 e)
  else box

/-- `createCachedBounds`.  Every node of the list loses its mark. -/
def createCachedBounds (fromNodes : List N) (s : Parent N) : Parent N :=
  let s := { s with boundsChanged := fun n => if n ∈ fromNodes then false else s.boundsChanged n }
  match fromNodes.dropWhile fun n => !s.counts n with
  | [] => { s with edge := fun _ => none, cachedBounds := BaseBounds.empty }
  | node :: nodes =>
    let box := nodes.foldl s.extend (s.bounds node, fun _ => some node)
    { s with cachedBounds := box.1, edge := box.2 }

/-- What the loop of `updateCachedBounds` works on. -/
structure Update (N : Type) where
  boundsChanged : N → Bool
  box : BaseBounds
  edge : Edge → Option N
  invalidEdges : Edge → Bool

/-- A marked node that reaches an edge becomes the node of that edge. -/
def reach (s : Parent N) (u : Update N) (node : N) : Update N :=
  let u := { u with boundsChanged := Function.update u.boundsChanged node false }
  if (s.bounds node).isEmpty then u
  else
    { u with
      box := fun e => if e.reaches (s.bounds node e) (u.box e) then s.bounds node e else u.box e
      edge := fun e => if e.reaches (s.bounds node e) (u.box e) then some node else u.edge e
      invalidEdges := fun e => if e.reaches (s.bounds node e) (u.box e) then false else u.invalidEdges e }

/-- `for (i = dirtyNodes.size() - 1; remainingDirtyNodes > 0; --i)`; the nodes come from the last one. -/
def updateLoop (s : Parent N) : List N → Int → Update N → Except JavaException (Update N)
  | nodes, remainingDirtyNodes, u =>
    if remainingDirtyNodes ≤ 0 then .ok u
    else
      match nodes with
      | [] => .error .indexOutOfBounds
      | node :: nodes =>
        if u.boundsChanged node then s.updateLoop nodes (remainingDirtyNodes - 1) (s.reach u node)
        else s.updateLoop nodes remainingDirtyNodes u

/-- `updateCachedBounds`: whether the box is known again. -/
def updateCachedBounds (dirtyNodes : List N) (remainingDirtyNodes : Int) (s : Parent N) :
    Except JavaException (Bool × Parent N) :=
  if s.cachedBounds.isEmpty then .ok (true, s.createCachedBounds dirtyNodes)
  else
    (s.updateLoop dirtyNodes.reverse remainingDirtyNodes {
        boundsChanged := s.boundsChanged
        box := s.cachedBounds
        edge := s.edge
        invalidEdges := fun e => match s.edge e with
          | none => true
          | some node => s.boundsChanged node }).map fun u =>
      let s := { s with boundsChanged := u.boundsChanged, edge := u.edge }
      if [Edge.left, .top, .near, .right, .bottom, .far].any u.invalidEdges then (false, s)
      else (true, { s with cachedBounds := u.box })

def recomputeBounds (s : Parent N) : Except JavaException (Parent N) :=
  match s.list.children with
  | [] => .ok { s with cachedBounds := BaseBounds.empty }
  | [node] =>
    let s := { s with boundsChanged := Function.update s.boundsChanged node false }
    if s.visible node then .ok { s with cachedBounds := s.bounds node, edge := fun _ => some node }
    else .ok { s with cachedBounds := BaseBounds.empty }
  | children =>
    if s.dirtyChildrenCount = 0 then .ok (s.createCachedBounds children)
    else
      (s.updateCachedBounds (s.dirtyChildren.getD children) s.dirtyChildrenCount).map fun (known, s) =>
        if known then s else s.createCachedBounds children

/-- `doComputeGeomBounds` with the identity transform. -/
def doComputeGeomBounds (s : Parent N) : Except JavaException (BaseBounds × Parent N) :=
  if s.list.children.isEmpty then .ok (BaseBounds.empty, s)
  else if s.cachedBoundsInvalid then
    s.recomputeBounds.map fun s =>
      (s.cachedBounds, { s with
        dirtyChildren := s.dirtyChildren.map fun _ => []
        cachedBoundsInvalid := false
        dirtyChildrenCount := 0 })
  else .ok (s.cachedBounds, s)

/-! ### Changes of the children -/

/-- A child is going to be removed. -/
def removeChild (s : Parent N) (old : N) : Parent N :=
  let s : Parent N := { s with dirtyChildren := s.dirtyChildren.map fun l => l.erase old }
  let s := if s.visible old then s.childExcluded old else s
  { s with attached := Function.update s.attached old false }

/-- A child has been added. -/
def addChild (s : Parent N) (node : N) : Parent N :=
  let s := { s with attached := Function.update s.attached node true }
  if s.visible node then s.childIncluded node else s

def DIRTY_CHILDREN_THRESHOLD : Nat := 10

/-- The list of marked children is made when there are too many children. -/
def createDirtyChildren (s : Parent N) : Parent N :=
  if s.dirtyChildren = none ∧ DIRTY_CHILDREN_THRESHOLD < s.list.children.length then
    let dirty := if 0 < s.dirtyChildrenCount then s.list.children.filter (fun ch => s.visible ch && s.boundsChanged ch) else []
    { s with dirtyChildren := some dirty }
  else s

/-- The listener on the list of children. -/
def onChanged (s : Parent N) (c : Change N) : Parent N :=
  if s.list.childSetModified then
    (c.changes.foldl (fun s r => ((s.list.children.drop r.from.toNat).take (r.to - r.from).toNat).foldl addChild s)
      s).createDirtyChildren
  else s

/-- A call on the list of children. -/
def call (check : N → Except JavaException Unit) (c : ChildrenCall N) (s : Parent N) : Parent N :=
  match s.list.call check c with
  | (.error _, list) => { s with list }
  | (.ok (), list) =>
    let removed := match c.proposal s.list.children with
      | some p => if list.childSetModified then p.removed s.list.children else []
      | none => []
    (c.fired s.list.children).foldl onChanged { removed.foldl removeChild s with list }

/-! ### What the nodes do -/

/-- A node is shown or hidden; its parent is told. -/
def setVisible (node : N) (value : Bool) (s : Parent N) : Parent N :=
  if s.visible node = value then s
  else
    let s := { s with visible := Function.update s.visible node value }
    if s.attached node then s.childVisibilityChanged node else s

/-- The bounds of a node change.  An invisible node does not tell its parent. -/
def setBounds (node : N) (value : BaseBounds) (s : Parent N) : Parent N :=
  let s := { s with bounds := Function.update s.bounds node value }
  if s.attached node && s.visible node then s.childBoundsChanged node else s

end Parent

end JavaFX.ParentBounds
