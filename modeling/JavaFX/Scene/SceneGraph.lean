/-
The scene graph: nodes with their children and their parents.

When the children of a parent change, the links of the nodes that go are cleared before the list
changes, and the links of the nodes that come are set by the listener afterwards; the listener also
takes a node away from the parent it had.  If the children only change places, neither happens.

Any node may have children here.  A `null` among the children is `none`.  What `wouldCreateCycle`
answers for a node is part of a call.
-/
import JavaFX.Scene.ChildrenList

namespace JavaFX.SceneGraph

variable {N : Type} [DecidableEq N]

/-- All the nodes: the list of children of each, and the parent of each. -/
structure Graph (N : Type) where
  children : N → Children (Option N) := fun _ => {}
  getParent : N → Option N := fun _ => none

namespace Graph

/-- `getParent()` of what a list of children has. -/
def parentOf (s : Graph N) (n : Option N) : Option N := n.bind s.getParent

/-- What `onProposedChange` says to a single node. -/
def check (wouldCreateCycle : N → Bool) : Option N → Except JavaException Unit
  | none => .error .nullPointer
  | some n => if wouldCreateCycle n then .error .illegalArgument else .ok ()

/-- The nodes that `onProposedChange` lets go, if more than the order of the children changes. -/
def letGo (c : ChildrenCall (Option N)) (old list : Children (Option N)) : List (Option N) :=
  match c.proposal old.children with
  | some p => if list.childSetModified then p.removed old.children else []
  | none => []

/-- A call up to the point where the list tells its listener.  A node that is let go has no parent
then, if this was its parent. -/
def change (wouldCreateCycle : N → Bool) (p : N) (c : ChildrenCall (Option N)) (s : Graph N) :
    Except JavaException Unit × Graph N :=
  match (s.children p).call (check wouldCreateCycle) c with
  | (.error ex, list) => (.error ex, { s with children := Function.update s.children p list })
  | (.ok (), list) =>
    (.ok (), {
      children := Function.update s.children p list
      getParent := fun n =>
        if some n ∈ letGo c (s.children p) list ∧ s.getParent n = some p then none else s.getParent n })

/-- `n.getParent().children.remove(n)`, unless this is the parent.  The listener of the other parent
has nothing to do, since nothing is added. -/
def takeOver (p : N) (s : Graph N) (n : Option N) : Graph N :=
  match s.parentOf n with
  | some q => if q = p then s else (s.change (fun _ => false) q (.remove n)).2
  | none => s

/-- `node.setParent(this)`. -/
def setParent (p : N) (s : Graph N) : Option N → Graph N
  | some n => { s with getParent := Function.update s.getParent n (some p) }
  | none => s

/-- One record of a change: first the added nodes are taken over, then they get their new parent. -/
def adopt (p : N) (s : Graph N) (r : SubChange (Option N)) : Graph N :=
  let nodes := ((s.children p).children.drop r.from.toNat).take (r.to - r.from).toNat
  nodes.foldl (setParent p) (nodes.foldl (takeOver p) s)

/-- The listener on the children of `p`. -/
def onChanged (p : N) (s : Graph N) (c : Change (Option N)) : Graph N :=
  if (s.children p).childSetModified then c.changes.foldl (adopt p) s else s

/-- A call on the list of children of `p`. -/
def call (wouldCreateCycle : N → Bool) (p : N) (c : ChildrenCall (Option N)) (s : Graph N) :
    Except JavaException Unit × Graph N :=
  match s.change wouldCreateCycle p c with
  | (.error ex, s') => (.error ex, s')
  | (.ok (), s') => (.ok (), (c.fired (s.children p).children).foldl (onChanged p) s')

def setTrigger (p : N) (value : Bool) (s : Graph N) : Graph N :=
  { s with children := Function.update s.children p { s.children p with childrenTriggerPermutation := value } }

/-- The node is removed and comes back at another place, with `childrenTriggerPermutation` set. -/
def replace (p : N) (n : N) (c : ChildrenCall (Option N)) (s : Graph N) : Except JavaException Unit × Graph N :=
  match (s.setTrigger p true).call (fun _ => false) p (.remove (some n)) with
  | (.error ex, s) => (.error ex, s.setTrigger p false)
  | (.ok (), s) =>
    match s.call (fun _ => false) p c with
    | (result, s) => (result, s.setTrigger p false)

/-- `toFront()` of a node. -/
def toFront (n : N) (s : Graph N) : Except JavaException Unit × Graph N :=
  match s.getParent n with
  | some p => if (s.children p).children.getLast? ≠ some (some n) then s.replace p n (.add (some n)) else (.ok (), s)
  | none => (.ok (), s)

/-- `toBack()` of a node. -/
def toBack (n : N) (s : Graph N) : Except JavaException Unit × Graph N :=
  match s.getParent n with
  | some p => if (s.children p).children.head? ≠ some (some n) then s.replace p n (.addAt 0 (some n)) else (.ok (), s)
  | none => (.ok (), s)

end Graph

end JavaFX.SceneGraph
