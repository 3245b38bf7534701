/-
`com.sun.javafx.event.EventDispatchTreeImpl`.

The tree has two parts.  The root part is a forest in first-child, next-sibling links; the
tail is a chain that `append` builds and that is meant to hang below every leaf of the root
part.  `mergeTree` puts it there before it merges, and so does everybody who goes through
`getChildIndex`: `toString`, and the tree that copies from this one.  `dispatchEvent` moves
the tail to the root when it comes to a leaf.

The three arrays always have the same length, and nothing that stands at `reservedCount` or
beyond is read before it is written: they are one list of `reservedCount` nodes here.
`NULL_INDEX` is `none`.

`mergeTree` follows the links of another tree, or of this one, so its source is an
`Option`: `none` is `this`, whose nodes are read while new ones are added.

The loops end where a link is `NULL_INDEX`.  Every function takes fuel for its rounds and
its nested calls.
-/
import JavaFX.Runtime
import JavaFX.Lib.Forest
import JavaFX.Lib.Program

namespace JavaFX

inductive TreeFailure
  | thrown (e : JavaException)
  | outOfFuel
deriving DecidableEq, Repr

/-- One slot of `dispatchers`, `nextChildren` and `nextSiblings`. -/
structure TreeNode (D : Type) where
  dispatcher : Option D
  nextChild : Option Nat
  nextSibling : Option Nat
deriving DecidableEq, Repr

structure EventDispatchTree (D : Type) where
  nodes : List (TreeNode D) := []
  rootIndex : Option Nat := none
  tailFirstIndex : Option Nat := none
  tailLastIndex : Option Nat := none
  expandTailFirstPath : Bool := false
deriving DecidableEq, Repr

namespace EventDispatchTree

variable {D E : Type}

/-- A call on a tree. -/
abbrev Op (D α : Type) : Type := Program TreeFailure (EventDispatchTree D) α

/-! ### Slots -/

def nodeAt (tree : EventDispatchTree D) (index : Nat) : Except TreeFailure (TreeNode D) :=
  (getAt tree.nodes index).mapError .thrown

def node (index : Nat) : Op D (TreeNode D) := fun t => (t.nodeAt index, t)

def setNode (index : Nat) (change : TreeNode D → TreeNode D) : Op D Unit := do
  let n ← node index
  Program.modify fun t => { t with nodes := t.nodes.set index (change n) }

/-- `dispatchers[index] = dispatcher`. -/
def setDispatcher (index : Nat) (dispatcher : Option D) : Op D Unit :=
  setNode index fun n => { n with dispatcher }

/-- `nextChildren[index] = nextChild`. -/
def setNextChild (index : Nat) (nextChild : Option Nat) : Op D Unit :=
  setNode index fun n => { n with nextChild }

/-- `nextSiblings[index] = nextSibling`. -/
def setNextSibling (index : Nat) (nextSibling : Option Nat) : Op D Unit :=
  setNode index fun n => { n with nextSibling }

/-- `ensureCapacity(reservedCount + 1)` and `reservedCount++`.  The slot holds whatever was
there: what a new array has. -/
def reserve : Op D Nat := fun t =>
  (.ok t.nodes.length, { t with nodes := t.nodes ++ [⟨none, some 0, some 0⟩] })

/-- A node of `srcTree`, as it is now. -/
def sourceNode (srcTree : Option (EventDispatchTree D)) (index : Nat) : Op D (TreeNode D) :=
  fun t => ((srcTree.getD t).nodeAt index, t)

/-! ### Building -/

def reset : Op D Unit := Program.modify fun t =>
  { t with nodes := [], rootIndex := none, tailFirstIndex := none, tailLastIndex := none }

/-- Where `toString`, and a tree that copies from this one, begin. -/
def levelIndex (tree : EventDispatchTree D) : Option Nat :=
  if tree.rootIndex ≠ none then tree.rootIndex else tree.tailFirstIndex

def getChildIndex (tree : EventDispatchTree D) (index : Nat) : Except TreeFailure (Option Nat) := do
  let n ← tree.nodeAt index
  if n.nextChild = none ∧ some index ≠ tree.tailLastIndex then return tree.tailFirstIndex
  else return n.nextChild

/-- `getChildIndex(srcTree, index)`. -/
def sourceChildIndex (srcTree : Option (EventDispatchTree D)) (index : Nat) : Op D (Option Nat) :=
  fun t => (getChildIndex (srcTree.getD t) index, t)

mutual

def copyTreeLevel (srcTree : Option (EventDispatchTree D)) : Nat → Option Nat → Op D (Option Nat)
  | 0, _ => Program.throw .outOfFuel
  | _ + 1, none => pure none
  | fuel + 1, some srcIndex => do
    let dstLevelIndex ← copySubtree srcTree fuel srcIndex
    let srcNode ← sourceNode srcTree srcIndex
    let lastDstIndex ← copySiblings srcTree fuel dstLevelIndex srcNode.nextSibling
    setNextSibling lastDstIndex none
    return some dstLevelIndex

/-- The loop of `copyTreeLevel`. -/
def copySiblings (srcTree : Option (EventDispatchTree D)) : Nat → Nat → Option Nat → Op D Nat
  | 0, _, _ => Program.throw .outOfFuel
  | _ + 1, lastDstIndex, none => pure lastDstIndex
  | fuel + 1, lastDstIndex, some srcIndex => do
    let dstIndex ← copySubtree srcTree fuel srcIndex
    setNextSibling lastDstIndex (some dstIndex)
    let srcNode ← sourceNode srcTree srcIndex
    copySiblings srcTree fuel dstIndex srcNode.nextSibling

def copySubtree (srcTree : Option (EventDispatchTree D)) : Nat → Nat → Op D Nat
  | 0, _ => Program.throw .outOfFuel
  | fuel + 1, srcIndex => do
    let dstIndex ← reserve
    let srcChildIndex ← sourceChildIndex srcTree srcIndex
    let dstChildLevelIndex ← copyTreeLevel srcTree fuel srcChildIndex
    let srcNode ← sourceNode srcTree srcIndex
    setDispatcher dstIndex srcNode.dispatcher
    setNextChild dstIndex dstChildLevelIndex
    return dstIndex

end

mutual

/-- `expandTail`, where an iteration of the loop is a call for the next sibling. -/
def expandTail : Nat → Option Nat → Op D Unit
  | 0, _ => Program.throw .outOfFuel
  | _ + 1, none => pure ()
  | fuel + 1, some index => do
    expandNode fuel index
    let n ← node index
    expandTail fuel n.nextSibling

/-- The body of the loop of `expandTail`. -/
def expandNode : Nat → Nat → Op D Unit
  | 0, _ => Program.throw .outOfFuel
  | fuel + 1, index => do
    let n ← node index
    match n.nextChild with
    | some child => expandTail fuel (some child)
    | none => do
      let t ← Program.read id
      if t.expandTailFirstPath then
        setNextChild index t.tailFirstIndex
        Program.modify fun t => { t with expandTailFirstPath := false }
      else
        let childLevelIndex ← copyTreeLevel none fuel t.tailFirstIndex
        setNextChild index childLevelIndex

end

/-- The inner loop of `mergeTreeLevel`: the sibling with this dispatcher, if there is one,
and the last one looked at before. -/
def findSibling [DecidableEq D] (srcDispatcher : Option D) : Nat → Nat → Option Nat →
    Op D (Option Nat × Nat)
  | 0, _, _ => Program.throw .outOfFuel
  | _ + 1, lastDstIndex, none => pure (none, lastDstIndex)
  | fuel + 1, lastDstIndex, some dstIndex => do
    let n ← node dstIndex
    if srcDispatcher ≠ n.dispatcher then findSibling srcDispatcher fuel dstIndex n.nextSibling
    else return (some dstIndex, lastDstIndex)

mutual

/-- `mergeTreeLevel`, where an iteration of the loop is a call for the next source node. -/
def mergeTreeLevel [DecidableEq D] (srcTree : Option (EventDispatchTree D)) :
    Nat → Nat → Option Nat → Op D Unit
  | 0, _, _ => Program.throw .outOfFuel
  | _ + 1, _, none => pure ()
  | fuel + 1, dstLevelIndex, some srcIndex => do
    mergeSubtree srcTree fuel dstLevelIndex srcIndex
    let srcNode ← sourceNode srcTree srcIndex
    mergeTreeLevel srcTree fuel dstLevelIndex srcNode.nextSibling

/-- The body of the loop of `mergeTreeLevel`. -/
def mergeSubtree [DecidableEq D] (srcTree : Option (EventDispatchTree D)) : Nat → Nat → Nat → Op D Unit
  | 0, _, _ => Program.throw .outOfFuel
  | fuel + 1, dstLevelIndex, srcIndex => do
    let srcNode ← sourceNode srcTree srcIndex
    let found ← findSibling srcNode.dispatcher fuel dstLevelIndex (some dstLevelIndex)
    match found with
    | (none, lastDstIndex) => do
      let siblingIndex ← copySubtree srcTree fuel srcIndex
      setNextSibling lastDstIndex (some siblingIndex)
      setNextSibling siblingIndex none
    | (some dstIndex, _) => do
      let n ← node dstIndex
      let nextSrcLevelIndex ← sourceChildIndex srcTree srcIndex
      match n.nextChild with
      | some nextDstLevelIndex => mergeTreeLevel srcTree fuel nextDstLevelIndex nextSrcLevelIndex
      | none => do
        let nextDstLevelIndex ← copyTreeLevel srcTree fuel nextSrcLevelIndex
        setNextChild dstIndex nextDstLevelIndex

end

/-- What `mergeTree` does with a tail. -/
def attachTail (fuel : Nat) : Option Nat → Op D Unit
  | some rootIndex => do
    Program.modify fun t => { t with expandTailFirstPath := true }
    expandTail fuel (some rootIndex)
  | none => Program.modify fun t => { t with rootIndex := t.tailFirstIndex }

/-- The first half of `mergeTree`: there is no tail afterwards. -/
def joinTail (fuel : Nat) : Op D Unit := do
  let t ← Program.read id
  if t.tailFirstIndex = none then pure ()
  else do
    attachTail fuel t.rootIndex
    Program.modify fun t => { t with tailFirstIndex := none, tailLastIndex := none }

def mergeTree [DecidableEq D] (tree : Option (EventDispatchTree D)) (fuel : Nat) : Op D Unit := do
  joinTail fuel
  let srcLevelIndex ← Program.read fun t => (tree.getD t).levelIndex
  let t ← Program.read id
  match t.rootIndex with
  | none => do
    let rootIndex ← copyTreeLevel tree fuel srcLevelIndex
    Program.modify fun t => { t with rootIndex }
  | some rootIndex => mergeTreeLevel tree fuel rootIndex srcLevelIndex

/-- `trees[this].mergeTree(trees[other])`. -/
def mergeAt [DecidableEq D] (this other fuel : Nat) :
    Program TreeFailure (Nat → EventDispatchTree D) Unit := fun trees =>
  let (result, tree) := mergeTree (if other = this then none else some (trees other)) fuel (trees this)
  (result, Function.update trees this tree)

/-- Puts a new slot where the tail ends. -/
def linkTail (index : Nat) : Op D Unit := do
  let t ← Program.read id
  match t.tailFirstIndex, t.tailLastIndex with
  | none, _ => Program.modify fun t => { t with tailFirstIndex := some index }
  | some _, some tailLastIndex => setNextChild tailLastIndex (some index)
  | some _, none => Program.throw (.thrown .indexOutOfBounds)

def append (eventDispatcher : D) : Op D Unit := do
  let index ← reserve
  setDispatcher index (some eventDispatcher)
  setNextSibling index none
  setNextChild index none
  linkTail index
  Program.modify fun t => { t with tailLastIndex := some index }

def prepend (eventDispatcher : D) : Op D Unit := do
  let index ← reserve
  setDispatcher index (some eventDispatcher)
  setNextSibling index none
  let t ← Program.read id
  setNextChild index t.rootIndex
  Program.modify fun t => { t with rootIndex := some index }

/-! ### Dispatching

A dispatcher gets the event and the tree.  One that forwards calls `dispatchEvent` on that
tree once, with the event `forward` makes of it, and answers with `reply`.  Beside the event
`dispatchEvent` returns the calls of dispatchers made on the way, in order, each with the
dispatchers it is nested in. -/

/-- The first lines of `dispatchEvent`: a tree without root part goes on with the tail. -/
def enterRoot : Op D (Option Nat) := do
  let t ← Program.read id
  match t.rootIndex, t.tailFirstIndex with
  | some rootIndex, _ => pure (some rootIndex)
  | none, none => pure none
  | none, some tailFirstIndex => do
    Program.modify fun t =>
      { t with rootIndex := some tailFirstIndex, tailFirstIndex := none, tailLastIndex := none }
    pure (some tailFirstIndex)

/-- `body` between "push current state" and "pop saved state". -/
def withSavedState {α : Type} (body : Op D α) : Op D α := do
  let saved ← Program.read id
  let result ← body
  Program.modify fun t => { t with
    nodes := t.nodes.take saved.nodes.length
    rootIndex := saved.rootIndex
    tailFirstIndex := saved.tailFirstIndex
    tailLastIndex := saved.tailLastIndex }
  return result

/-- What a level answers after one more branch. -/
def joinReturnEvent (event : E) (returnEvent branchReturnEvent : Option E) : Option E :=
  match branchReturnEvent with
  | none => returnEvent
  | some branch => if returnEvent.isSome then some event else some branch

section
variable (forward : D → E → E) (reply : D → E → Option E → Option E)

mutual

def dispatchEvent : Nat → E → Op D (Option E × List (List D))
  | 0, _ => Program.throw .outOfFuel
  | fuel + 1, event => do
    match ← enterRoot with
    | none => return (some event, [])
    | some index => withSavedState (dispatchLevel fuel event none (some index))

/-- The loop of `dispatchEvent`. -/
def dispatchLevel : Nat → E → Option E → Option Nat → Op D (Option E × List (List D))
  | 0, _, _, _ => Program.throw .outOfFuel
  | _ + 1, _, returnEvent, none => pure (returnEvent, [])
  | fuel + 1, event, returnEvent, some index => do
    let n ← node index
    Program.modify fun t => { t with rootIndex := n.nextChild }
    match n.dispatcher with
    | none => Program.throw (.thrown .nullPointer)
    | some dispatcher => do
      let (answer, below) ← dispatchEvent fuel (forward dispatcher event)
      let branchReturnEvent := reply dispatcher event answer
      let n ← node index
      let (returnEvent, beside) ← dispatchLevel fuel event
        (joinReturnEvent event returnEvent branchReturnEvent) n.nextSibling
      return (returnEvent, [dispatcher] :: (below.map (dispatcher :: ·) ++ beside))

end

end

/-! ### Printing -/

section
variable (name : D → String) (tree : EventDispatchTree D)

mutual

def appendTreeLevel : Nat → Nat → Except TreeFailure String
  | 0, _ => .error .outOfFuel
  | fuel + 1, levelIndex => do
    let first ← appendSubtree fuel levelIndex
    let n ← tree.nodeAt levelIndex
    let rest ← appendSiblings fuel n.nextSibling
    return "(" ++ first ++ rest ++ ")"

/-- The loop of `appendTreeLevel`. -/
def appendSiblings : Nat → Option Nat → Except TreeFailure String
  | 0, _ => .error .outOfFuel
  | _ + 1, none => return ""
  | fuel + 1, some index => do
    let subtree ← appendSubtree fuel index
    let n ← tree.nodeAt index
    let rest ← appendSiblings fuel n.nextSibling
    return "," ++ subtree ++ rest

def appendSubtree : Nat → Nat → Except TreeFailure String
  | 0, _ => .error .outOfFuel
  | fuel + 1, index => do
    let n ← tree.nodeAt index
    let childIndex ← getChildIndex tree index
    match childIndex with
    | none => return (n.dispatcher.map name).getD "null"
    | some childIndex => do
      let level ← appendTreeLevel fuel childIndex
      return (n.dispatcher.map name).getD "null" ++ "->" ++ level

end

def toString (fuel : Nat) : Except TreeFailure String :=
  match tree.levelIndex with
  | none => return "()"
  | some levelIndex => appendTreeLevel name tree fuel levelIndex

/-- The tree that `toString` prints, from a level on. -/
def forestFrom : Nat → Option Nat → Except TreeFailure (Forest D)
  | 0, _ => .error .outOfFuel
  | _ + 1, none => return .nil
  | fuel + 1, some index => do
    let n ← tree.nodeAt index
    let childIndex ← getChildIndex tree index
    let below ← forestFrom fuel childIndex
    let beside ← forestFrom fuel n.nextSibling
    match n.dispatcher with
    | none => .error (.thrown .nullPointer)
    | some dispatcher => return .cons dispatcher below beside

end

/-! ### Trees that can be built -/

section
variable [DecidableEq D]

/-- A tree as it is after calls that returned; the tree that is merged into it is one too. -/
inductive Built : EventDispatchTree D → Prop
  | new : Built {}
  | reset {t t'} : Built t → reset t = (.ok (), t') → Built t'
  | append {t t'} (d : D) : Built t → append d t = (.ok (), t') → Built t'
  | prepend {t t'} (d : D) : Built t → prepend d t = (.ok (), t') → Built t'
  | mergeTree {t tree t'} : Built t → Built tree →
      Program.Returns (mergeTree (some tree)) t () t' → Built t'
  | mergeThis {t t'} : Built t → Program.Returns (mergeTree none) t () t' → Built t'
  | dispatchEvent {t t'} {E : Type} (forward : D → E → E) (reply : D → E → Option E → Option E)
      (event : E) (answer : Option E × List (List D)) : Built t →
      Program.Returns (fun fuel => dispatchEvent forward reply fuel event) t answer t' → Built t'

end

/-- The tree denotes `f`: that is what it prints. -/
def Denotes (t : EventDispatchTree D) (f : Forest D) : Prop :=
  ∃ bound, ∀ fuel, bound ≤ fuel → t.forestFrom fuel t.levelIndex = .ok f

/-- `dispatchEvent` calls the dispatchers along the paths of the tree it denotes, in order,
and afterwards it denotes the same one. -/
def Covers (forward : D → E → E) (reply : D → E → Option E → Option E) (event : E)
    (t : EventDispatchTree D) : Prop :=
  ∃ f answer t', Denotes t f ∧
    Program.Returns (fun fuel => dispatchEvent forward reply fuel event) t (answer, f.prefixes) t' ∧
    Denotes t' f

/-- The slots of the root part. -/
inductive InRoot (t : EventDispatchTree D) : Nat → Prop
  | root {i} : t.rootIndex = some i → InRoot t i
  | child {i j n} : InRoot t i → t.nodes[i]? = some n → n.nextChild = some j → InRoot t j
  | sibling {i j n} : InRoot t i → t.nodes[i]? = some n → n.nextSibling = some j → InRoot t j

/-- Nobody in the root part who has no children has a sibling behind it. -/
def LeavesLast (t : EventDispatchTree D) : Prop :=
  ∀ i n, InRoot t i → t.nodes[i]? = some n → n.nextChild = none → n.nextSibling = none

end EventDispatchTree

end JavaFX
