/-
`javafx.scene.control.TreeUtil`: which item is drawn in which row.

`getItem` walks down and skips whole subtrees by their counts; `getRow` walks up and adds
the counts of the siblings in front.  Counting may write to the caches of the items it
meets, so all of this are calls on the items.
-/
import JavaFX.Controls.TreeItem

namespace JavaFX.TreeUtil

open Program TreeItems

variable {I : Type} [DecidableEq I]

def getExpandedDescendantCount (fuel : Nat) (node : Option I) (treeItemCountDirty : Bool) :
    Call I Nat :=
  match node with
  | none => pure 0
  | some i => do
    if ← isLeaf i then return 1
    else getExpandedDescendentCount treeItemCountDirty fuel i

def updateExpandedItemCount (fuel : Nat) (treeItem : Option I)
    (treeItemCountDirty isShowRoot : Bool) : Call I Int :=
  match treeItem with
  | none => pure 0
  | some i => do
    if ← isExpanded i then
      let count ← getExpandedDescendantCount fuel (some i) treeItemCountDirty
      return if isShowRoot then (count : Int) else (count : Int) - 1
    else return 1

/-! ### From rows to items -/

/-- `child.isLeaf() || !child.isExpanded()`. -/
def isSingle (i : I) : Call I Bool := do
  if ← isLeaf i then return true
  else
    let expanded ← isExpanded i
    return !expanded

/-- The loop over the children; `getItem` looks for a row below one of them. -/
def searchChildren (fuel : Nat) (treeItemCountDirty : Bool)
    (getItem : I → Int → Call I (Option I)) : List I → Int → Call I (Option I)
  | [], _ => return none
  | child :: rest, idx => do
    if idx = 0 then return some child
    else if ← isSingle child then
      searchChildren fuel treeItemCountDirty getItem rest (idx - 1)
    else
      let expandedChildCount ← getExpandedDescendantCount fuel (some child) treeItemCountDirty
      if idx ≥ expandedChildCount then
        searchChildren fuel treeItemCountDirty getItem rest (idx - expandedChildCount)
      else
        match ← getItem child idx with
        | some result => return some result
        | none => searchChildren fuel treeItemCountDirty getItem rest (idx - 1)

def getItem (treeItemCountDirty : Bool) : Nat → Option I → Int → Call I (Option I)
  | 0, _, _ => throw .endless
  | _ + 1, none, _ => return none
  | fuel + 1, some parent, itemIndex => do
    if itemIndex = 0 then return some parent
    else
      let count ← getExpandedDescendantCount fuel (some parent) treeItemCountDirty
      if itemIndex ≥ count then return none
      else
        let children ← read (·.children parent)
        searchChildren fuel treeItemCountDirty
          (fun child => getItem treeItemCountDirty fuel (some child)) children (itemIndex - 1)

/-! ### From items to rows -/

/-- The loop over the siblings in front of an item, the nearest first.  It may come to a
result (`inl`), or go on with a row (`inr`). -/
def addSiblings (fuel : Nat) (root : Option I) (treeItemCountDirty isShowRoot : Bool) :
    List I → Int → Call I (Int ⊕ Int)
  | [], row => return .inr row
  | sibling :: rest, row => do
    let count ← getExpandedDescendantCount fuel (some sibling) treeItemCountDirty
    if some sibling = root then return .inl (if isShowRoot then row + count else -1)
    else addSiblings fuel root treeItemCountDirty isShowRoot rest (row + count)

/-- `siblings.indexOf(i)` and the siblings in front of it, the nearest first. -/
def inFront (siblings : List I) (i : I) : List I :=
  match siblings.idxOf? i with
  | some itemIndex => (siblings.take itemIndex).reverse
  | none => []

/-- The rounds of the `while` loop, with `i` and `row` as they stand. -/
def climb (fuel : Nat) (root : Option I) (treeItemCountDirty isShowRoot : Bool) :
    Nat → I → Int → Call I Int
  | 0, _, _ => throw .endless
  | rounds + 1, i, row => do
    match ← read (fun s => (s.item i).parent) with
    | none => return if row = 0 then -1 else if isShowRoot then row else row - 1
    | some p =>
      if some i = root then return if isShowRoot then row else row - 1
      else if ← isExpanded p then
        let siblings ← read (·.children p)
        match ← addSiblings fuel root treeItemCountDirty isShowRoot (inFront siblings i) row with
        | .inl result => return result
        | .inr row =>
          let parentOfP ← read (fun s => (s.item p).parent)
          if parentOfP.isNone && some p != root then return -1
          else climb fuel root treeItemCountDirty isShowRoot rounds p (row + 1)
      else return -1

def getRow (fuel : Nat) (item root : Option I) (treeItemCountDirty isShowRoot : Bool) :
    Call I Int :=
  match item with
  | none => return -1
  | some i =>
    if isShowRoot && some i == root then return 0
    else climb fuel root treeItemCountDirty isShowRoot fuel i 0

end JavaFX.TreeUtil
