/-
The list of children of a `javafx.scene.Parent`: a `VetoableListDecorator` around an observable list.

Every call proposes its change first.  `onProposedChange` is told what is going to be added and the
index ranges, in the list as it is, of what is going to be removed.  It keeps `childSet`, the set of
the children, and from the sizes alone it finds out whether the children only change places; it
refuses what would put a node twice among the children, and what `check` refuses of a single node.
Only then is the call passed on to the list.
-/
import JavaFX.Collections.ObservableListWrapper
import Mathlib.Data.Finset.Card
import Mathlib.Algebra.Ring.Int.Defs

namespace JavaFX

/-! ### The calls of the decorator -/

/-- What `onProposedChange` is told.  The ranges are half open. -/
structure Proposal (E : Type) where
  toBeAdded : List E
  indexes : List (Int × Int)
deriving Repr, DecidableEq

namespace Proposal

variable {E : Type}

/-- The indexes of a range, in ascending order. -/
def positionsIn (r : Int × Int) : List Int := (List.range (r.2 - r.1).toNat).map fun j : Nat => r.1 + j

/-- `for (i = 0; i < toBeRemoved.length; i += 2) for (j = toBeRemoved[i]; j < toBeRemoved[i + 1]; j++)`. -/
def positions (p : Proposal E) : List Int := p.indexes.flatMap positionsIn

/-- The elements that are going to be removed. -/
def removed (p : Proposal E) (children : List E) : List E :=
  p.positions.filterMap fun j => (getAt children j).toOption

/-- The length of the list after the change. -/
def newLength (p : Proposal E) (children : List E) : Int :=
  children.length + p.toBeAdded.length - (p.indexes.map fun r => r.2 - r.1).sum

end Proposal

/-- A call that changes the list.  `setAllItself` is `setAll` with the list itself. -/
inductive ChildrenCall (E : Type)
  | add (e : E)
  | addAt (index : Int) (e : E)
  | addAll (c : List E)
  | addAllAt (index : Int) (c : List E)
  | set (index : Int) (e : E)
  | setAll (col : List E)
  | setAllItself
  | remove (o : E)
  | removeAt (index : Int)
  | removeRange (lo hi : Int)
  | removeAll (c : List E)
  | retainAll (c : List E)
  | clear
deriving Repr, DecidableEq

namespace ChildrenCall

variable {E : Type} [DecidableEq E]

/-- One round of `removeFromList`.  It means to extend the last range, but it looks at where that
range begins and would move that, so every index gets a range of its own. -/
def addIndex (i : Int) (toBeRemoved : List (Int × Int)) : List (Int × Int) :=
  match toBeRemoved.getLast? with
  | some last =>
    if last.1 = i then toBeRemoved.dropLast ++ [(i + 1, last.2)] else toBeRemoved ++ [(i, i + 1)]
  | none => [(i, i + 1)]

/-- `removeFromList`: the ranges of the elements that `c` has, or has not. -/
def removeFromList (c : List E) (complement : Bool) : Int → List E → List (Int × Int) → List (Int × Int)
  | _, [], toBeRemoved => toBeRemoved
  | i, el :: es, toBeRemoved =>
    removeFromList c complement (i + 1) es
      (if (decide (el ∈ c) ^^ complement) = true then addIndex i toBeRemoved else toBeRemoved)

/-- The proposal for a removal of a collection: there is none if there is nothing to remove. -/
def proposeRemoval (c : List E) (complement : Bool) (l : List E) : Option (Proposal E) :=
  match removeFromList c complement 0 l [] with
  | [] => none
  | ranges => some ⟨[], ranges⟩

/-- What a call proposes. -/
def proposal (l : List E) : ChildrenCall E → Option (Proposal E)
  | .add e => some ⟨[e], [(l.length, l.length)]⟩
  | .addAt index e => some ⟨[e], [(index, index)]⟩
  | .addAll c => some ⟨c, [(l.length, l.length)]⟩
  | .addAllAt index c => some ⟨c, [(index, index)]⟩
  | .set index e => some ⟨[e], [(index, index + 1)]⟩
  | .setAll col => some ⟨col, [(0, l.length)]⟩
  | .setAllItself => some ⟨l, [(0, l.length)]⟩
  | .remove o => if o ∈ l then some ⟨[], [((l.idxOf o : Nat), (l.idxOf o : Nat) + 1)]⟩ else none
  | .removeAt index => some ⟨[], [(index, index + 1)]⟩
  | .removeRange lo hi => some ⟨[], [(lo, hi)]⟩
  | .removeAll c => proposeRemoval c false l
  | .retainAll c => proposeRemoval c true l
  | .clear => some ⟨[], [(0, l.length)]⟩

/-- What the list makes of the call, once it is passed on. -/
def perform (l : List E) : ChildrenCall E → Except JavaException (List E)
  | .add e => .ok (l ++ [e])
  | .addAt index e =>
    if 0 ≤ index ∧ index ≤ l.length then .ok (l.take index.toNat ++ e :: l.drop index.toNat)
    else .error .indexOutOfBounds
  | .addAll c => .ok (l ++ c)
  | .addAllAt index c =>
    if 0 ≤ index ∧ index ≤ l.length then .ok (l.take index.toNat ++ (c ++ l.drop index.toNat))
    else .error .indexOutOfBounds
  | .set index e =>
    if 0 ≤ index ∧ index < l.length then .ok (l.set index.toNat e) else .error .indexOutOfBounds
  | .setAll col => .ok col
  | .setAllItself => .ok []
  | .remove o => .ok (l.erase o)
  | .removeAt index =>
    if 0 ≤ index ∧ index < l.length then .ok (l.eraseIdx index.toNat) else .error .indexOutOfBounds
  | .removeRange lo hi => .ok (l.take lo.toNat ++ l.drop (lo.toNat + (hi - lo).toNat))
  | .removeAll c => .ok (l.filter (· ∉ c))
  | .retainAll c => .ok (l.filter (· ∈ c))
  | .clear => .ok []

/-- A collection that just has its elements. -/
def collection (c : List E) : Collection E where
  size := .ok c.length
  isEmpty := .ok c.isEmpty
  iterate _ := (c, none)
  contains _ e := .ok (e ∈ c)

/-- The list as its own argument. -/
def itself (l : List E) : Collection E where
  size := .ok l.length
  isEmpty := .ok l.isEmpty
  iterate l := (l, none)
  contains _ e := .ok (e ∈ l)

/-- The call the decorator makes on the observable list. -/
def listCall (l : List E) : ChildrenCall E → Option (ObservableListWrapper.ListCall E)
  | .add e => some (.add e)
  | .addAt index e => some (.addAt index e)
  | .addAll c => some (.addAll (collection c))
  | .addAllAt index c => some (.addAllAt index (collection c))
  | .set index e => some (.set index e)
  | .setAll col => some (.setAll (collection col))
  | .setAllItself => some (.setAll (itself l))
  | .remove o => if o ∈ l then some (.removeAt (l.idxOf o)) else none
  | .removeAt index => some (.removeAt index)
  | .removeRange lo hi => some (.removeRange lo hi)
  | .removeAll c => some (.removeAll (collection c))
  | .retainAll c => some (.retainAll (collection c))
  | .clear => some .clear

/-- The observable list with its listener. -/
def listened (l : List E) : ObservableListWrapper E Unit := { backingList := l, hasListeners := true }

/-- What the observable list tells its listener about the call. -/
def fired (l : List E) (c : ChildrenCall E) : List (Change E) :=
  match c.listCall l with
  | some call => (call.run (listened l)).2.fired
  | none => []

end ChildrenCall

/-! ### The proposed change -/

structure Children (E : Type) where
  children : List E := []
  childSet : Finset E := ∅
  childSetModified : Bool := false
  childrenTriggerPermutation : Bool := false
deriving DecidableEq

namespace Children

variable {E : Type} [DecidableEq E]

/-- `childSet.remove(children.get(j))`, for one index after the other. -/
def removeEach (children : List E) : List Int → Finset E → Except JavaException Unit × Finset E
  | [], childSet => (.ok (), childSet)
  | j :: js, childSet =>
    match getAt children j with
    | .ok e => removeEach children js (childSet.erase e)
    | .error ex => (.error ex, childSet)

/-- The new nodes are looked at one by one, from the last to the first. -/
def checkEach (check : E → Except JavaException Unit) : List E → Except JavaException Unit
  | [] => .ok ()
  | e :: es => (checkEach check es).bind fun _ => check e

/-- Whether more than the order of the children changes. -/
def modifies (p : Proposal E) (s : Children E) : Bool :=
  !(p.newLength s.children == s.childSet.card && p.toBeAdded.all (· ∈ s.childSet))

def onProposedChange (check : E → Except JavaException Unit) (p : Proposal E) (s : Children E) :
    Except JavaException Unit × Children E :=
  if s.childrenTriggerPermutation then (.ok (), { s with childSetModified := false })
  else
    let childSetModified := s.modifies p
    match removeEach s.children p.positions s.childSet with
    | (.error ex, childSet) => (.error ex, { s with childSet, childSetModified })
    | (.ok (), childSet) =>
      match (if childSetModified then checkEach check p.toBeAdded else .ok ()) with
      | .error ex => (.error ex, { s with childSet := s.children.toFinset, childSetModified })
      | .ok () =>
        let childSet := childSet ∪ p.toBeAdded.toFinset
        if (childSet.card : Int) = p.newLength s.children then (.ok (), { s with childSet, childSetModified })
        else (.error .illegalArgument, { s with childSet := s.children.toFinset, childSetModified })

/-- A call up to the point where the list tells its listener: what it comes to, and the children
with the new list if it went through. -/
def call (check : E → Except JavaException Unit) (c : ChildrenCall E) (s : Children E) :
    Except JavaException Unit × Children E :=
  match c.proposal s.children with
  | none => (.ok (), s)
  | some p =>
    match onProposedChange check p s with
    | (.error ex, s) => (.error ex, s)
    | (.ok (), s) =>
      match c.perform s.children with
      | .error ex => (.error ex, s)
      | .ok children => (.ok (), { s with children })

end Children

end JavaFX
