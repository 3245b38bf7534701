/-
`javafx.collections.ListChangeBuilder`: what an observable list reports when a
block of changes ends.

Between `beginChange` and the matching `endChange` every mutation of the list is
mirrored by a call to the builder, which keeps three things pending: at most one
permutation of the list as it was when the block began, a list of add/remove
records, and a list of update records.  The records are merged, shifted, extended
and deleted on the fly, so that `commit` only has to join the ones that touch.

`addRemoveChanges` and `updateChanges` are `null` until their first use; the
sources never tell `null` from an empty list, so neither does the model.  A
record's `removed` is different: `nextPermutation` really does leave it `null`,
and `nextRemove` really does dereference it.

A permutation is the list of its entries.  The builder keeps the first array it is
given and composes into it, which matters to a caller who passes an array twice;
`passPermutation` is `nextPermutation` with the array it is given.
-/
import JavaFX.Runtime
import JavaFX.Lib.BinarySearch

namespace JavaFX

open BinarySearch (Result)

/-- One record of a change.  `removed = none` is the sources' `null`. -/
structure SubChange (E : Type) where
  «from» : Int
  «to» : Int
  removed : Option (List E)
  perm : List Int
  updated : Bool
deriving Repr, DecidableEq

namespace SubChange

variable {E : Type}

/-- The same record, `d` positions further on. -/
def shift (d : Int) (c : SubChange E) : SubChange E :=
  { c with «from» := c.from + d, «to» := c.to + d }

/-- `removed.add(e)`. -/
def addRemoved (c : SubChange E) (e : E) : Except JavaException (SubChange E) :=
  match c.removed with
  | some r => .ok { c with removed := some (r ++ [e]) }
  | none => .error .nullPointer

/-- `removed.add(0, e)`. -/
def addRemovedFirst (c : SubChange E) (e : E) : Except JavaException (SubChange E) :=
  match c.removed with
  | some r => .ok { c with removed := some (e :: r) }
  | none => .error .nullPointer

/-- `removed == null || removed.isEmpty()`. -/
def removedEmpty (c : SubChange E) : Bool :=
  match c.removed with
  | some r => r.isEmpty
  | none => true

/-- `getRemoved()`, once the record has been finalized. -/
def getRemoved (c : SubChange E) : List E := c.removed.getD []

def wasPermutated (c : SubChange E) : Bool := !c.perm.isEmpty

def wasAdded (c : SubChange E) : Bool := !c.wasPermutated && !c.updated && c.from < c.to

def getRemovedSize (c : SubChange E) : Int := c.getRemoved.length

def getAddedSize (c : SubChange E) : Int := if c.wasAdded then c.to - c.from else 0

/-- `getPermutation(i)`: the new index of the element that was at `i`. -/
def getPermutation (c : SubChange E) (i : Int) : Except JavaException Int :=
  if c.wasPermutated then getAt c.perm (i - c.from)
  else .error (.illegalState "Not a permutation change")

end SubChange

/-- A change as listeners see it: the list, and its records in reported order. -/
structure Change (E : Type) where
  list : List E
  changes : List (SubChange E)
deriving Repr, DecidableEq

structure ListChangeBuilder (E : Type) where
  changeLock : Nat := 0
  addRemoveChanges : List (SubChange E) := []
  updateChanges : List (SubChange E) := []
  permutationChange : Option (SubChange E) := none
deriving Repr, DecidableEq

namespace ListChangeBuilder

variable {E : Type}

def checkState (b : ListChangeBuilder E) : Except JavaException Unit :=
  if b.changeLock = 0 then
    .error (.illegalState "beginChange was not called on this builder")
  else .ok ()

/-- What the binary search of `findSubChange` learns from one record. -/
def probe (idx : Int) (list : List (SubChange E)) (i : Nat) : Ordering :=
  match list[i]? with
  | some change => if change.to ≤ idx then .lt else if idx < change.from then .gt else .eq
  | none => .gt

/-- `missing i` is the `~i` of the sources. -/
def findSubChange (idx : Int) (list : List (SubChange E)) : Result :=
  BinarySearch.search (probe idx list) list.length

/-- `for (i = k; i < list.size(); ++i) { from += d; to += d; }`. -/
def shiftFrom (k : Nat) (d : Int) (list : List (SubChange E)) : List (SubChange E) :=
  list.take k ++ (list.drop k).map (SubChange.shift d)

/-! ### Updates -/

def insertUpdate (pos : Int) (list : List (SubChange E)) : List (SubChange E) :=
  match findSubChange pos list with
  | .found _ => list
  | .missing idx =>
    match (if 0 < idx then list[idx - 1]? else none) with
    | some prev =>
      if prev.to = pos then list.set (idx - 1) { prev with «to» := pos + 1 }
      else insertBefore pos idx list
    | none => insertBefore pos idx list
where
  /-- The record behind takes the position in, or a new one is made for it. -/
  insertBefore (pos : Int) (idx : Nat) (list : List (SubChange E)) : List (SubChange E) :=
    match list[idx]? with
    | some next =>
      if next.from = pos + 1 then list.set idx { next with «from» := pos }
      else list.insertIdx idx ⟨pos, pos + 1, none, [], true⟩
    | none => list.insertIdx idx ⟨pos, pos + 1, none, [], true⟩

/-- The part of `nextRemove` that moves the update records along. -/
def removeUpdate (idx : Int) (list : List (SubChange E)) : List (SubChange E) :=
  match findSubChange idx list with
  | .missing uPos => shiftFrom uPos (-1) list
  | .found uPos =>
    match list[uPos]? with
    | some change =>
      if change.from = change.to - 1 then shiftFrom uPos (-1) (list.eraseIdx uPos)
      else shiftFrom (uPos + 1) (-1) (list.set uPos { change with «to» := change.to - 1 })
    | none => list

/-- The part of `nextAdd` that moves the update records along, splitting the one
the new elements land in. -/
def addUpdate (lo hi : Int) (list : List (SubChange E)) : List (SubChange E) :=
  match findSubChange lo list with
  | .missing uPos => shiftFrom uPos (hi - lo) list
  | .found uPos =>
    match list[uPos]? with
    | some change =>
      shiftFrom (uPos + 2) (hi - lo) ((list.insertIdx (uPos + 1) ⟨hi, change.to + hi - lo, none, [], true⟩).set uPos
          { change with «to» := lo })
    | none => list

/-! ### Adding and removing -/

def insertRemoved (pos : Int) (removed : E) (list : List (SubChange E)) :
    Except JavaException (List (SubChange E)) :=
  match findSubChange pos list with
  | .missing idx =>
    match (if 0 < idx then list[idx - 1]? else none) with
    | some prev =>
      if prev.to = pos then
        (prev.addRemoved removed).map fun prev =>
          shiftFrom idx (-1) (list.set (idx - 1) prev)
      else insertBefore pos removed idx list
    | none => insertBefore pos removed idx list
  | .found idx =>
    match list[idx]? with
    | some change =>
      let change := { change with «to» := change.to - 1 }
      -- when the record goes, the loop still starts behind its old place
      if change.from = change.to ∧ change.removedEmpty then
        .ok (shiftFrom (idx + 1) (-1) (list.eraseIdx idx))
      else .ok (shiftFrom (idx + 1) (-1) (list.set idx change))
    | none => .ok list
where
  /-- The record behind takes the element in, or a new one is made for it. -/
  insertBefore (pos : Int) (removed : E) (idx : Nat) (list : List (SubChange E)) :
      Except JavaException (List (SubChange E)) :=
    match list[idx]? with
    | some next =>
      if next.from = pos + 1 then
        (next.shift (-1)).addRemovedFirst removed |>.map fun next =>
          shiftFrom (idx + 1) (-1) (list.set idx next)
      else .ok (shiftFrom (idx + 1) (-1) (list.insertIdx idx ⟨pos, pos, some [removed], [], false⟩))
    | none =>
      .ok (shiftFrom (idx + 1) (-1) (list.insertIdx idx ⟨pos, pos, some [removed], [], false⟩))

def insertAdd (lo hi : Int) (list : List (SubChange E)) : List (SubChange E) :=
  let numberOfAdded := hi - lo
  match findSubChange lo list with
  | .missing idx =>
    match (if 0 < idx then list[idx - 1]? else none) with
    | some prev =>
      if prev.to = lo then shiftFrom idx numberOfAdded (list.set (idx - 1) { prev with «to» := hi })
      else shiftFrom (idx + 1) numberOfAdded (list.insertIdx idx ⟨lo, hi, some [], [], false⟩)
    | none => shiftFrom (idx + 1) numberOfAdded (list.insertIdx idx ⟨lo, hi, some [], [], false⟩)
  | .found idx =>
    match list[idx]? with
    | some change =>
      shiftFrom (idx + 1) numberOfAdded (list.set idx { change with «to» := change.to + numberOfAdded })
    | none => list

/-- What `nextRemove(int, E)` does to the add/remove records: two short cuts on
the last one, and `insertRemoved` for the rest. -/
def removeRecord (idx : Int) (removed : E) (list : List (SubChange E)) :
    Except JavaException (List (SubChange E)) :=
  match list.getLast? with
  | some last =>
    if last.to = idx then
      (last.addRemoved removed).map fun last => list.dropLast ++ [last]
    else if last.from = idx + 1 then
      ((last.shift (-1)).addRemovedFirst removed).map fun last => list.dropLast ++ [last]
    else insertRemoved idx removed list
  | none => insertRemoved idx removed list

/-- What `nextAdd` does to the add/remove records. -/
def addRecord (lo hi : Int) (list : List (SubChange E)) : List (SubChange E) :=
  match list.getLast? with
  | some last =>
    if last.to = lo then list.dropLast ++ [{ last with «to» := hi }]
    else if lo ≥ last.from ∧ lo < last.to then
      list.dropLast ++ [{ last with «to» := last.to + (hi - lo) }]
    else insertAdd lo hi list
  | none => insertAdd lo hi list

/-- `nextRemove(int, E)`. -/
def nextRemove (idx : Int) (removed : E) (b : ListChangeBuilder E) :
    Except JavaException (ListChangeBuilder E) := do
  b.checkState
  let records ← removeRecord idx removed b.addRemoveChanges
  return { b with
    addRemoveChanges := records
    updateChanges := if b.updateChanges.isEmpty then b.updateChanges
      else removeUpdate idx b.updateChanges }

/-- `nextRemove(int, List)`: every element at the same index. -/
def nextRemoveAll (idx : Int) (removed : List E) (b : ListChangeBuilder E) :
    Except JavaException (ListChangeBuilder E) := do
  b.checkState
  removed.foldlM (fun b e => b.nextRemove idx e) b

def nextAdd (lo hi : Int) (b : ListChangeBuilder E) :
    Except JavaException (ListChangeBuilder E) := do
  b.checkState
  return { b with
    addRemoveChanges := addRecord lo hi b.addRemoveChanges
    updateChanges := if b.updateChanges.isEmpty then b.updateChanges
      else addUpdate lo hi b.updateChanges }

def nextReplace (lo hi : Int) (removed : List E) (b : ListChangeBuilder E) :
    Except JavaException (ListChangeBuilder E) := do
  let b ← b.nextRemoveAll lo removed
  b.nextAdd lo hi

def nextSet (idx : Int) (old : E) (b : ListChangeBuilder E) :
    Except JavaException (ListChangeBuilder E) := do
  let b ← b.nextRemove idx old
  b.nextAdd idx (idx + 1)

def nextUpdate (idx : Int) (b : ListChangeBuilder E) :
    Except JavaException (ListChangeBuilder E) := do
  b.checkState
  match b.updateChanges.getLast? with
  | some last =>
    if last.to = idx then
      return { b with updateChanges := b.updateChanges.dropLast ++ [{ last with «to» := idx + 1 }] }
    else return { b with updateChanges := insertUpdate idx b.updateChanges }
  | none => return { b with updateChanges := insertUpdate idx b.updateChanges }

/-! ### Permutations -/

/-- `j < from || j >= to ? j : perm[j - from]`. -/
def moved (lo hi : Int) (perm : List Int) (j : Int) : Except JavaException Int :=
  if j < lo ∨ hi ≤ j then .ok j else getAt perm (j - lo)

/-- What `nextPermutation` knows of the original list while it walks the records:
the permuted map from current to original indices, the original indices that were
removed, where the next gap starts, and how far the two lists are apart. -/
structure Reconstruction where
  mapToOriginal : List Int
  removed : List Int
  last : Int
  offset : Int
deriving Repr, DecidableEq

/-- One gap of elements that were in the original list. -/
def markKept (lo hi : Int) (perm : List Int) (start stop offset : Int) (map : List Int) :
    Except JavaException (List Int) :=
  forRange start stop (fun j map => do setAt map (← moved lo hi perm j) (j + offset)) map

/-- One run of elements that were not. -/
def markAdded (lo hi : Int) (perm : List Int) (start stop : Int) (map : List Int) :
    Except JavaException (List Int) :=
  forRange start stop (fun j map => do setAt map (← moved lo hi perm j) (-1)) map

def reconstructStep (lo hi : Int) (perm : List Int) (r : Reconstruction) (change : SubChange E) :
    Except JavaException Reconstruction := do
  let map ← markKept lo hi perm r.last change.from r.offset r.mapToOriginal
  let map ← markAdded lo hi perm change.from change.to map
  let removedSize := change.getRemovedSize
  let removed ← forRange (change.from + r.offset) (change.from + r.offset + removedSize)
    (fun j removed => .ok (treeSetAdd j removed)) r.removed
  return ⟨map, removed, change.to, r.offset + (removedSize - (change.to - change.from))⟩

def reconstruct (lo hi : Int) (perm : List Int) (size : Nat) (records : List (SubChange E)) :
    Except JavaException Reconstruction := do
  let r ← records.foldlM (reconstructStep lo hi perm) ⟨List.replicate size 0, [], 0, 0⟩
  let map ← markKept lo hi perm r.last size r.offset r.mapToOriginal
  return { r with mapToOriginal := map }

/-- One round of the loop that fills `newPerm`; `rest` is what `mapPtr` has not
passed yet. -/
def fillStep (removed : List Int) (i : Int) (s : List Int × List Int) :
    Except JavaException (List Int × List Int) :=
  if i ∈ removed then (setAt s.1 i i).map fun newPerm => (newPerm, s.2)
  else
    match s.2.dropWhile (· == -1) with
    | [] => .error .indexOutOfBounds
    | m :: rest => (setAt s.1 m i).map fun newPerm => (newPerm, rest)

/-- The permutation of the original list that has the effect of `perm` on the
elements that are still there. -/
def originalPerm (lo hi : Int) (perm : List Int) (size : Nat) (records : List (SubChange E)) :
    Except JavaException (List Int) := do
  let r ← reconstruct lo hi perm size records
  if (size : Int) + r.offset < 0 then .error .negativeArraySize
  let length := (size + r.offset).toNat
  let s ← forRange 0 length (fillStep r.removed) (List.replicate length 0, r.mapToOriginal)
  return s.1

/-- Follow a pending permutation by another one. -/
def composePermutation (pending : SubChange E) (lo hi : Int) (perm : List Int) :
    Except JavaException (SubChange E) := do
  if lo = pending.from ∧ hi = pending.to then
    let newPerm ← forRange 0 perm.length (fun i p => do setAt p i (← getAt perm ((← getAt p i) - lo))) pending.perm
    return { pending with perm := newPerm }
  else
    let newTo := max pending.to hi
    let newFrom := min pending.from lo
    let newPerm ← tabulate newFrom newTo (fun i => do
      if i < pending.from ∨ pending.to ≤ i then getAt perm (i - lo)
      else
        let p ← getAt pending.perm (i - pending.from)
        if p < lo ∨ hi ≤ p then return p else getAt perm (p - lo))
    return { pending with «from» := newFrom, «to» := newTo, perm := newPerm }

/-- The new places of the added elements, and of the removed runs.  A run is
filed under the new place of the element its record starts at. -/
def rearrangeStep (lo hi : Int) (perm : List Int)
    (s : List Int × List (Int × List E)) (change : SubChange E) :
    Except JavaException (List Int × List (Int × List E)) := do
  let newAdded ← forRange change.from change.to (fun c added => do return treeSetAdd (← moved lo hi perm c) added) s.1
  match change.removed with
  | some removed => return (newAdded, hashMapPut (← moved lo hi perm change.from) removed s.2)
  | none => return (newAdded, s.2)

/-- Grow the last record by position `i`, or open a new one. -/
def collect (updated : Bool) (i : Int) (records : List (SubChange E)) : List (SubChange E) :=
  match records.getLast? with
  | some last =>
    if last.to ≠ i then records ++ [⟨i, i + 1, none, [], updated⟩]
    else records.dropLast ++ [{ last with «to» := i + 1 }]
  | none => records ++ [⟨i, i + 1, none, [], updated⟩]

/-- The last record takes a removed run in. -/
def attachRemoved (removed : List E) (records : List (SubChange E)) : List (SubChange E) :=
  match records.getLast? with
  | some last => records.dropLast ++ [{ last with removed := some (last.getRemoved ++ removed) }]
  | none => records

def rebuildStep (s : List (SubChange E) × List (Int × List E)) (i : Int) :
    List (SubChange E) × List (Int × List E) :=
  let records := collect false i s.1
  match hashMapRemove i s.2 with
  | (some removed, rest) => (attachRemoved removed records, rest)
  | (none, rest) => (records, rest)

/-- A removed run that no added element claimed gets a record of its own. -/
def insertRun (records : List (SubChange E)) (entry : Int × List E) :
    Except JavaException (List (SubChange E)) :=
  match findSubChange entry.1 records with
  | .found _ => .error .indexOutOfBounds
  | .missing idx => .ok (records.insertIdx idx ⟨entry.1, entry.1, some entry.2, [], false⟩)

def rearrange (lo hi : Int) (perm : List Int) (records : List (SubChange E)) :
    Except JavaException (List (SubChange E)) := do
  let (newAdded, newRemoved) ← records.foldlM (rearrangeStep lo hi perm) ([], [])
  let (rebuilt, unclaimed) := newAdded.foldl rebuildStep ([], newRemoved)
  unclaimed.foldlM insertRun rebuilt

def rearrangeUpdates (lo hi : Int) (perm : List Int) (updates : List (SubChange E)) :
    Except JavaException (List (SubChange E)) := do
  let newUpdated ← updates.foldlM (fun added (change : SubChange E) =>
    forRange change.from change.to (fun c added => do return treeSetAdd (← moved lo hi perm c) added) added) []
  return newUpdated.foldl (fun records i => collect true i records) []

/-- The permutation of the original list that a call stands for. -/
def prePermutation (lo hi : Int) (perm : List Int) (size : Nat) (records : List (SubChange E)) :
    Except JavaException (Int × Int × List Int) :=
  if records.isEmpty then .ok (lo, hi, perm)
  else (originalPerm lo hi perm size records).map fun newPerm => (0, (newPerm.length : Int), newPerm)

/-- It follows the one that is pending, or is the first. -/
def follow (pending : Option (SubChange E)) (pre : Int × Int × List Int) : Except JavaException (SubChange E) :=
  match pending with
  | some pending => composePermutation pending pre.1 pre.2.1 pre.2.2
  | none => .ok ⟨pre.1, pre.2.1, none, pre.2.2, false⟩

/-- `nextPermutation(from, to, perm)` on a list of `size` elements, with an array the builder does
not hold. -/
def nextPermutation (lo hi : Int) (perm : List Int) (size : Nat) (b : ListChangeBuilder E) :
    Except JavaException (ListChangeBuilder E) := do
  b.checkState
  let pre ← prePermutation lo hi perm size b.addRemoveChanges
  let permutationChange ← follow b.permutationChange pre
  let addRemoveChanges ←
    if b.addRemoveChanges.isEmpty then pure b.addRemoveChanges
    else rearrange lo hi perm b.addRemoveChanges
  let updateChanges ←
    if b.updateChanges.isEmpty then pure b.updateChanges
    else rearrangeUpdates lo hi perm b.updateChanges
  return { b with
    permutationChange := some permutationChange
    addRemoveChanges := addRemoveChanges
    updateChanges := updateChanges }

/-! ### Arrays -/

/-- The builder, and the caller's array that its pending permutation is, if it is one. -/
structure Holding (E : Type) where
  builder : ListChangeBuilder E
  array : Option Nat := none

/-- The loop of `composePermutation` where both permutations are one array. -/
def composeSelf (pending : SubChange E) : Except JavaException (SubChange E) :=
  (forRange 0 pending.perm.length (fun i p => do setAt p i (← getAt p ((← getAt p i) - pending.from)))
    pending.perm).map fun p => { pending with perm := p }

/-- The first permutation keeps its array, unless it had to be reconstructed, and one of another
range gets a new array. -/
def keptArray (array : Nat) (pre : Int × Int × List Int) (s : Holding E) : Option Nat :=
  match s.builder.permutationChange with
  | some c => if pre.1 = c.from ∧ pre.2.1 = c.to then s.array else none
  | none => if s.builder.addRemoveChanges.isEmpty then some array else none

/-- `nextPermutation(from, to, perm)` with the array object `array`, which holds `perm` when it is
passed. -/
def passPermutation (lo hi : Int) (array : Nat) (perm : List Int) (size : Nat) (s : Holding E) :
    Except JavaException (Holding E) := do
  let b := s.builder
  b.checkState
  let pre ← prePermutation lo hi perm size b.addRemoveChanges
  if s.array = some array then
    let same := b.permutationChange.any fun c => pre.1 = c.from ∧ pre.2.1 = c.to
    -- what the caller has put into the array is pending already
    let permutationChange ←
      match b.permutationChange.map fun c => { c with perm := perm } with
      | some c => if same ∧ b.addRemoveChanges.isEmpty then composeSelf c else follow (some c) pre
      | none => follow none pre
    -- and what has been written into it moves the records
    let perm := if same then permutationChange.perm else perm
    let addRemoveChanges ← rearrange lo hi perm b.addRemoveChanges
    let updateChanges ← rearrangeUpdates lo hi perm b.updateChanges
    return ⟨{ b with
      permutationChange := some permutationChange
      addRemoveChanges := addRemoveChanges
      updateChanges := updateChanges }, keptArray array pre s⟩
  else return ⟨← b.nextPermutation lo hi perm size, keptArray array pre s⟩

/-! ### Committing -/

/-- Join neighbouring records; the `null`s the sources leave behind are skipped.
`addAll` of a `null` list throws. -/
def compress : List (SubChange E) → Except JavaException (List (SubChange E))
  | [] => .ok []
  | prev :: rest => go prev rest
where
  go (prev : SubChange E) : List (SubChange E) → Except JavaException (List (SubChange E))
    | [] => .ok [prev]
    | cur :: rest =>
      if prev.to = cur.from then
        match prev.removed, cur.removed with
        | none, none => go { prev with «to» := cur.to } rest
        | some _, none => .error .nullPointer
        | removed, some more =>
          go { prev with «to» := cur.to, removed := some (removed.getD [] ++ more) } rest
      else (go cur rest).map (prev :: ·)

/-- `null` becomes the empty list. -/
def finalizeSubChange (c : SubChange E) : SubChange E := { c with removed := some c.getRemoved }

/-- The records a commit hands out. -/
def pending (b : ListChangeBuilder E) : Except JavaException (List (SubChange E)) := do
  let totalSize := b.updateChanges.length + b.addRemoveChanges.length + (if b.permutationChange.isSome then 1 else 0)
  if totalSize = 1 then
    return (b.permutationChange.toList ++ b.addRemoveChanges ++ b.updateChanges).map finalizeSubChange
  else
    let updates ← compress b.updateChanges
    let records ← compress b.addRemoveChanges
    return (b.permutationChange.toList ++ records ++ updates).map finalizeSubChange

def commit (list : List E) (b : ListChangeBuilder E) :
    Except JavaException (ListChangeBuilder E × Option (Change E)) := do
  if b.changeLock = 0 ∧ (b.addRemoveChanges ≠ [] ∨ b.updateChanges ≠ [] ∨ b.permutationChange.isSome) then
    return ({ b with addRemoveChanges := [], updateChanges := [], permutationChange := none }, some ⟨list, ← b.pending⟩)
  else return (b, none)

def beginChange (b : ListChangeBuilder E) : ListChangeBuilder E :=
  { b with changeLock := b.changeLock + 1 }

/-- The outermost `endChange` hands out what is pending, if anything is. -/
def endChange (list : List E) (b : ListChangeBuilder E) :
    Except JavaException (ListChangeBuilder E × Option (Change E)) :=
  if b.changeLock = 0 then .error (.illegalState "Called endChange before beginChange")
  else commit list { b with changeLock := b.changeLock - 1 }

end ListChangeBuilder

end JavaFX
