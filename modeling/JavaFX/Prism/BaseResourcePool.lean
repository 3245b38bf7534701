/-
Pools of graphics resources.

A pool keeps a list of weak references to its resources, each with the size it was entered with,
and the sum of these sizes.  Room is made in stages, each of which walks the list and frees what
its test allows; resources that have gone by themselves are unlinked on the way.

A resource is a number, the place of its object among the objects there have ever been.  A weak
reference that the collector has cleared is one to a collected object.  What the collector, the
`Disposer` and other threads do while room is made is an argument: it happens before one of the
walks.  Sizes are natural numbers and sums do not overflow.
-/
import JavaFX.Runtime
import JavaFX.Lib.Program

namespace JavaFX

/-- `R` are the resources themselves; a resource that has been freed is null. -/
structure ManagedResource (R : Type) where
  resource : Option R
  lockcount : Nat
  employcount : Nat
  permanent : Bool
  mismatchDetected : Bool
  disposalRequested : Bool
  age : Nat
  collected : Bool
deriving Repr, DecidableEq

namespace ManagedResource

variable {R : Type} (mr : ManagedResource R)

def isValid : Bool := mr.resource.isSome && !mr.disposalRequested

def isLocked : Bool := decide (mr.lockcount > 0)

def isInteresting : Bool := decide (mr.employcount > 0)

/-- `free()`, after which the resource is null. -/
def freed : ManagedResource R := { mr with resource := none }

/-- Freed because somebody wanted it. -/
def disposed : ManagedResource R := { mr with resource := none, disposalRequested := false }

def lock : ManagedResource R := { mr with lockcount := mr.lockcount + 1, age := 0 }

def unlockall : ManagedResource R := { mr with lockcount := 0 }

def bumpAge (forever : Nat) : ManagedResource R :=
  if mr.age < forever then { mr with age := mr.age + 1 } else mr

end ManagedResource

/-- A link of the list. -/
structure WeakLink where
  theResourceRef : Nat
  size : Nat
deriving Repr, DecidableEq

structure BaseResourcePool (R : Type) where
  managedSize : Int
  origTarget : Int
  curTarget : Int
  maxSize : Int
  /-- The links after `resourceHead`. -/
  links : List WeakLink
  /-- The objects there have ever been. -/
  objects : List (ManagedResource R)
deriving Repr, DecidableEq

namespace BaseResourcePool

def FOREVER : Nat := 1024
def RECENTLY_USEFUL : Nat := 100
def RECENT : Nat := 10

section
variable {R : Type}

abbrev Call (R : Type) := Program JavaException (BaseResourcePool R)

/-- The constructor, for a pool without a shared parent. -/
def new (target max : Int) : BaseResourcePool R where
  managedSize := 0
  origTarget := target
  curTarget := target
  maxSize := max
  links := []
  objects := []

/-- `theResourceRef.get()`. -/
def getResource (p : BaseResourcePool R) (i : Nat) : Option (ManagedResource R) :=
  p.objects[i]?.filter fun mr => !mr.collected

/-- A call changes the fields of an object. -/
def update (i : Nat) (f : ManagedResource R → ManagedResource R) : Call R Unit :=
  Program.modify fun p => { p with objects := p.objects.modify i f }

def setTarget (newTarget : Int) : Call R Unit := fun p =>
  if newTarget > p.maxSize then (.error .illegalArgument, p)
  else if newTarget < p.origTarget then (.error .illegalArgument, p)
  else (.ok (), { p with curTarget := newTarget })

def recordAllocated (size : Nat) : Call R Unit :=
  Program.modify fun p => { p with managedSize := p.managedSize + size }

def recordFree (size : Nat) : Call R Unit := do
  Program.modify fun p => { p with managedSize := p.managedSize - size }
  let managedSize ← Program.read fun p => p.managedSize
  if managedSize < 0 then Program.throw (.illegalState "Negative resource amount") else pure ()

/-- `prev.next = cur.next`, with the links up to `prev` and the links after `cur`. -/
def unlink (kept rest : List WeakLink) : Call R Unit :=
  Program.modify fun p => { p with links := kept ++ rest }

/-! ### Resources that go -/

/-- `_isgone`: a resource whose disposal has been requested is freed here. -/
def isgone (i : Nat) : Call R Bool := fun p =>
  match p.getResource i with
  | none => (.ok true, p)
  | some mr =>
    if mr.disposalRequested then
      (do
        update i ManagedResource.disposed
        return true : Call R Bool) p
    else (.ok (!mr.isValid), p)

/-- The walk of `resourceFreed`. -/
def resourceFreed (freed : Nat) (kept : List WeakLink) : List WeakLink → Call R Unit
  | [] => pure ()
  | cur :: rest => do
    let res ← Program.read fun p => p.getResource cur.theResourceRef
    if res.isNone ∨ cur.theResourceRef = freed then do
      recordFree cur.size
      unlink kept rest
      if res.isSome then pure () else resourceFreed freed kept rest
    else resourceFreed freed (kept ++ [cur]) rest

/-- `dispose()`, on the manager thread or on another one. -/
def dispose (i : Nat) (isManagerThread : Bool) : Call R Unit := fun p =>
  match p.getResource i with
  | none => (.ok (), p)
  | some mr =>
    (if isManagerThread then
      if mr.resource.isSome then do
        update i ManagedResource.disposed
        let links ← Program.read fun p => p.links
        resourceFreed i [] links
      else pure ()
    else update i fun mr => { mr with disposalRequested := true } : Call R Unit) p

/-- What can happen at any moment. -/
inductive Event
  | collected (i : Nat)
  | dispose (i : Nat) (isManagerThread : Bool)
deriving Repr, DecidableEq

def happen : Event → Call R Unit
  | .collected i => update i fun mr => { mr with collected := true }
  | .dispose i isManagerThread => BaseResourcePool.dispose i isManagerThread

/-! ### Making room -/

/-- The walk of `cleanup(predicate)`. -/
def prune (predicate : ManagedResource R → Bool) (kept : List WeakLink) :
    List WeakLink → Call R Unit
  | [] => pure ()
  | cur :: rest => do
    let gone ← isgone cur.theResourceRef
    if gone then do
      recordFree cur.size
      unlink kept rest
      prune predicate kept rest
    else do
      let mr ← Program.read fun p => p.getResource cur.theResourceRef
      if mr.any fun mr => !mr.permanent && !mr.isLocked && predicate mr then do
        update cur.theResourceRef ManagedResource.freed
        recordFree cur.size
        unlink kept rest
        prune predicate kept rest
      else prune predicate (kept ++ [cur]) rest

/-- `cleanup(predicate)`, after the events before it. -/
def cleanupPass (events : List Event) (predicate : ManagedResource R → Bool) : Call R Unit := do
  Program.forEach happen events
  let links ← Program.read fun p => p.links
  prune predicate [] links

def stageTesters : List (ManagedResource R → Bool) :=
  [fun mr => !mr.isInteresting && decide (mr.age > FOREVER),
   fun mr => !mr.isInteresting && decide (mr.age > FOREVER / 2),
   fun mr => !mr.isInteresting && decide (mr.age > RECENT),
   fun mr => decide (mr.age > FOREVER),
   fun mr => decide (mr.age > FOREVER / 2),
   fun mr => decide (mr.age > RECENTLY_USEFUL)]

/-- `used() + size <= target()`. -/
def fits (size : Int) : Call R Bool :=
  Program.read fun p => decide (p.managedSize + size ≤ p.curTarget)

/-- The walks with the tests of the stages, until there is as much room as is wanted. -/
def pruneStages (events : Nat → List Event) (wanted : Int) :
    Nat → List (ManagedResource R → Bool) → Call R Bool
  | _, [] => pure false
  | stage, test :: tests => do
    cleanupPass (events stage) test
    let enough ← fits wanted
    if enough then return true else pruneStages events wanted (stage + 1) tests

/-- Two tries with everything that is not in use. -/
def pruneLastChances (events : Nat → List Event) (needed : Int) : Nat → Nat → Call R Bool
  | _, 0 => pure false
  | stage, tries + 1 => do
    cleanupPass (events stage) fun _ => true
    let room ← Program.read fun p => decide (p.managedSize + needed ≤ p.maxSize)
    if room then do
      let enough ← fits needed
      if enough then return true
      else do
        let used ← Program.read fun p => p.managedSize
        setTarget (used + needed)
        return true
    else pruneLastChances events needed (stage + 1) tries

/-- Grow the target, or else look for what the garbage collector has found. -/
def growOrPrune (events : Nat → List Event) (needed wanted : Int) : Call R Bool := do
  let rem ← Program.read fun p => p.maxSize - p.managedSize
  let wanted := if wanted > rem then needed else wanted
  if wanted ≤ rem then do
    let grow ← Program.read fun p => (p.maxSize - p.origTarget).tdiv 32
    let grow := if grow < wanted then wanted else if grow > rem then rem else grow
    let used ← Program.read fun p => p.managedSize
    setTarget (used + grow)
    return true
  else pruneLastChances events needed 7 2

/-- `cleanup(needed)`; `events k` happens before the walk `k`. -/
def cleanup (events : Nat → List Event) (needed : Int) : Call R Bool := do
  let enough ← fits needed
  if enough then return true
  else do
    let share ← Program.read fun p => p.curTarget.tdiv 16
    let wanted := if share < needed then needed else share
    let done ← pruneStages events wanted 0 ((fun _ => false) :: stageTesters)
    if done then return true else growOrPrune events needed wanted

/-! ### Between two frames -/

/-- What the check between two frames does to a resource that is there. -/
def checked (forgiveStaleLocks : Bool) (mr : ManagedResource R) : ManagedResource R :=
  if mr.permanent then mr
  else
    let mr :=
      if mr.isLocked && !mr.mismatchDetected then
        if forgiveStaleLocks then mr.unlockall else { mr with mismatchDetected := true }
      else mr
    mr.bumpAge FOREVER

/-- The walk of `freeDisposalRequestedAndCheckResources`. -/
def check (forgiveStaleLocks : Bool) (kept : List WeakLink) : List WeakLink → Call R Unit
  | [] => pure ()
  | cur :: rest => do
    let gone ← isgone cur.theResourceRef
    if gone then do
      recordFree cur.size
      unlink kept rest
      check forgiveStaleLocks kept rest
    else do
      update cur.theResourceRef (checked forgiveStaleLocks)
      check forgiveStaleLocks (kept ++ [cur]) rest

def freeDisposalRequestedAndCheckResources (forgiveStaleLocks : Bool) : Call R Unit := do
  let links ← Program.read fun p => p.links
  check forgiveStaleLocks [] links

end

/-! ### Runs -/

section
variable {R : Type} (size : R → Nat)

/-- The constructor of a resource: it is entered into the pool and locked. -/
def resourceManaged (resource : R) : Call R Unit := do
  let i ← Program.read fun p => p.objects.length
  Program.modify fun p => { p with
    objects := p.objects ++ [{ resource := some resource, lockcount := 0, employcount := 0,
                               permanent := false, mismatchDetected := false,
                               disposalRequested := false, age := 0, collected := false }]
    links := ⟨i, size resource⟩ :: p.links }
  recordAllocated (size resource)
  update i ManagedResource.lock

/-- A call on an object that somebody still has; it asserts something first. -/
def onResource (i : Nat) (assertion : ManagedResource R → Bool) (message : String)
    (f : ManagedResource R → ManagedResource R) : Call R Unit := fun p =>
  match p.getResource i with
  | none => (.ok (), p)
  | some mr => if assertion mr then update i f p else (.error (.illegalState message), p)

inductive Operation (R : Type)
  | resourceManaged (resource : R)
  | lock (i : Nat)
  | unlock (i : Nat)
  | makePermanent (i : Nat)
  | contentsUseful (i : Nat)
  | contentsNotUseful (i : Nat)
  | happen (event : Event)
  | freeDisposalRequestedAndCheckResources (forgiveStaleLocks : Bool)
  | cleanup (events : Nat → List Event) (needed : Int)

def operate : Operation R → Call R Unit
  | .resourceManaged resource => resourceManaged size resource
  | .lock i => onResource i (fun _ => true) "" ManagedResource.lock
  | .unlock i =>
    onResource i ManagedResource.isLocked "Operation requires resource lock" fun mr =>
      { mr with lockcount := mr.lockcount - 1 }
  | .makePermanent i =>
    onResource i ManagedResource.isLocked "Operation requires resource lock" fun mr =>
      { mr with permanent := true }
  | .contentsUseful i =>
    onResource i ManagedResource.isLocked "Operation requires resource lock" fun mr =>
      { mr with employcount := mr.employcount + 1 }
  | .contentsNotUseful i =>
    onResource i ManagedResource.isInteresting "Resource obsoleted too many times" fun mr =>
      { mr with employcount := mr.employcount - 1 }
  | .happen event => BaseResourcePool.happen event
  | .freeDisposalRequestedAndCheckResources forgiveStaleLocks =>
    BaseResourcePool.freeDisposalRequestedAndCheckResources forgiveStaleLocks
  | .cleanup events needed => do
    let _ ← BaseResourcePool.cleanup events needed
    pure ()

def run (ops : List (Operation R)) (p : BaseResourcePool R) : BaseResourcePool R :=
  ops.foldl (fun p op => (operate size op p).2) p

end

end BaseResourcePool

end JavaFX
