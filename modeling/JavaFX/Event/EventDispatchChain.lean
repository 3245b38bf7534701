/-
`com.sun.javafx.event.EventDispatchChainImpl`.

The chain is a linked list in two arrays.  Slots below `reservedCount` are in use, here
or in a call further out.  An array that has not been allocated yet is an empty one.

A dispatcher gets the event and the chain itself.  What it does with them is a
`Relay.Script`: any number of `append`, `prepend` and `dispatchEvent` calls on that
chain, in any order, and anything else as a change of the world `W`.  A call that throws
does not put the chain back; a dispatcher may catch the exception and go on.
-/
import JavaFX.Runtime
import JavaFX.Lib.Relay

namespace JavaFX

open Relay

structure EventDispatchChain (D : Type) where
  dispatchers : List (Option D) := []
  nextLinks : List Nat := []
  reservedCount : Nat := 0
  activeCount : Nat := 0
  headIndex : Nat := 0
  tailIndex : Nat := 0
deriving DecidableEq, Repr

namespace EventDispatchChain

variable {D W E : Type}

def capacityGrowthFactor : Nat := 8

def reset (c : EventDispatchChain D) : Except JavaException (EventDispatchChain D) := do
  let dispatchers ← forRange 0 c.reservedCount (fun i a => setAt a i none) c.dispatchers
  return { c with
    dispatchers, reservedCount := 0, activeCount := 0, headIndex := 0, tailIndex := 0 }

def ensureCapacity (size : Nat) (c : EventDispatchChain D) :
    Except JavaException (EventDispatchChain D) := do
  -- `(size + 7) & ~7`
  let newCapacity := (size + capacityGrowthFactor - 1) / capacityGrowthFactor * capacityGrowthFactor
  if newCapacity = 0 then return c
  if c.dispatchers.length < newCapacity then
    let newDispatchers : List (Option D) := List.replicate newCapacity none
    let newLinks := List.replicate newCapacity 0
    if 0 < c.reservedCount then
      let newDispatchers ← arraycopy c.dispatchers 0 newDispatchers 0 c.reservedCount
      let newLinks ← arraycopy c.nextLinks 0 newLinks 0 c.reservedCount
      return { c with dispatchers := newDispatchers, nextLinks := newLinks }
    else
      return { c with dispatchers := newDispatchers, nextLinks := newLinks }
  else
    return c

def insertFirst (eventDispatcher : Option D) (c : EventDispatchChain D) :
    Except JavaException (EventDispatchChain D) := do
  let dispatchers ← setAt c.dispatchers c.reservedCount eventDispatcher
  return { c with
    dispatchers
    headIndex := c.reservedCount
    tailIndex := c.reservedCount
    activeCount := 1
    reservedCount := c.reservedCount + 1 }

def append (eventDispatcher : Option D) (c : EventDispatchChain D) :
    Except JavaException (EventDispatchChain D) := do
  let c ← c.ensureCapacity (c.reservedCount + 1)
  if c.activeCount = 0 then
    c.insertFirst eventDispatcher
  else
    let dispatchers ← setAt c.dispatchers c.reservedCount eventDispatcher
    let nextLinks ← setAt c.nextLinks c.tailIndex c.reservedCount
    return { c with
      dispatchers
      nextLinks
      tailIndex := c.reservedCount
      activeCount := c.activeCount + 1
      reservedCount := c.reservedCount + 1 }

def prepend (eventDispatcher : Option D) (c : EventDispatchChain D) :
    Except JavaException (EventDispatchChain D) := do
  let c ← c.ensureCapacity (c.reservedCount + 1)
  if c.activeCount = 0 then
    c.insertFirst eventDispatcher
  else
    let dispatchers ← setAt c.dispatchers c.reservedCount eventDispatcher
    let nextLinks ← setAt c.nextLinks c.reservedCount c.headIndex
    return { c with
      dispatchers
      nextLinks
      headIndex := c.reservedCount
      activeCount := c.activeCount + 1
      reservedCount := c.reservedCount + 1 }

/-- `dispatchEvent` up to the call of the dispatcher, and what it does when that call
returns: the saved state is popped, the arrays stay as they are. -/
def take (c : EventDispatchChain D) :
    Except JavaException
      (Option (Option D × EventDispatchChain D × (EventDispatchChain D → EventDispatchChain D))) := do
  if c.activeCount = 0 then return none
  let nextEventDispatcher ← getAt c.dispatchers c.headIndex
  let headIndex ← getAt c.nextLinks c.headIndex
  return some (nextEventDispatcher, { c with headIndex, activeCount := c.activeCount - 1 }, fun inner => { inner with
      headIndex := c.headIndex
      tailIndex := c.tailIndex
      activeCount := c.activeCount
      reservedCount := c.reservedCount })

def ops : Ops JavaException (EventDispatchChain D) (Option D) where
  append := append
  prepend := prepend
  take := take

/-- What a slot does with an event.  `null.dispatchEvent(..)` throws. -/
def callDispatcher (dispatch : D → E → Script W (Option D) E) : Option D → E → Script W (Option D) E
  | none, _ => .fail
  | some dispatcher, event => dispatch dispatcher event

/-- `dispatchEvent`, where `dispatch` is what the dispatchers do.  `none` if calls are
nested deeper than `depth`. -/
def dispatchEvent (dispatch : D → E → Script W (Option D) E) (depth : Nat) (event : E) (w : W)
    (c : EventDispatchChain D) : Run W E (EventDispatchChain D) :=
  send ops (callDispatcher dispatch) depth event w c

/-- The dispatchers of the chain, in order. -/
def toList (c : EventDispatchChain D) : List (Option D) :=
  go c.activeCount c.headIndex
where
  go : Nat → Nat → List (Option D)
    | 0, _ => []
    | n + 1, i => (c.dispatchers[i]?).join :: go n (c.nextLinks.getD i 0)

/-- A chain as it can be before a `dispatchEvent` call: at the top, or in a dispatcher
that has been called with it. -/
inductive Reached (dispatch : D → E → Script W (Option D) E) : EventDispatchChain D → Prop
  | new : Reached dispatch {}
  | reset {c c'} : Reached dispatch c → c.reset = .ok c' → Reached dispatch c'
  | append {c c'} (d : Option D) : Reached dispatch c → c.append d = .ok c' → Reached dispatch c'
  | prepend {c c'} (d : Option D) : Reached dispatch c → c.prepend d = .ok c' → Reached dispatch c'
  | called {c d rest restore} : Reached dispatch c → c.take = .ok (some (d, rest, restore)) →
      Reached dispatch rest
  | dispatched {c c'} (depth : Nat) (event : E) (w w' : W) (outcome : Outcome E) :
      Reached dispatch c → c.dispatchEvent dispatch depth event w = some (outcome, w', c') →
      Reached dispatch c'

end EventDispatchChain

/-! ### What it stands for -/

/-- An immutable list of dispatchers: whatever is done to the rest, the list is the same
when the call returns. -/
def immutableList {D : Type} : Ops JavaException (List D) D where
  append := fun d l => .ok (l ++ [d])
  prepend := fun d l => .ok (d :: l)
  take := fun
    | [] => .ok none
    | d :: l => .ok (some (d, l, fun _ => d :: l))

end JavaFX
