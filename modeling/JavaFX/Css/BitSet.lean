/-
`com.sun.javafx.css.BitSet`, the sets of pseudo-classes and of style classes.

The registry of such a class numbers its elements, and `getT` and `getIndex` go from
one to the other.  An element is its number here.  A set is an array of words of 64
bits.  The array only ever gets as long as it has to be, so two sets can hold the same
elements in arrays of different lengths.

The loops of the iterator and of `toArray` are given fuel; what runs out of it has no result.
-/
import JavaFX.Runtime
import Mathlib.Data.List.Nodup
import Mathlib.Order.BooleanAlgebra.Set
import Mathlib.Algebra.GroupWithZero.Nat

namespace JavaFX

/-- A word. -/
abbrev Long := BitVec 64

/-- What a listener of a set is told. -/
structure SetChange where
  element : Nat
  removed : Bool
deriving DecidableEq, Repr

structure BitSet where
  bits : List Long := []
  /-- `SetListenerHelper.hasListeners(listenerHelper)` -/
  hasListeners : Bool := false
deriving DecidableEq, Repr

namespace BitSet

/-- What a call leaves behind, what it returns, and what it fires. -/
structure Result where
  set : BitSet
  modified : Bool
  fired : List SetChange := []
deriving DecidableEq, Repr

/-- `1l << index`. -/
def mask (index : Nat) : Long := 1#64 <<< index

/-- A word of the set, zero behind the end of the array. -/
def word (s : BitSet) (n : Nat) : Long := s.bits.getD n 0

/-- `notifyObservers(element, removed)`. -/
def notifyObservers (s : BitSet) (element : Nat) (removed : Bool) : List SetChange :=
  if s.hasListeners then [⟨element, removed⟩] else []

/-- The loop over the bits of a word that notifies the observers of each one. -/
def notifyBits (s : BitSet) (n : Nat) (bits : Long) (removed : Bool) : List SetChange :=
  (List.range 64).flatMap fun bit =>
    if mask bit &&& bits = mask bit then s.notifyObservers (n * 64 + bit) removed else []

/-- `Long.bitCount(mask)`. -/
def bitCount (mask : Long) : Nat := (List.range 64).countP mask.getLsbD

def size (s : BitSet) : Nat := (s.bits.map bitCount).sum

def isEmpty (s : BitSet) : Bool := s.bits.all (· = 0)

/-! ### One element -/

def add (t : Option Nat) (s : BitSet) : Result :=
  match t with
  | none => ⟨s, false, []⟩
  | some t =>
    let element := t / 64
    let bit := mask (t % 64)
    let bits := s.bits ++ List.replicate (element + 1 - s.bits.length) 0
    let temp := bits.getD element 0
    let bits := bits.set element (temp ||| bit)
    let modified := bits.getD element 0 ≠ temp
    ⟨{ s with bits }, modified, if modified then s.notifyObservers t false else []⟩

def remove (o : Option Nat) (s : BitSet) : Result :=
  match o with
  | none => ⟨s, false, []⟩
  | some t =>
    let element := t / 64
    let bit := mask (t % 64)
    if s.bits.length ≤ element then ⟨s, false, []⟩
    else
      let temp := s.bits.getD element 0
      let bits := s.bits.set element (temp &&& ~~~bit)
      let modified := bits.getD element 0 ≠ temp
      if modified then
        ⟨{ s with bits := if ({ s with bits } : BitSet).isEmpty then [] else bits }, true, s.notifyObservers t true⟩
      else ⟨{ s with bits }, false, []⟩

def contains (o : Option Nat) (s : BitSet) : Bool :=
  match o with
  | none => false
  | some t => t / 64 < s.bits.length ∧ s.word (t / 64) &&& mask (t % 64) = mask (t % 64)

/-! ### Two sets

The argument is a set of the same class, or `none` for anything else. -/

def containsAll (c : Option BitSet) (s : BitSet) : Bool :=
  match c with
  | none => false
  | some other =>
    if s.bits.length = 0 ∧ other.bits.length = 0 then true
    else if s.bits.length < other.bits.length then false
    else (List.range other.bits.length).all fun n => s.word n &&& other.word n = other.word n

def addAll (c : Option BitSet) (s : BitSet) : Result :=
  match c with
  | none => ⟨s, false, []⟩
  | some other =>
    let a := s.bits.length
    let b := other.bits.length
    let max := if a < b then b else a
    let union := (List.range max).map fun n =>
      if n < a ∧ n < b then s.word n ||| other.word n else if n < a then s.word n else other.word n
    let modified := (List.range max).any fun n =>
      if n < a ∧ n < b then union.getD n 0 ≠ s.word n else if n < a then false else true
    if modified then
      let fired := (List.range max).flatMap fun n =>
        if n < a ∧ n < b then s.notifyBits n (~~~s.word n &&& other.word n) false
        else if n < a then [] else s.notifyBits n (other.word n) false
      ⟨{ s with bits := union }, true, if s.hasListeners then fired else []⟩
    else ⟨s, false, []⟩

def clear (s : BitSet) : BitSet × List SetChange :=
  ({ s with bits := [] }, (List.range s.bits.length).flatMap fun n => s.notifyBits n (s.word n) true)

def retainAll (c : Option BitSet) (s : BitSet) : Result :=
  match c with
  | none => ⟨s.clear.1, true, s.clear.2⟩
  | some other =>
    let a := s.bits.length
    let b := other.bits.length
    let max := if a < b then a else b
    let intersection := (List.range max).map fun n => s.word n &&& other.word n
    let modified := max < a ∨ (List.range max).any fun n => intersection.getD n 0 ≠ s.word n
    let isEmpty := intersection.all (· = 0)
    if modified then
      let fired := (List.range a).flatMap fun n =>
        if n < b then s.notifyBits n (s.word n &&& ~~~other.word n) true
        else s.notifyBits n (s.word n) true
      ⟨{ s with bits := if isEmpty then [] else intersection }, true,
        if s.hasListeners then fired else []⟩
    else ⟨s, false, []⟩

def removeAll (c : Option BitSet) (s : BitSet) : Result :=
  match c with
  | none => ⟨s, false, []⟩
  | some other =>
    let a := s.bits.length
    let b := other.bits.length
    let max := if a < b then a else b
    -- As long as the shorter of the two arrays, not as long as the one of this set.
    let difference := (List.range max).map fun n => s.word n &&& ~~~other.word n
    let modified := (List.range max).any fun n => difference.getD n 0 ≠ s.word n
    let isEmpty := difference.all (· = 0)
    if modified then
      let fired := (List.range max).flatMap fun n =>
        s.notifyBits n (s.word n &&& other.word n) true
      ⟨{ s with bits := if isEmpty then [] else difference }, true,
        if s.hasListeners then fired else []⟩
    else ⟨s, false, []⟩

/-! ### Queries -/

/-- `hashCode()`, in the 32 bits of an `int`. -/
def hashCode (s : BitSet) : BitVec 32 :=
  s.bits.foldl (fun (hash : BitVec 32) (mask : Long) => 71 * hash + (mask ^^^ (mask >>> 32)).setWidth 32) 7

def equals (obj : Option BitSet) (s : BitSet) : Bool :=
  match obj with
  | none => false
  | some other =>
    if s.bits.length ≠ other.bits.length then false
    else (List.range s.bits.length).all fun m => s.word m = other.word m

/-- The iterator: `next` is the bit it stands on, `element` the word, and `index` the element
`hasNext` has found. -/
structure Iter where
  next : Int := -1
  element : Nat := 0
  index : Int := -1
deriving DecidableEq, Repr

/-- The loop of `hasNext`, with fuel for its rounds. -/
def hasNextLoop (s : BitSet) : Nat → Iter → Except JavaException (Option (Bool × Iter))
  | 0, _ => .ok none
  | fuel + 1, it =>
    let next := it.next + 1
    let element := if next ≥ 64 then it.element + 1 else it.element
    if next ≥ 64 ∧ ¬ element < s.bits.length then .ok (some (false, { it with next, element }))
    else do
      let next := if next ≥ 64 then 0 else next
      let mask ← getAt s.bits element
      if BitSet.mask next.toNat &&& mask = BitSet.mask next.toNat then
        return some (true, ⟨next, element, 64 * element + next⟩)
      else hasNextLoop s fuel { it with next, element }

def hasNext (s : BitSet) (fuel : Nat) (it : Iter) : Except JavaException (Option (Bool × Iter)) :=
  if s.bits.length = 0 then .ok (some (false, it)) else hasNextLoop s fuel it

/-- `while (it.hasNext()) it.next()`: the elements that come out. -/
def iterate (s : BitSet) : Nat → Iter → Except JavaException (Option (List Int))
  | 0, _ => .ok none
  | fuel + 1, it => do
    match ← hasNext s fuel it with
    | none => return none
    | some (false, _) => return some []
    | some (true, it) => return (← iterate s fuel it).map (it.index :: ·)

/-- `PseudoClassState.getPseudoClass(index)`, where `registered` is the size of the registry. -/
def getPseudoClass (registered n : Nat) : Option Nat := if n < registered then some n else none

/-- The body of the inner loop of `toArray`: `index` counts the words and the elements. -/
def writeBit (registered : Nat) (state : Long) (bit : Nat) (index : Nat) (a : List (Option Nat)) :
    Except JavaException (Nat × List (Option Nat)) :=
  if state &&& mask bit = mask bit then do
    let n := index * 64 + bit
    let a ← setAt a index (getPseudoClass registered n)
    return (index + 1, a)
  else .ok (index, a)

/-- The inner loop of `toArray`. -/
def writeBits (registered : Nat) (state : Long) :
    List Nat → Nat → List (Option Nat) → Except JavaException (Nat × List (Option Nat))
  | [], index, a => .ok (index, a)
  | bit :: bits, index, a => do
    let (index, a) ← writeBit registered state bit index a
    writeBits registered state bits index a

/-- The outer loop of `toArray`. -/
def toArrayLoop (registered : Nat) (s : BitSet) :
    Nat → Nat → List (Option Nat) → Except JavaException (Option (List (Option Nat)))
  | 0, _, _ => .ok none
  | fuel + 1, index, a =>
    if index < s.bits.length then do
      let (index, a) ← writeBits registered (s.word index) (List.range 64) index a
      toArrayLoop registered s fuel index a
    else .ok (some a)

/-- `toArray(a)` of a `PseudoClassState`. -/
def toArrayInto (registered : Nat) (s : BitSet) (fuel : Nat) (a : List (Option Nat)) :
    Except JavaException (Option (List (Option Nat))) :=
  let a := if a.length < s.size then List.replicate s.size none else a
  toArrayLoop registered s fuel 0 a

def toArray (registered : Nat) (s : BitSet) (fuel : Nat) :
    Except JavaException (Option (List (Option Nat))) :=
  toArrayInto registered s fuel (List.replicate s.size none)

/-! ### Calls -/

/-- The calls that change a set; the argument of the bulk calls is a set of the same
class. -/
inductive Call
  | add (t : Nat)
  | remove (t : Nat)
  | addAll (other : BitSet)
  | retainAll (other : BitSet)
  | removeAll (other : BitSet)
  | clear

/-- The set after a call, what the call returns, if anything, and what it fires. -/
def call (s : BitSet) : Call → BitSet × Option Bool × List SetChange
  | .add t => let r := s.add (some t); (r.set, some r.modified, r.fired)
  | .remove t => let r := s.remove (some t); (r.set, some r.modified, r.fired)
  | .addAll other => let r := s.addAll (some other); (r.set, some r.modified, r.fired)
  | .retainAll other => let r := s.retainAll (some other); (r.set, some r.modified, r.fired)
  | .removeAll other => let r := s.removeAll (some other); (r.set, some r.modified, r.fired)
  | .clear => (s.clear.1, none, s.clear.2)

/-- A set as runs of calls leave it, whose arguments are such sets, and whose elements are
among the `registered` ones. -/
inductive Reachable (registered : Nat) : BitSet → Prop
  | new : Reachable registered {}
  | listen {s} (hasListeners : Bool) : Reachable registered s → Reachable registered { s with hasListeners }
  | add {s} (t : Nat) : t < registered → Reachable registered s → Reachable registered (s.call (.add t)).1
  | remove {s} (t : Nat) : Reachable registered s → Reachable registered (s.call (.remove t)).1
  | addAll {s other} : Reachable registered s → Reachable registered other →
      Reachable registered (s.call (.addAll other)).1
  | retainAll {s other} : Reachable registered s → Reachable registered other →
      Reachable registered (s.call (.retainAll other)).1
  | removeAll {s other} : Reachable registered s → Reachable registered other →
      Reachable registered (s.call (.removeAll other)).1
  | clear {s} : Reachable registered s → Reachable registered (s.call .clear).1

end BitSet

end JavaFX
