/-
`com.sun.javafx.collections.ObservableIntegerArrayImpl`.

The arrays of a program are a table, and `this`, a source or a destination is a place in
it, so that two of them can be the same object.  Every method comes in two overloads, one
for an `int[]` and one for an observable array; the two differ only in how the source is
asked for its size and copied, which is what `IntSource` is for.

Sums of `int`s wrap around.  Whether there is memory for a new array is up to the virtual
machine: `heap n` says whether one of length `n` can be allocated.  Listeners are called
last in each method and are left out.
-/
import JavaFX.Runtime
import JavaFX.Lib.Program
import Mathlib.Algebra.Group.Int.Defs
import Mathlib.Algebra.Group.Nat.Defs

namespace JavaFX

open Program

/-- `Integer.MAX_VALUE`. -/
def maxValue : Int := 2 ^ 31 - 1

/-- The values of an `int`. -/
structure JavaInt where
  val : Int
  lower : -2 ^ 31 ≤ val
  upper : val < 2 ^ 31

/-- What is left of a number in an `int`. -/
def wrap (x : Int) : Int := x.bmod (2 ^ 32)

/-- An `int[]`. -/
structure IntArray where
  elements : List Int
  bound : (elements.length : Int) ≤ maxValue

structure ObservableIntegerArray where
  array : List Int := []
  size : Int := 0
deriving DecidableEq, Repr

/-- Where elements come from: an `int[]`, an observable array, or nowhere. -/
inductive IntSource
  | ints (array : IntArray)
  | array (ref : Nat)
  | null

/-- Where `copyTo` copies to. -/
inductive IntDestination
  | ints (array : IntArray)
  | array (ref : Nat)
  | null

namespace ObservableIntegerArray

/-- The arrays of a program. -/
abbrev Arrays := Nat → ObservableIntegerArray

abbrev Method := Program JavaException Arrays

/-- `this.field = ..`. -/
def write (this : Nat) (f : ObservableIntegerArray → ObservableIntegerArray) : Method Unit :=
  modify (fun w => Function.update w this (f (w this)))

/-- `System.arraycopy(src, srcPos, array, destPos, length)` into the array of `this`. -/
def copyInto (this : Nat) (src : List Int) (srcPos destPos length : Int) : Method Unit := do
  let a ← read (fun w => w this)
  let array ← lift (arraycopy src srcPos a.array destPos length)
  write this (fun a => { a with array })

/-- `rangeCheck(size)`. -/
def rangeCheck (this : Nat) (size : Int) : Method Unit := do
  let a ← read (fun w => w this)
  if a.size < size then throw .indexOutOfBounds

end ObservableIntegerArray

open ObservableIntegerArray

namespace IntSource

/-- `src.size()`, or `src.length`. -/
def size : IntSource → Method Int
  | ints a => pure a.elements.length
  | array ref => read (fun w => (w ref).size)
  | null => throw .nullPointer

/-- `src.copyTo(srcIndex, array, destIndex, length)`, or
`System.arraycopy(src, srcIndex, array, destIndex, length)`. -/
def copyTo (src : IntSource) (srcIndex : Int) (this : Nat) (destIndex length : Int) : Method Unit :=
  match src with
  | ints a => copyInto this a.elements srcIndex destIndex length
  | array ref => do
    ObservableIntegerArray.rangeCheck ref (wrap (srcIndex + length))
    let a ← read (fun w => w ref)
    copyInto this a.array srcIndex destIndex length
  | null => throw .nullPointer

/-- `rangeCheck(src, srcIndex, length)`. -/
def rangeCheck (src : IntSource) (srcIndex length : Int) : Method Unit := do
  let size ← src.size
  if srcIndex < 0 ∨ size < wrap (srcIndex + length) then throw .indexOutOfBounds
  if length < 0 then throw .indexOutOfBounds

/-- `src == this`. -/
def isArray (src : IntSource) (this : Nat) : Bool :=
  match src with
  | array ref => ref == this
  | _ => false

end IntSource

namespace ObservableIntegerArray

section
variable (heap : Int → Bool) (this : Nat)

def maxArraySize : Int := maxValue - 8

/-- `new int[length]`. -/
def newArray (length : Int) : Method (List Int) :=
  if length < 0 then throw .negativeArraySize
  else if heap length then pure (List.replicate length.toNat 0)
  else throw .outOfMemory

def ensureCapacity (capacity : Int) : Method Unit := do
  let a ← read (fun w => w this)
  if (a.array.length : Int) < capacity then
    -- `Arrays.copyOf(array, capacity)`
    let copy ← newArray heap capacity
    let array ← lift (arraycopy a.array 0 copy 0 (min a.array.length capacity))
    write this (fun a => { a with array })

def hugeCapacity (minCapacity : Int) : Method Int :=
  if minCapacity < 0 then throw .outOfMemory
  else pure (if maxArraySize < minCapacity then maxValue else maxArraySize)

def growCapacity (length : Int) : Method Unit := do
  let a ← read (fun w => w this)
  let minCapacity := wrap (a.size + length)
  let oldCapacity : Int := a.array.length
  if oldCapacity < minCapacity then
    let newCapacity := wrap (oldCapacity + oldCapacity / 2)
    let newCapacity := if newCapacity < minCapacity then minCapacity else newCapacity
    if maxArraySize < newCapacity then
      let newCapacity ← hugeCapacity minCapacity
      ensureCapacity heap this newCapacity
    else
      ensureCapacity heap this newCapacity
  else if 0 < length ∧ minCapacity < 0 then
    throw .outOfMemory

def addAllInternal (src : IntSource) (srcIndex length : Int) : Method Unit := do
  growCapacity heap this length
  let a ← read (fun w => w this)
  src.copyTo srcIndex this a.size length
  write this (fun a => { a with size := wrap (a.size + length) })

/-- `addAll(src)` and `addAll(elements...)`. -/
def addAll (src : IntSource) : Method Unit := do
  let length ← src.size
  addAllInternal heap this src 0 length

/-- `addAll(src, srcIndex, length)`. -/
def addAllRange (src : IntSource) (srcIndex length : Int) : Method Unit := do
  src.rangeCheck srcIndex length
  addAllInternal heap this src srcIndex length

/-- `Arrays.fill(array, from, to, 0)`. -/
def fill (fromIndex toIndex : Int) : Method Unit := do
  let a ← read (fun w => w this)
  let array ← lift (forRange fromIndex toIndex (fun i array => setAt array i 0) a.array)
  write this (fun a => { a with array })

def resize (newSize : Int) : Method Unit := do
  if newSize < 0 then throw .negativeArraySize
  ensureCapacity heap this newSize
  let a ← read (fun w => w this)
  let minSize := min a.size newSize
  write this (fun a => { a with size := newSize })
  fill this minSize newSize

def clear : Method Unit := resize heap this 0

def setAllInternal (src : IntSource) (srcIndex length : Int) : Method Unit :=
  if src.isArray this then
    if srcIndex = 0 then
      resize heap this length
    else do
      let a ← read (fun w => w this)
      copyInto this a.array srcIndex 0 length
      write this (fun a => { a with size := length })
  else do
    write this (fun a => { a with size := 0 })
    ensureCapacity heap this length
    src.copyTo srcIndex this 0 length
    write this (fun a => { a with size := length })

/-- `setAll(src)`. -/
def setAll (src : IntSource) : Method Unit := do
  let length ← src.size
  setAllInternal heap this src 0 length

/-- `setAll(src, srcIndex, length)`. -/
def setAllRange (src : IntSource) (srcIndex length : Int) : Method Unit := do
  src.rangeCheck srcIndex length
  setAllInternal heap this src srcIndex length

/-- `set(destIndex, src, srcIndex, length)`. -/
def setRange (destIndex : Int) (src : IntSource) (srcIndex length : Int) : Method Unit := do
  rangeCheck this (wrap (destIndex + length))
  src.copyTo srcIndex this destIndex length

/-- `set(index, value)`. -/
def set (index value : Int) : Method Unit := do
  rangeCheck this (wrap (index + 1))
  let a ← read (fun w => w this)
  let array ← lift (setAt a.array index value)
  write this (fun a => { a with array })

/-- `copyTo(srcIndex, dest, destIndex, length)`.  Gives the `int[]` back. -/
def copyTo (srcIndex : Int) (dest : IntDestination) (destIndex length : Int) : Method (Option (List Int)) := do
  rangeCheck this (wrap (srcIndex + length))
  let a ← read (fun w => w this)
  match dest with
  | .ints array =>
    let array ← lift (arraycopy a.array srcIndex array.elements destIndex length)
    return some array
  | .array ref =>
    -- `dest.set(destIndex, array, srcIndex, length)`
    rangeCheck ref (wrap (destIndex + length))
    copyInto ref a.array srcIndex destIndex length
    return none
  | .null => throw .nullPointer

def trimToSize : Method Unit := do
  let a ← read (fun w => w this)
  if (a.array.length : Int) ≠ a.size then
    let array ← newArray heap a.size
    let array ← lift (arraycopy a.array 0 array 0 a.size)
    write this (fun a => { a with array })

/-! ### Runs -/

inductive Call
  | addAll (src : IntSource)
  | addAllRange (src : IntSource) (srcIndex length : JavaInt)
  | setAll (src : IntSource)
  | setAllRange (src : IntSource) (srcIndex length : JavaInt)
  | setRange (destIndex : JavaInt) (src : IntSource) (srcIndex length : JavaInt)
  | set (index value : JavaInt)
  | copyTo (srcIndex : JavaInt) (dest : IntDestination) (destIndex length : JavaInt)
  | resize (newSize : JavaInt)
  | clear
  | ensureCapacity (capacity : JavaInt)
  | trimToSize

/-- A call on the array `this`.  Gives the `int[]` that `copyTo` has filled. -/
def run : Call → Method (Option (List Int))
  | .addAll src => do addAll heap this src; return none
  | .addAllRange src srcIndex length => do addAllRange heap this src srcIndex.val length.val; return none
  | .setAll src => do setAll heap this src; return none
  | .setAllRange src srcIndex length => do setAllRange heap this src srcIndex.val length.val; return none
  | .setRange destIndex src srcIndex length => do
    setRange this destIndex.val src srcIndex.val length.val
    return none
  | .set index value => do set this index.val value.val; return none
  | .copyTo srcIndex dest destIndex length => copyTo this srcIndex.val dest destIndex.val length.val
  | .resize newSize => do resize heap this newSize.val; return none
  | .clear => do clear heap this; return none
  | .ensureCapacity capacity => do ensureCapacity heap this capacity.val; return none
  | .trimToSize => do trimToSize heap this; return none

end

/-- The arrays after any run of calls, whether they returned or threw. -/
inductive Reached : Arrays → Prop
  | new : Reached (fun _ => {})
  | call {w : Arrays} (heap : Int → Bool) (this : Nat) (call : Call) :
      Reached w → Reached (run heap this call w).2

/-- The elements of the array. -/
def contents (a : ObservableIntegerArray) : List Int := a.array.take a.size.toNat

/-! ### What it stands for -/

/-- The lists the arrays stand for. -/
abbrev Lists := Nat → List Int

/-- `length` elements from `index` on, if they are there. -/
def slice (l : List Int) (index length : Int) : Option (List Int) :=
  if 0 ≤ index ∧ 0 ≤ length ∧ index + length ≤ l.length then
    some ((l.drop index.toNat).take length.toNat)
  else none

/-- `l` with the elements of `xs` from `index` on, if they fit in. -/
def overwrite (l : List Int) (index : Int) (xs : List Int) : Option (List Int) :=
  if 0 ≤ index ∧ index + xs.length ≤ l.length then
    some (l.take index.toNat ++ xs ++ l.drop (index.toNat + xs.length))
  else none

end ObservableIntegerArray

def IntSource.elements (lists : Lists) : IntSource → Option (List Int)
  | ints a => some a.elements
  | array ref => some (lists ref)
  | null => none

namespace ObservableIntegerArray

/-- The operations on integer lists, and the `int[]` that `copyTo` fills.  `none` if an
index or a length is out of range. -/
def onLists (this : Nat) (lists : Lists) : Call → Option (Lists × Option (List Int))
  | .addAll src => do
    let xs ← src.elements lists
    return (Function.update lists this (lists this ++ xs), none)
  | .addAllRange src srcIndex length => do
    let xs ← slice (← src.elements lists) srcIndex.val length.val
    return (Function.update lists this (lists this ++ xs), none)
  | .setAll src => do
    let xs ← src.elements lists
    return (Function.update lists this xs, none)
  | .setAllRange src srcIndex length => do
    let xs ← slice (← src.elements lists) srcIndex.val length.val
    return (Function.update lists this xs, none)
  | .setRange destIndex src srcIndex length => do
    let xs ← slice (← src.elements lists) srcIndex.val length.val
    let l ← overwrite (lists this) destIndex.val xs
    return (Function.update lists this l, none)
  | .set index value => do
    let l ← overwrite (lists this) index.val [value.val]
    return (Function.update lists this l, none)
  | .copyTo srcIndex (.ints dest) destIndex length => do
    let xs ← slice (lists this) srcIndex.val length.val
    let l ← overwrite dest.elements destIndex.val xs
    return (lists, some l)
  | .copyTo srcIndex (.array ref) destIndex length => do
    let xs ← slice (lists this) srcIndex.val length.val
    let l ← overwrite (lists ref) destIndex.val xs
    return (Function.update lists ref l, none)
  | .copyTo _ .null _ _ => none
  | .resize newSize =>
    if 0 ≤ newSize.val then
      let n := newSize.val.toNat
      some (Function.update lists this ((lists this).take n ++ List.replicate (n - (lists this).length) 0), none)
    else none
  | .clear => some (Function.update lists this [], none)
  | .ensureCapacity _ => some (lists, none)
  | .trimToSize => some (lists, none)

def lists (w : Arrays) : Lists := fun i => (w i).contents

/-- The call does what the operation on lists does, or it throws and all arrays have the
size and the contents they had. -/
def Meets (heap : Int → Bool) (this : Nat) (call : Call) (w : Arrays) : Prop :=
  match run heap this call w with
  | (.ok out, w') => onLists this (lists w) call = some (lists w', out)
  | (.error _, w') => ∀ i, (w' i).size = (w i).size ∧ (w' i).contents = (w i).contents

/-- `setAll` has set the size to 0 and throws after that: `length` elements from
`srcIndex` on replace those of an array that is not empty, they come from somewhere else,
and either the sum that `rangeCheck` compares wraps around, or a longer `int[]` is needed
and there is no memory for it. -/
def Loses (heap : Int → Bool) (this : Nat) (w : Arrays) (src : IntSource) (srcIndex length : Int) :
    Prop :=
  (w this).size ≠ 0 ∧ src.isArray this = false ∧ 0 ≤ srcIndex ∧ 0 ≤ length ∧ ∃ xs, src.elements (lists w) = some xs ∧
      (2 ^ 31 ≤ srcIndex + length ∨
        srcIndex + length ≤ xs.length ∧ ((w this).array.length : Int) < length ∧ heap length = false)

/-- The calls that lose the contents of their array. -/
def LosesContents (heap : Int → Bool) (this : Nat) (w : Arrays) : Call → Prop
  | .setAll src => ∃ xs, src.elements (lists w) = some xs ∧ Loses heap this w src 0 xs.length
  | .setAllRange src srcIndex length => Loses heap this w src srcIndex.val length.val
  | _ => False

end ObservableIntegerArray

end JavaFX
