/-
`SelectedIndicesList` with the cursor of `get`.

`get` remembers the position it was asked for last and the row it found there, and goes on from
that row when a neighbouring position is asked for.  No call that changes the rows looks at them.
-/
import JavaFX.Controls.SelectedIndicesList

namespace JavaFX

open Program

namespace JavaBitSet

/-- A bit that was looked for, -1 if there is none. -/
def found : Option Nat → Int
  | some i => i
  | none => -1

def nextSetBit (b : JavaBitSet) (fromIndex : Int) : Int :=
  found (b.stream.filter fun i : Nat => ¬ (i : Int) < fromIndex).head?

def previousSetBit (b : JavaBitSet) (fromIndex : Int) : Int :=
  found (b.stream.filter fun i : Nat => (i : Int) < fromIndex + 1).getLast?

end JavaBitSet

namespace SelectedIndicesList

/-- `bitset.set(index, end, false)`. -/
def clearBitRange (lo hi : Int) : Call Unit :=
  if lo < 0 ∨ hi < 0 ∨ lo > hi then throw .indexOutOfBounds
  else modify fun s => { s with bitset := s.bitset.clearRange lo.toNat hi.toNat }

/-- `set(index, end, false)`. -/
def clearRange (index «end» : Int) : Call Unit := do
  beginChange
  modify fun s => { s with size := -1 }
  clearBitRange index «end»
  endChange

structure Cursor where
  list : SelectedIndicesList
  lastGetIndex : Int := -1
  lastGetValue : Int := -1

namespace Cursor

/-- A call that leaves the cursor alone. -/
def onList {α : Type} (call : Call α) : Program JavaException Cursor α := fun s =>
  ((call s.list).1, { s with list := (call s.list).2 })

/-- The loop of `get`, over the rows there are left. -/
def scan (index : Int) : List Nat → Int → Int × Int
  | [], lastGetIndex => (lastGetIndex, -1)
  | row :: rest, lastGetIndex =>
    if lastGetIndex = index then (lastGetIndex, row) else scan index rest (lastGetIndex + 1)

/-- Where `get` finds a position there is: the position and the row. -/
def seek (index itemCount : Int) (s : Cursor) : Int × Int :=
  if index = s.lastGetIndex + 1 ∧ s.lastGetValue < itemCount then
    (s.lastGetIndex + 1, s.list.bitset.nextSetBit (s.lastGetValue + 1))
  else if index = s.lastGetIndex - 1 ∧ s.lastGetValue > 0 then
    (s.lastGetIndex - 1, s.list.bitset.previousSetBit (s.lastGetValue - 1))
  else scan index s.list.rows 0

/-- `get` a position there is. -/
def getExisting (index itemCount : Int) : Program JavaException Cursor Int := fun s =>
  let (lastGetIndex, lastGetValue) := seek index itemCount s
  (.ok lastGetValue, { s with lastGetIndex, lastGetValue })

def get (index : Int) : Program JavaException Cursor Int := do
  let itemCount ← onList getSize
  if index < 0 ∨ index ≥ itemCount then throw .indexOutOfBounds
  else getExisting index itemCount

def reset : Program JavaException Cursor Unit :=
  modify fun s => { s with lastGetIndex := -1, lastGetValue := -1 }

/-- A call on the list; the number of items may be another one at every call. -/
inductive Op
  | get (index : Int)
  | size
  | indexOf (row : Int)
  | change (itemCount : Int) (call : IndexCall)
  | clearRange (index «end» : Int)
  | reset
deriving DecidableEq

/-- What a call leaves, whether it returns or throws. -/
def step (s : Cursor) : Op → Cursor
  | .get index => (get index s).2
  | .size => (onList getSize s).2
  | .indexOf row => (onList (SelectedIndicesList.indexOf row) s).2
  | .change itemCount call => (onList (call.run itemCount) s).2
  | .clearRange index «end» => (onList (SelectedIndicesList.clearRange index «end») s).2
  | .reset => (reset s).2

end Cursor

end SelectedIndicesList

end JavaFX
