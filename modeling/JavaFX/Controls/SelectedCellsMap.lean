/-
`SelectedCellsMap`: the cells of a table that are selected, in a list and in a map.

The list has them in the order of selection.  The map has for every row the set of its columns; an
empty set stands for a row that is selected as a whole, which in the list is a cell of column -1.
Listeners and the sorted view of the list are left out.
-/
import JavaFX.Runtime.BitSet

namespace JavaFX

namespace SelectedCellsMap

/-- The row and the column of a `TablePosition`. -/
structure Cell where
  row : Nat
  column : Int
  valid : -1 ≤ column
deriving DecidableEq

end SelectedCellsMap

structure SelectedCellsMap where
  selectedCells : List SelectedCellsMap.Cell
  selectedCellBitSetMap : Nat → Option JavaBitSet

namespace SelectedCellsMap

def empty : SelectedCellsMap where
  selectedCells := []
  selectedCellBitSetMap := fun _ => none

/-- The set of a row, which is put into the map if it is not there yet. -/
def bitset (map : Nat → Option JavaBitSet) (row : Nat) : JavaBitSet := (map row).getD .empty

def put (map : Nat → Option JavaBitSet) (row : Nat) (bitset : JavaBitSet) : Nat → Option JavaBitSet :=
  Function.update map row (some bitset)

variable (s : SelectedCellsMap)

def add (cellSelectionModeEnabled : Bool) (tp : Cell) : SelectedCellsMap :=
  let isNewBitSet := (s.selectedCellBitSetMap tp.row).isNone
  let bitset := bitset s.selectedCellBitSetMap tp.row
  let map := put s.selectedCellBitSetMap tp.row bitset
  if cellSelectionModeEnabled then
    if tp.column ≥ 0 then
      if bitset.get tp.column.toNat then { s with selectedCellBitSetMap := map }
      else {
        selectedCells := s.selectedCells ++ [tp]
        selectedCellBitSetMap := put map tp.row (bitset.set tp.column.toNat) }
    else if tp ∈ s.selectedCells then { s with selectedCellBitSetMap := map }
    else { selectedCells := s.selectedCells ++ [tp], selectedCellBitSetMap := map }
  else if isNewBitSet then {
    selectedCells := s.selectedCells ++ [tp]
    selectedCellBitSetMap := if tp.column ≥ 0 then put map tp.row (bitset.set tp.column.toNat) else map }
  else { s with selectedCellBitSetMap := map }

/-- A round of the loops that update the map. -/
def mark (map : Nat → Option JavaBitSet) (tp : Cell) : Nat → Option JavaBitSet :=
  let bitset := bitset map tp.row
  let map := put map tp.row bitset
  if tp.column < 0 then map else put map tp.row (bitset.set tp.column.toNat)

def addAll (cells : List Cell) : SelectedCellsMap where
  selectedCells := s.selectedCells ++ cells
  selectedCellBitSetMap := cells.foldl mark s.selectedCellBitSetMap

def setAll (cells : List Cell) : SelectedCellsMap where
  selectedCells := cells
  selectedCellBitSetMap := cells.foldl mark fun _ => none

def remove (tp : Cell) : SelectedCellsMap where
  selectedCells := s.selectedCells.erase tp
  selectedCellBitSetMap :=
    match s.selectedCellBitSetMap tp.row with
    | none => s.selectedCellBitSetMap
    | some bitset =>
      let bitset := if tp.column ≥ 0 then bitset.clear tp.column.toNat else bitset
      if bitset.isEmpty then Function.update s.selectedCellBitSetMap tp.row none
      else put s.selectedCellBitSetMap tp.row bitset

def isSelected (row : Nat) (columnIndex : Int) : Bool :=
  match s.selectedCellBitSetMap row with
  | none => false
  | some bitset => if columnIndex < 0 then true else bitset.get columnIndex.toNat

/-! ### Runs -/

/-- A call, in cell-selection mode. -/
inductive Op
  | add (tp : Cell)
  | addAll (cells : List Cell)
  | setAll (cells : List Cell)
  | remove (tp : Cell)
  | clear
deriving DecidableEq

def step : Op → SelectedCellsMap
  | .add tp => s.add true tp
  | .addAll cells => s.addAll cells
  | .setAll cells => setAll cells
  | .remove tp => s.remove tp
  | .clear => empty

end SelectedCellsMap

end JavaFX
