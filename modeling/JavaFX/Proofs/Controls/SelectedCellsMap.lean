/-
When the map and the list of `SelectedCellsMap` agree.

A row is in the map as long as its set has a column, so taking the last column out of a row loses
the row, also if the list still has it as a whole.  No other call makes the two differ.
-/
import JavaFX.Controls.SelectedCellsMap
import Mathlib.Data.List.Nodup

namespace JavaFX.SelectedCellsMap

open List

variable {s : SelectedCellsMap} {map : Nat → Option JavaBitSet} {tp x : Cell} {cells : List Cell} {row c : Nat}

def Cell.whole (row : Nat) : Cell := ⟨row, -1, by omega⟩

def Cell.at (row c : Nat) : Cell := ⟨row, c, by omega⟩

theorem Cell.cases (tp : Cell) : (∃ row, tp = .whole row) ∨ ∃ row c, tp = .at row c := by
  obtain ⟨row, column, valid⟩ := tp
  rcases Int.lt_or_le column 0 with h | h
  · obtain rfl : column = -1 := by omega
    exact .inl ⟨row, rfl⟩
  · obtain ⟨c, rfl⟩ := Int.eq_ofNat_of_zero_le h
    exact .inr ⟨row, c, rfl⟩

variable {row' r : Nat} {b : JavaBitSet}

@[simp] theorem Cell.at_inj {c' : Nat} : Cell.at row c = .at row' c' ↔ row = row' ∧ c = c' := by
  simp only [Cell.at, Cell.mk.injEq, Int.natCast_inj]

@[simp] theorem Cell.whole_ne : Cell.whole row ≠ .at row' c := by
  simp only [Cell.whole, Cell.at, ne_eq, Cell.mk.injEq]
  omega

@[simp] theorem Cell.row_whole : (Cell.whole row).row = row := rfl

@[simp] theorem Cell.row_at : (Cell.at row c).row = row := rfl

@[simp] theorem Cell.column_whole : (Cell.whole row).column = -1 := rfl

@[simp] theorem Cell.column_at : (Cell.at row c).column = c := rfl

/-- The two representations say the same. -/
structure Agrees (s : SelectedCellsMap) : Prop where
  nodup : s.selectedCells.Nodup
  column : ∀ row c : Nat, s.isSelected row c = true ↔ .at row c ∈ s.selectedCells
  row : ∀ row : Nat, s.isSelected row (-1) = true ↔ ∃ tp ∈ s.selectedCells, tp.row = row

/-! ### The map -/

/-- What a map says of a column, and of a row. -/
def Bit (map : Nat → Option JavaBitSet) (row c : Nat) : Prop := ∃ b, map row = some b ∧ b.get c = true

def Row (map : Nat → Option JavaBitSet) (row : Nat) : Prop := ∃ b, map row = some b

theorem isSelected_column : s.isSelected row c = true ↔ Bit s.selectedCellBitSetMap row c := by
  unfold isSelected Bit
  cases s.selectedCellBitSetMap row <;> simp

theorem isSelected_row : s.isSelected row (-1) = true ↔ Row s.selectedCellBitSetMap row := by
  unfold isSelected Row
  cases s.selectedCellBitSetMap row <;> simp

theorem bit_bitset : (bitset map row).get c = true ↔ Bit map row c := by
  unfold bitset Bit
  cases map row <;> simp [JavaBitSet.empty]

theorem bit_put : Bit (put map r b) row c ↔ if row = r then b.get c = true else Bit map row c := by
  unfold Bit put
  by_cases h : row = r
  · subst h
    simp
  · simp [h]

theorem row_put : Row (put map r b) row ↔ row = r ∨ Row map row := by
  unfold Row put
  by_cases h : row = r
  · subst h
    simp
  · simp [h]

theorem bit_set {d : Nat} : Bit (put map r ((bitset map r).set d)) row c ↔ Bit map row c ∨
    Cell.at r d = .at row c := by
  rw [bit_put]
  by_cases hr : row = r
  · subst hr
    by_cases hc : c = d
    · simp [JavaBitSet.set, hc]
    · simp [JavaBitSet.set, hc, bit_bitset, Ne.symm hc]
  · simp [hr, Ne.symm hr]

theorem bit_put_bitset : Bit (put map r (bitset map r)) row c ↔ Bit map row c := by
  rw [bit_put]
  split
  · next h => rw [h, bit_bitset]
  · rfl

theorem put_put {b' : JavaBitSet} : put (put map row b) row b' = put map row b' := by
  simp [put]

theorem bit_mark : Bit (mark map tp) row c ↔ Bit map row c ∨ tp = .at row c := by
  obtain ⟨r, rfl⟩ | ⟨r, d, rfl⟩ := tp.cases
  · simp [mark, bit_put_bitset]
  · have hd : ¬ (d : Int) < 0 := by omega
    simp only [mark, put_put]
    exact bit_set

theorem row_mark : Row (mark map tp) row ↔ Row map row ∨ tp.row = row := by
  have hcomm : row = tp.row ∨ Row map row ↔ Row map row ∨ tp.row = row := by grind
  unfold mark
  split <;> simp only [put_put, row_put, hcomm]

theorem bit_foldl (cells : List Cell) (map : Nat → Option JavaBitSet) :
    Bit (cells.foldl mark map) row c ↔ Bit map row c ∨ .at row c ∈ cells := by
  induction cells generalizing map with
  | nil => simp
  | cons tp cells ih => rw [foldl_cons, ih, bit_mark, mem_cons, or_assoc, eq_comm]

theorem row_foldl (cells : List Cell) (map : Nat → Option JavaBitSet) :
    Row (cells.foldl mark map) row ↔ Row map row ∨ ∃ tp ∈ cells, tp.row = row := by
  induction cells generalizing map with
  | nil => simp
  | cons tp cells ih => simp [ih, row_mark, or_assoc]

/-! ### Calls that add -/

theorem Agrees.added (h : Agrees s) (cells : List Cell) {s' : SelectedCellsMap} (hnodup : s'.selectedCells.Nodup)
    (hmem : ∀ x, x ∈ s'.selectedCells ↔ x ∈ s.selectedCells ∨ x ∈ cells)
    (hbit : ∀ row c, Bit s'.selectedCellBitSetMap row c ↔ Bit s.selectedCellBitSetMap row c ∨ .at row c ∈ cells)
    (hrow : ∀ row, Row s'.selectedCellBitSetMap row ↔ Row s.selectedCellBitSetMap row ∨ ∃ tp ∈ cells, tp.row = row) :
    Agrees s' where
  nodup := hnodup
  column row c := by rw [isSelected_column, hbit, hmem, ← isSelected_column, h.column]
  row row := by
    rw [isSelected_row, hrow, ← isSelected_row, h.row]
    simp only [hmem, or_and_right, exists_or]

theorem agrees_empty : Agrees empty where
  nodup := nodup_nil
  column _ _ := by simp [isSelected, empty]
  row _ := by simp [isSelected, empty]

theorem add_selectedCells (h : Agrees s) : (s.add true tp).selectedCells =
    if tp ∈ s.selectedCells then s.selectedCells else s.selectedCells ++ [tp] := by
  obtain ⟨r, rfl⟩ | ⟨r, d, rfl⟩ := tp.cases
  · by_cases hin : .whole r ∈ s.selectedCells <;> simp [add, hin]
  · have hbit : (bitset s.selectedCellBitSetMap r).get d = true ↔ .at r d ∈ s.selectedCells := by
      rw [bit_bitset, ← isSelected_column, h.column]
    by_cases hin : .at r d ∈ s.selectedCells <;> simp [add, hbit, hin]

theorem bit_add : Bit (s.add true tp).selectedCellBitSetMap row c ↔
    Bit s.selectedCellBitSetMap row c ∨ tp = .at row c := by
  obtain ⟨r, rfl⟩ | ⟨r, d, rfl⟩ := tp.cases
  · by_cases hin : .whole r ∈ s.selectedCells <;> simp [add, hin, bit_put_bitset]
  · simp only [add, Cell.column_at, Cell.row_at, Int.toNat_natCast, put_put]
    by_cases hd : (bitset s.selectedCellBitSetMap r).get d = true
    · have hin : Bit s.selectedCellBitSetMap r d := bit_bitset.mp hd
      simp only [hd, Int.natCast_nonneg, if_true, bit_put_bitset]
      refine ⟨.inl, fun h => h.elim id ?_⟩
      rintro ⟨rfl, rfl⟩
      exact hin
    · simp [hd, bit_set]

theorem row_add : Row (s.add true tp).selectedCellBitSetMap row ↔ Row s.selectedCellBitSetMap row ∨ tp.row = row := by
  rw [or_comm, eq_comm]
  simp only [add, put_put, if_true]
  split <;> split <;> exact row_put

theorem Agrees.add (h : Agrees s) (tp : Cell) : Agrees (s.add true tp) := by
  refine h.added [tp] ?_ (fun x => ?_) (fun row c => ?_) fun row => ?_
  · rw [add_selectedCells h]
    split
    · exact h.nodup
    · next hin => exact h.nodup.append (by simp) (by simpa using hin)
  · rw [add_selectedCells h, mem_singleton]
    split
    · next hin =>
      refine ⟨.inl, fun hx => hx.elim id ?_⟩
      rintro rfl
      exact hin
    · exact List.mem_append.trans (or_congr_right mem_singleton)
  · rw [bit_add, mem_singleton, eq_comm]
  · rw [row_add]
    simp

theorem Agrees.addAll (h : Agrees s) (hnodup : cells.Nodup) (hnew : ∀ tp ∈ cells, tp ∉ s.selectedCells) :
    Agrees (s.addAll cells) := by
  refine h.added cells ?_ (fun _ => mem_append) (fun _ _ => bit_foldl cells _) fun _ => row_foldl cells _
  exact h.nodup.append hnodup fun x hx hx' => hnew x hx' hx

theorem agrees_setAll (hnodup : cells.Nodup) : Agrees (setAll cells) :=
  agrees_empty.addAll hnodup (by simp [empty])

/-! ### Removal -/

theorem remove_other (h : row ≠ tp.row) : (s.remove tp).selectedCellBitSetMap row = s.selectedCellBitSetMap row := by
  unfold remove
  cases s.selectedCellBitSetMap tp.row with
  | none => rfl
  | some b =>
    simp only [put]
    split_ifs <;> simp [h]

theorem get_left : (if tp.column ≥ 0 then b.clear tp.column.toNat else b).get c = true ↔
    b.get c = true ∧ tp ≠ .at tp.row c := by
  obtain ⟨r, rfl⟩ | ⟨r, d, rfl⟩ := tp.cases
  · simp
  · by_cases hc : c = d
    · simp [JavaBitSet.clear, hc]
    · simp [JavaBitSet.clear, hc, Ne.symm hc]

theorem bit_remove_same : Bit (s.remove tp).selectedCellBitSetMap tp.row c ↔
    Bit s.selectedCellBitSetMap tp.row c ∧ tp ≠ .at tp.row c := by
  unfold remove Bit
  cases hmap : s.selectedCellBitSetMap tp.row with
  | none => simp [hmap]
  | some b =>
    simp only [Option.some.injEq, exists_eq_left', ← get_left]
    by_cases hempty : (if tp.column ≥ 0 then b.clear tp.column.toNat else b).isEmpty = true
    · rw [if_pos hempty]
      simp [JavaBitSet.isEmpty_iff.mp hempty]
    · simp [put, hempty]

/-- A row is left in the map if it has a column that is not removed. -/
theorem row_remove_same : Row (s.remove tp).selectedCellBitSetMap tp.row ↔
    ∃ c, Bit s.selectedCellBitSetMap tp.row c ∧ tp ≠ .at tp.row c := by
  unfold remove Row Bit
  cases hmap : s.selectedCellBitSetMap tp.row with
  | none => simp [hmap]
  | some b =>
    simp only [Option.some.injEq, exists_eq_left', ← get_left]
    by_cases hempty : (if tp.column ≥ 0 then b.clear tp.column.toNat else b).isEmpty = true
    · rw [if_pos hempty]
      simp [JavaBitSet.isEmpty_iff.mp hempty]
    · rw [if_neg hempty]
      rw [JavaBitSet.isEmpty_iff] at hempty
      simpa [put] using hempty

/-- A column is not taken out of a row that the list has as a whole, unless another column of the row is left. -/
def Keeps (s : SelectedCellsMap) (tp : Cell) : Prop :=
  0 ≤ tp.column → .whole tp.row ∈ s.selectedCells → ∃ x ∈ s.selectedCells, x.row = tp.row ∧ 0 ≤ x.column ∧ x ≠ tp

/-- The list has no cell of a row but the one that is removed and, maybe, the row as a whole. -/
theorem row_left_iff (h : Agrees s) : (∃ c, Bit s.selectedCellBitSetMap tp.row c ∧ tp ≠ .at tp.row c) ↔
    ∃ x ∈ s.selectedCells, x.row = tp.row ∧ 0 ≤ x.column ∧ x ≠ tp := by
  simp only [← isSelected_column, h.column]
  constructor
  · rintro ⟨c, hin, hne⟩
    exact ⟨_, hin, rfl, Int.natCast_nonneg c, Ne.symm hne⟩
  · rintro ⟨x, hin, hrow, hcolumn, hne⟩
    obtain ⟨r, rfl⟩ | ⟨r, c, rfl⟩ := x.cases
    · simp at hcolumn
    · obtain rfl : r = tp.row := hrow
      exact ⟨c, hin, Ne.symm hne⟩

theorem agrees_remove_iff (h : Agrees s) : Agrees (s.remove tp) ↔ Keeps s tp := by
  have hmem (x : Cell) : x ∈ (s.remove tp).selectedCells ↔ x ≠ tp ∧ x ∈ s.selectedCells := h.nodup.mem_erase_iff
  have hcolumn (row c : Nat) : (s.remove tp).isSelected row c = true ↔ .at row c ∈ (s.remove tp).selectedCells := by
    rw [isSelected_column, hmem]
    by_cases hrow : row = tp.row
    · subst hrow
      rw [bit_remove_same, ← isSelected_column, h.column, and_comm, ne_comm]
    · have hne : Cell.at row c ≠ tp := fun heq => hrow (congrArg Cell.row heq)
      rw [Bit, remove_other hrow, ← Bit, ← isSelected_column, h.column]
      exact ⟨fun hin => ⟨hne, hin⟩, And.right⟩
  have hother {row : Nat} (hrow : row ≠ tp.row) : (s.remove tp).isSelected row (-1) = true ↔
      ∃ x ∈ (s.remove tp).selectedCells, x.row = row := by
    rw [isSelected_row, Row, remove_other hrow, ← Row, ← isSelected_row, h.row]
    refine exists_congr fun x => and_congr_left fun hx => ?_
    rw [hmem]
    refine ⟨fun hin => ⟨?_, hin⟩, And.right⟩
    rintro rfl
    exact hrow hx.symm
  have hsame : (s.remove tp).isSelected tp.row (-1) = true ↔ ∃ x ∈ s.selectedCells, x.row = tp.row ∧ 0 ≤ x.column ∧ x ≠ tp := by
    rw [isSelected_row, row_remove_same, row_left_iff h]
  constructor
  · intro h' hnonneg hwhole
    have hne : Cell.whole tp.row ≠ tp := fun heq => absurd (congrArg Cell.column heq ▸ hnonneg) (by simp)
    exact hsame.mp ((h'.row tp.row).mpr ⟨_, (hmem _).mpr ⟨hne, hwhole⟩, rfl⟩)
  · intro hkeeps
    refine ⟨h.nodup.erase tp, hcolumn, fun row => ?_⟩
    by_cases hrow : row = tp.row
    · subst hrow
      rw [hsame]
      constructor
      · rintro ⟨x, hin, hrow, -, hne⟩
        exact ⟨x, (hmem x).mpr ⟨hne, hin⟩, hrow⟩
      · rintro ⟨x, hin, hrow⟩
        obtain ⟨hne, hin⟩ := (hmem x).mp hin
        obtain ⟨r, rfl⟩ | ⟨r, d, rfl⟩ := x.cases
        · -- The row is left as a whole, so a column of it was given.
          obtain rfl : r = tp.row := hrow
          refine hkeeps ?_ hin
          obtain ⟨r', heq⟩ | ⟨r', d, heq⟩ := tp.cases
          · rw [heq] at hne
            exact absurd rfl hne
          · rw [heq]
            exact Int.natCast_nonneg d
        · exact ⟨_, hin, hrow, Int.natCast_nonneg d, hne⟩
    · exact hother hrow

/-! ### Runs -/

/-- What a caller promises of the cells it gives. -/
def Op.Legal (s : SelectedCellsMap) : Op → Prop
  | .addAll cells => cells.Nodup ∧ ∀ tp ∈ cells, tp ∉ s.selectedCells
  | .setAll cells => cells.Nodup
  | _ => True

def Op.Keeps (s : SelectedCellsMap) : Op → Prop
  | .remove tp => s.Keeps tp
  | _ => True

theorem agrees_step_iff (h : Agrees s) {op : Op} (hlegal : op.Legal s) : Agrees (s.step op) ↔ op.Keeps s := by
  cases op with
  | add tp => exact iff_of_true (h.add tp) trivial
  | addAll cells => exact iff_of_true (h.addAll hlegal.1 hlegal.2) trivial
  | setAll cells => exact iff_of_true (agrees_setAll hlegal) trivial
  | remove tp => exact agrees_remove_iff h
  | clear => exact iff_of_true agrees_empty trivial

/-- The state after the first `k` calls. -/
def after (ops : List Op) (k : Nat) : SelectedCellsMap := (ops.take k).foldl step empty

/-- **The two representations agree in every state of a run if and only if no call removes a column of a row that
the list has as a whole when it has no other column of the row.** -/
theorem run_agrees_iff (ops : List Op) (hlegal : ∀ k (op : Op), ops[k]? = some op → op.Legal (after ops k)) :
    (∀ k, Agrees (after ops k)) ↔ ∀ k (op : Op), ops[k]? = some op → op.Keeps (after ops k) := by
  have hnext {k : Nat} {op : Op} (hop : ops[k]? = some op) : after ops (k + 1) = (after ops k).step op := by
    simp [after, take_add_one, hop]
  constructor
  · intro h k op hop
    rw [← agrees_step_iff (h k) (hlegal k op hop), ← hnext hop]
    exact h (k + 1)
  · intro h k
    induction k with
    | zero => exact agrees_empty
    | succ k ih =>
      cases hop : ops[k]? with
      | none => simpa [after, take_add_one, hop] using ih
      | some op =>
        rw [hnext hop]
        exact (agrees_step_iff ih (hlegal k op hop)).mpr (h k op hop)

theorem run_agrees_iff_left : Agrees
    (after [.setAll [.whole 0, .at 0 3], .add (.at 0 5), .remove (.at 0 3), .remove (.whole 1)] 4) := by
  refine (run_agrees_iff _ fun k op hop => ?_).mpr (fun k op hop => ?_) 4
  · match k, hop with
    | 0, rfl => exact (by decide : ([.whole 0, .at 0 3] : List Cell).Nodup)
    | 1, rfl | 2, rfl | 3, rfl => trivial
  · match k, hop with
    | 0, rfl | 1, rfl => trivial
    | 2, rfl => exact fun _ _ => ⟨.at 0 5, by decide⟩
    | 3, rfl => exact fun h => absurd h (by decide)

/-- The only column of a row that is selected as a whole is removed. -/
theorem not_agrees_whole : ¬ ∀ ops : List Op, (∀ k (op : Op), ops[k]? = some op → op.Legal (after ops k)) →
    ∀ k, Agrees (after ops k) := by
  intro h
  have hagrees := h [.add (.whole 0), .add (.at 0 3), .remove (.at 0 3)] (fun k op hop => ?_) 3
  · have hrow : ¬ (after [.add (.whole 0), .add (.at 0 3), .remove (.at 0 3)] 3).isSelected 0 (-1) = true := by decide
    exact hrow ((hagrees.row 0).mpr ⟨.whole 0, by decide, rfl⟩)
  · match k, hop with
    | 0, rfl | 1, rfl | 2, rfl => trivial

end JavaFX.SelectedCellsMap
