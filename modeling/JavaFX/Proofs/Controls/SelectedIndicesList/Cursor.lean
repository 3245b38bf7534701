/-
When `get` finds the row at a position.

The number of rows is always right, and so is the rank of a row.  `get` leaves its cursor at the position asked
for and the row there, so as long as the rows stay as they are it finds every row.  After they have changed it
depends on whether as many rows lie below the row of the cursor as when it was found.
-/
import JavaFX.Controls.SelectedIndicesList.Cursor
import JavaFX.Proofs.Controls.SelectedIndicesList.Faithful

namespace JavaFX

open Program SortedUnion List

/-! ### Rows below a bound -/

section Below

variable {l : List Nat} {p : Nat → Bool}

theorem filter_split (hl : l.Pairwise (· < ·)) (hp : ∀ a b, a < b → p b = true → p a = true) :
    l = l.filter p ++ l.filter fun a => ¬ p a = true := by
  induction l with
  | nil => rfl
  | cons a l ih =>
    obtain ⟨ha, hl⟩ := List.pairwise_cons.mp hl
    cases hpa : p a with
    | true => simpa [hpa] using ih hl
    | false =>
      have hnone : ∀ b ∈ l, p b = false := fun b hb =>
        Bool.eq_false_iff.mpr fun hpb => by simp [hp a b (ha b hb) hpb] at hpa
      have hfilter : l.filter p = [] := List.filter_eq_nil_iff.mpr fun b hb => by simp [hnone b hb]
      simpa [hpa, hfilter] using (List.filter_eq_self.mpr fun b hb => by simp [hnone b hb]).symm

variable {i : Nat}

/-- A row is the first that is not below the bound exactly when its position is the number of rows below. -/
theorem head_above_iff (hl : l.Pairwise (· < ·)) (hp : ∀ a b, a < b → p b = true → p a = true)
    (hi : i < l.length) :
    (l.filter fun a => ¬ p a = true).head? = some (l[i]) ↔ (l.filter p).length = i := by
  have hhead : (l.filter fun a => ¬ p a = true).head? = l[(l.filter p).length]? := by
    have hsplit := congrArg (·[(l.filter p).length]?) (filter_split hl hp)
    simpa only [getElem?_append_right le_rfl, Nat.sub_self, ← head?_eq_getElem?] using hsplit.symm
  rw [hhead, ← getElem?_eq_getElem hi]
  exact eq_comm.trans ((getElem?_inj hi hl.nodup).trans eq_comm)

/-- A row is the last below the bound exactly when the rows below are those up to its position. -/
theorem last_below_iff (hl : l.Pairwise (· < ·)) (hp : ∀ a b, a < b → p b = true → p a = true)
    (hi : i < l.length) : (l.filter p).getLast? = some (l[i]) ↔ (l.filter p).length = i + 1 := by
  rw [getLast?_eq_getElem?]
  cases hn : (l.filter p).length with
  | zero => simp [List.length_eq_zero_iff.mp hn]
  | succ n =>
    have hlast : (l.filter p)[n]? = l[n]? := by
      have hsplit := congrArg (·[n]?) (filter_split hl hp)
      rw [getElem?_append_left (by omega)] at hsplit
      exact hsplit.symm
    rw [Nat.add_sub_cancel, hlast, ← getElem?_eq_getElem hi, Nat.add_right_cancel_iff]
    exact eq_comm.trans ((getElem?_inj hi hl.nodup).trans eq_comm)

/-- As many elements pass as there are positions before the first that does not. -/
theorem length_filter_of_lt {n : Nat} (hn : n ≤ l.length) (h : ∀ j (hj : j < l.length), p l[j] = true ↔ j < n) :
    (l.filter p).length = n := by
  have hlow : (l.take n).filter p = l.take n := List.filter_eq_self.mpr fun a ha => by
    obtain ⟨j, hj, rfl⟩ := List.mem_take_iff_getElem.mp ha
    exact (h j (by omega)).mpr (by omega)
  have hhigh : (l.drop n).filter p = [] := List.filter_eq_nil_iff.mpr fun a ha => by
    obtain ⟨j, hj, rfl⟩ := List.mem_drop_iff_getElem.mp ha
    rw [h (n + j) (by omega)]
    omega
  rw [← List.take_append_drop n l, List.filter_append, hlow, hhigh, List.append_nil, List.length_take]
  omega

end Below

namespace SelectedIndicesList.Cursor

variable {s : Cursor}

/-! ### One call -/

theorem found_eq_iff {o : Option Nat} {row : Nat} : JavaBitSet.found o = row ↔ o = some row := by
  cases o with
  | none => exact iff_of_false (by simp only [JavaBitSet.found]; omega) (by simp)
  | some i => simp only [JavaBitSet.found, Int.natCast_inj, Option.some.injEq]

theorem scan_eq (index : Nat) (hi : index < s.list.rows.length) :
    scan index s.list.rows 0 = ((index : Int), (s.list.rows[index] : Int)) := by
  have key : ∀ (rows : List Nat) (k : Nat) (h : k ≤ index) (hi : index - k < rows.length),
      scan index rows k = ((index : Int), (rows[index - k] : Int)) := by
    intro rows
    induction rows with
    | nil => intro k h hi; simp at hi
    | cons row rest ih =>
      intro k h hi
      by_cases hk : k = index
      · subst hk
        simp [scan]
      · have hne : ¬ (k : Int) = index := by omega
        have hsucc : index - k = index - (k + 1) + 1 := by omega
        rw [scan, if_neg hne]
        simp only [hsucc]
        exact ih (k + 1) (by omega) (by rw [length_cons] at hi; omega)
  exact key _ 0 (Nat.zero_le _) hi

/-- A position and the row read there, -1 and -1 where none has been read. -/
abbrev Mark := Int × Int

def mark (s : Cursor) : Mark := (s.lastGetIndex, s.lastGetValue)

/-- When going on from a mark leads to a position: as many rows are up to the row of the mark, or below it, as
there are positions before the one looked for. -/
def Fits (rows : List Nat) (m : Mark) (index : Int) : Prop :=
  if index = m.1 + 1 ∧ m.2 < rows.length then (rows.filter fun row : Nat => (row : Int) ≤ m.2).length = index
  else if index = m.1 - 1 ∧ m.2 > 0 then (rows.filter fun row : Nat => (row : Int) < m.2).length = index + 1
  else True

theorem seek_iff {index : Nat} (hi : index < s.list.rows.length) :
    (seek index s.list.rows.length s).2 = s.list.rows[index] ↔ Fits s.list.rows s.mark index := by
  have hsorted : s.list.rows.Pairwise (· < ·) := s.list.bitset.stream_sorted
  unfold seek Fits mark
  split
  · have hp : ∀ a b : Nat, a < b → decide ((b : Int) < s.lastGetValue + 1) = true →
        decide ((a : Int) < s.lastGetValue + 1) = true := by
      simp only [decide_eq_true_eq]
      omega
    have hiff := head_above_iff hsorted hp hi
    simp only [decide_eq_true_eq, Int.lt_add_one_iff] at hiff
    rw [Int.natCast_inj, ← hiff, ← found_eq_iff, JavaBitSet.nextSetBit]
    simp only [Int.lt_add_one_iff]
    rfl
  · split
    · have hp : ∀ a b : Nat, a < b → decide ((b : Int) < s.lastGetValue) = true →
          decide ((a : Int) < s.lastGetValue) = true := by
        simp only [decide_eq_true_eq]
        omega
      have hiff := last_below_iff hsorted hp hi
      rw [show (index : Int) + 1 = (index + 1 : Nat) from rfl, Int.natCast_inj, ← hiff, ← found_eq_iff,
        JavaBitSet.previousSetBit, Int.sub_add_cancel]
      rfl
    · simp [scan_eq index hi]

/-- What the list is asked for is what the rows say. -/
def Answers (s : Cursor) : Op → Prop
  | .get index => ∀ i : Nat, index = i → ∀ h : i < s.list.rows.length, (get index s).1 = .ok (s.list.rows[i] : Int)
  | .size => (onList getSize s).1 = .ok (s.list.rows.length : Int)
  | .indexOf row => (onList (SelectedIndicesList.indexOf row) s).1 =
    .ok (if row.toNat ∈ s.list.rows ∧ 0 ≤ row then (rank s.list.rows row.toNat : Int) else -1)
  | _ => True

/-- What a call needs to be answered rightly, by the rows there are and the mark left by the calls before. -/
def Op.Fits (rows : List Nat) (m : Mark) : Op → Prop
  | .get index => 0 ≤ index ∧ index < rows.length → Cursor.Fits rows m index
  | .indexOf row => 0 ≤ row
  | _ => True

theorem get_apply (hs : s.list.Steady) (index : Nat) (hi : index < s.list.rows.length) :
    (get index s).1 = .ok (seek index s.list.rows.length s).2 := by
  obtain ⟨n, hn, -⟩ := looks_getSize hs.counts
  have hsize : onList getSize s = (.ok (s.list.rows.length : Int), { s with list.size := n }) := by
    rw [onList, hn]
  rw [get, bind_ok hsize, if_neg (by omega)]
  rfl

theorem answers_op_iff (hs : s.list.Steady) (op : Op) : Answers s op ↔ op.Fits s.list.rows s.mark := by
  cases op with
  | get index =>
    constructor
    · rintro h ⟨hnonneg, hlt⟩
      obtain ⟨i, rfl⟩ := Int.eq_ofNat_of_zero_le hnonneg
      have hi : i < s.list.rows.length := by omega
      have hget := h i rfl hi
      rw [get_apply hs i hi, Except.ok.injEq] at hget
      exact (seek_iff hi).mp hget
    · rintro h i rfl hi
      rw [get_apply hs i hi, (seek_iff hi).mpr (h ⟨by omega, by omega⟩)]
  | size =>
    obtain ⟨n, hn, -⟩ := looks_getSize hs.counts
    exact iff_of_true (by rw [Answers, onList, hn]) trivial
  | indexOf row =>
    by_cases hrow : 0 ≤ row
    · refine iff_of_true ?_ hrow
      obtain ⟨i, rfl⟩ := Int.eq_ofNat_of_zero_le hrow
      have hmem : i ∈ s.list.rows ↔ s.list.bitset.get i = true := JavaBitSet.mem_stream
      cases hi : s.list.bitset.get i with
      | true =>
        obtain ⟨n, hn, -⟩ := looks_indexOf hs.counts hi
        simp [Answers, onList, hn, hmem, hi]
      | false => simp [Answers, onList, indexOf_unselected hi, hmem, hi]
    · -- The bit set does not take a negative index.
      refine iff_of_false (fun h => ?_) hrow
      have hthrow : SelectedIndicesList.indexOf row s.list = (.error .indexOutOfBounds, s.list) := by
        have his : isSelected row s.list = (.error .indexOutOfBounds, s.list) := by
          rw [isSelected, if_pos (by omega)]
          rfl
        rw [SelectedIndicesList.indexOf, bind_error his]
      simp [Answers, onList, hthrow] at h
  | change | clearRange | reset => exact iff_of_true trivial trivial

/-! ### Runs -/

theorem steady_clearRange {s : SelectedIndicesList} (hs : s.Steady) (lo hi : Int) :
    (SelectedIndicesList.clearRange lo hi s).2.Steady := by
  have hbegin : SelectedIndicesList.clearRange lo hi s =
      (clearBitRange lo hi >>= fun _ => endChange) { opened s with size := -1 } := by
    rw [SelectedIndicesList.clearRange, bind_ok (beginChange_apply hs.notAtomic)]
    rfl
  rw [hbegin, clearBitRange]
  split
  · exact steady_of_bad hs
  · obtain ⟨s', hs', -, hsize, hrep⟩ := report_spec
      (t := { opened s with size := -1, bitset := s.bitset.clearRange lo.toNat hi.toNat }) hs (records_pure [])
      (Or.inl rfl) hs.notAtomic rfl rfl
    have hsteady : s'.Steady := Outcome.steady ⟨hrep, Or.inl hsize⟩ hs
    exact Eq.mpr (congrArg (fun r => Steady r.2) hs') hsteady

/-- A call that leaves the rows alone. -/
def Op.Reads : Op → Prop
  | .get _ | .size | .indexOf _ | .reset => True
  | .change .. | .clearRange .. => False

theorem step_reads (hs : s.list.Steady) (op : Op) (hop : op.Reads) :
    (s.step op).list.Steady ∧ (s.step op).list.rows = s.list.rows := by
  have hlook {x : Call Int} {v : Int} (h : Looks x s.list v) :
      (x s.list).2.Steady ∧ (x s.list).2.rows = s.list.rows := by
    obtain ⟨n, hn, hc⟩ := h
    rw [hn]
    exact ⟨⟨hs.notAtomic, hc, hs.builder⟩, rfl⟩
  cases op with
  | get index =>
    have hsize := hlook (looks_getSize hs.counts)
    obtain ⟨n, hn, -⟩ := looks_getSize hs.counts
    have hn' : onList getSize s = (.ok (s.list.rows.length : Int), { s with list := (getSize s.list).2 }) := by
      rw [onList, hn]
    rw [step, get, bind_ok hn']
    split <;> exact hsize
  | size => exact hlook (looks_getSize hs.counts)
  | indexOf row =>
    show (SelectedIndicesList.indexOf row s.list).2.Steady ∧ (SelectedIndicesList.indexOf row s.list).2.rows = _
    by_cases hrow : row < 0
    · have his : isSelected row s.list = (.error .indexOutOfBounds, s.list) := by
        rw [isSelected, if_pos hrow]
        rfl
      rw [SelectedIndicesList.indexOf, bind_error his]
      exact ⟨hs, rfl⟩
    · obtain ⟨i, rfl⟩ := Int.eq_ofNat_of_zero_le (by omega : 0 ≤ row)
      cases hi : s.list.bitset.get i with
      | true => exact hlook (looks_indexOf hs.counts hi)
      | false =>
        rw [indexOf_unselected hi]
        exact ⟨hs, rfl⟩
  | reset => exact ⟨hs, rfl⟩
  | change | clearRange => exact hop.elim

theorem steady_step (hs : s.list.Steady) (op : Op) : (s.step op).list.Steady := by
  cases op with
  | change itemCount call => exact (run_faithful hs itemCount call).2.2
  | clearRange lo hi => exact steady_clearRange hs lo hi
  | get | size | indexOf | reset =>
    refine (step_reads hs _ ?_).1
    exact trivial

/-- Where a call leaves the mark: reading a position there is leaves it there, `reset` puts it back, and no
other call moves it. -/
def Op.mark (rows : List Nat) (m : Mark) : Op → Mark
  | .get index => if 0 ≤ index ∧ index < rows.length then (index, rows.getD index.toNat 0) else m
  | .reset => (-1, -1)
  | _ => m

theorem mark_step {op : Op} (hs : s.list.Steady) (h : Answers s op) :
    (s.step op).mark = op.mark s.list.rows s.mark := by
  cases op with
  | get index =>
    obtain ⟨n, hn, -⟩ := looks_getSize hs.counts
    have hsize : onList getSize s = (.ok (s.list.rows.length : Int), { s with list.size := n }) := by
      rw [onList, hn]
    by_cases hrange : 0 ≤ index ∧ index < s.list.rows.length
    · obtain ⟨i, rfl⟩ := Int.eq_ofNat_of_zero_le hrange.1
      have hi : i < s.list.rows.length := by omega
      have hrow := h i rfl hi
      rw [get_apply hs i hi, Except.ok.injEq] at hrow
      have hindex : (seek i s.list.rows.length s).1 = i := by
        unfold seek
        split
        · omega
        · split
          · omega
          · rw [scan_eq i hi]
      have hstep : (s.step (.get i)).mark = seek i s.list.rows.length s := by
        rw [step, get, bind_ok hsize, if_neg (by omega)]
        rfl
      rw [hstep, Op.mark, if_pos hrange, Int.toNat_natCast, List.getD_eq_getElem?_getD,
        List.getElem?_eq_getElem hi, Option.getD_some]
      exact Prod.ext hindex hrow
    · rw [step, get, bind_ok hsize, if_pos (by omega), Op.mark, if_neg hrange]
      rfl
  | size | indexOf | change | clearRange | reset => rfl

/-- The state after the first `k` calls on a list made from a bit set. -/
def after (bitset : JavaBitSet) (ops : List Op) (k : Nat) : Cursor := (ops.take k).foldl step { list := { bitset } }

theorem steady_after (bitset : JavaBitSet) (ops : List Op) (k : Nat) : (after bitset ops k).list.Steady := by
  have key : ∀ (ops : List Op) (s : Cursor), s.list.Steady → (ops.foldl step s).list.Steady := by
    intro ops
    induction ops with
    | nil => exact fun _ hs => hs
    | cons op ops ih => exact fun s hs => ih _ (steady_step hs op)
  exact key _ _ ⟨rfl, Or.inl rfl, Or.inl rfl⟩

theorem after_succ {bitset : JavaBitSet} {ops : List Op} {k : Nat} {op : Op} (hop : ops[k]? = some op) :
    after bitset ops (k + 1) = (after bitset ops k).step op := by
  rw [after, List.take_add_one, hop, List.foldl_append]
  rfl

/-- The mark before the `k`-th call, told by the positions asked for until then and the rows at the time. -/
def marked (bitset : JavaBitSet) (ops : List Op) : Nat → Mark
  | 0 => (-1, -1)
  | k + 1 => ops[k]?.elim (marked bitset ops k) (Op.mark (after bitset ops k).list.rows (marked bitset ops k))

/-- As long as every call has been answered as the rows say, the cursor is the mark. -/
theorem mark_after {bitset : JavaBitSet} {ops : List Op} {k : Nat}
    (h : ∀ j < k, ∀ op, ops[j]? = some op → Answers (after bitset ops j) op) :
    (after bitset ops k).mark = marked bitset ops k := by
  induction k with
  | zero => rfl
  | succ k ih =>
    have hk := ih fun j hj => h j (by omega)
    cases hop : ops[k]? with
    | none =>
      have hsame : after bitset ops (k + 1) = after bitset ops k := by
        rw [after, List.take_add_one, hop, Option.toList_none, List.append_nil]
        rfl
      rw [hsame, marked, hop, hk]
      rfl
    | some op =>
      rw [after_succ hop, marked, hop, mark_step (steady_after bitset ops k) (h k (by omega) op hop), hk]
      rfl

/-- **In a run every call is answered as the rows say if and only if every `get` fits the mark left by the reads
before it, and no negative row is looked for.** -/
theorem run_answers_iff (bitset : JavaBitSet) (ops : List Op) :
    (∀ k (op : Op), ops[k]? = some op → Answers (after bitset ops k) op) ↔
      ∀ k (op : Op), ops[k]? = some op → op.Fits (after bitset ops k).list.rows (marked bitset ops k) := by
  constructor
  · intro h k op hop
    rw [← mark_after fun j _ => h j]
    exact (answers_op_iff (steady_after bitset ops k) op).mp (h k op hop)
  · intro h k
    induction k using Nat.strong_induction_on with
    | _ k ih =>
      intro op hop
      have hfits := h k op hop
      rw [← mark_after ih] at hfits
      exact (answers_op_iff (steady_after bitset ops k) op).mpr hfits

/-- The first of three rows is taken out after the first two have been read. -/
theorem not_answers_cleared : ¬ ∀ (bitset : JavaBitSet) (ops : List Op) (k : Nat) (op : Op), ops[k]? = some op →
    Answers (after bitset ops k) op := by
  intro h
  have hget := h .empty [.change 3 (.setIndices 0 [1, 2]), .get 0, .get 1, .change 3 (.clear 0), .get 0] 4
    (.get 0) rfl 0 rfl (by decide +kernel)
  revert hget
  decide +kernel

/-! ### Calls that leave the rows alone -/

/-- The mark is put back, or at a position there is and its row. -/
def Sits (rows : List Nat) (m : Mark) : Prop :=
  m = (-1, -1) ∨ ∃ i, ∃ h : i < rows.length, m = ((i : Int), (rows[i] : Int))

/-- A mark on the rows there are fits every position. -/
theorem Sits.fits {rows : List Nat} {m : Mark} (hsorted : rows.Pairwise (· < ·)) (h : Sits rows m) {index : Int}
    (hindex : 0 ≤ index) : Fits rows m index := by
  unfold Fits
  obtain rfl | ⟨i, hi, rfl⟩ := h
  · have hnone : (rows.filter fun row : Nat => (row : Int) ≤ -1) = [] :=
      List.filter_eq_nil_iff.mpr fun row _ => by
        rw [decide_eq_true_eq]
        omega
    simp only [hnone]
    split
    · simp only [length_nil]
      omega
    · rw [if_neg (by omega)]
      trivial
  · have hbelow : (rows.filter fun row : Nat => (row : Int) < rows[i]).length = i :=
      length_filter_of_lt hi.le fun j hj => by
        rw [decide_eq_true_eq, Int.ofNat_lt, hsorted.sortedLT.getElem_lt_getElem_iff]
    have hupto : (rows.filter fun row : Nat => (row : Int) ≤ rows[i]).length = i + 1 :=
      length_filter_of_lt hi fun j hj => by
        rw [decide_eq_true_eq, Int.ofNat_le, ← not_lt, hsorted.sortedLT.getElem_lt_getElem_iff]
        omega
    dsimp only
    split
    · omega
    · split
      · omega
      · trivial

theorem Sits.step {rows : List Nat} {m : Mark} (h : Sits rows m) {op : Op} (hop : op.Reads) :
    Sits rows (op.mark rows m) := by
  cases op with
  | get index =>
    by_cases hrange : 0 ≤ index ∧ index < rows.length
    · obtain ⟨i, rfl⟩ := Int.eq_ofNat_of_zero_le hrange.1
      have hi : i < rows.length := by omega
      rw [Op.mark, if_pos hrange]
      refine Or.inr ⟨i, hi, ?_⟩
      rw [Int.toNat_natCast, List.getD_eq_getElem?_getD, List.getElem?_eq_getElem hi, Option.getD_some]
    · rw [Op.mark, if_neg hrange]
      exact h
  | size | indexOf => exact h
  | reset => exact Or.inl rfl
  | change | clearRange => exact hop.elim

/-- As long as the rows stay as they are, every call is answered as they say. -/
theorem reads_answered (hs : s.list.Steady) (hsits : Sits s.list.rows s.mark) {ops : List Op}
    (hops : ∀ op ∈ ops, op.Reads ∧ ∀ row, op = .indexOf row → 0 ≤ row) {k : Nat} {op : Op} (hop : ops[k]? = some op) :
    Answers ((ops.take k).foldl step s) op := by
  induction ops generalizing s k with
  | nil => simp at hop
  | cons first ops ih =>
    have hfirst := hops first (by simp)
    have hanswers : Answers s first := by
      refine (answers_op_iff hs first).mpr ?_
      cases first with
      | get index => exact fun h => hsits.fits s.list.bitset.stream_sorted h.1
      | indexOf row => exact hfirst.2 row rfl
      | size | change | clearRange | reset => exact trivial
    cases k with
    | zero => exact Option.some.inj hop ▸ hanswers
    | succ k =>
      have hmark := hsits.step hfirst.1
      rw [← mark_step hs hanswers, ← (step_reads hs first hfirst.1).2] at hmark
      exact ih (step_reads hs first hfirst.1).1 hmark (fun op h => hops op (List.mem_cons_of_mem _ h)) hop

end SelectedIndicesList.Cursor

end JavaFX
