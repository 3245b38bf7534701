/-
What the list of selected rows reports.

A call makes at most one record.  A row is reported at its rank among the rows there are; a
range is reported at its full length from the rank of its first row on; a batch of rows is
reported as one block that starts at the first new row.  The length of that block comes from
counters that go wrong when the batch ends with two neighbours behind a gap.
-/
import JavaFX.Controls.SelectedIndicesList
import JavaFX.Lib.SortedUnion
import JavaFX.Proofs.ObservableListWrapper.Kinds

namespace JavaFX

open Program SortedUnion ListChangeBuilder List

/-! ### Bits and rows -/

namespace JavaBitSet

theorem stream_sorted (b : JavaBitSet) : b.stream.Pairwise (· < ·) := List.pairwise_lt_range.filter _

@[simp] theorem mem_stream {b : JavaBitSet} {i : Nat} : i ∈ b.stream ↔ b.get i = true := by
  rw [stream, mem_filter, mem_range]
  exact ⟨fun h => h.2, fun h => ⟨b.bound i h, h⟩⟩

/-- The bits of `b` and `rows`. -/
def Joins (b : JavaBitSet) (rows : List Nat) (b' : JavaBitSet) : Prop :=
  ∀ i, b'.get i = true ↔ b.get i = true ∨ i ∈ rows

theorem Joins.adds {b b' : JavaBitSet} {rows : List Nat} (h : Joins b rows b')
    (hsorted : rows.Pairwise (· < ·)) (hfresh : ∀ i ∈ rows, b.get i = false) :
    Adds b.stream rows b'.stream where
  sorted_old := b.stream_sorted
  sorted_added := hsorted
  sorted_new := b'.stream_sorted
  mem i := by rw [mem_stream, mem_stream, h i]
  fresh i hi := by rw [mem_stream, hfresh i hi]; simp

theorem joins_set (b : JavaBitSet) (i : Nat) : Joins b [i] (b.set i) := by
  intro j
  show Function.update b.get i true j = true ↔ _
  by_cases hji : j = i
  · simp [hji]
  · simp [hji]

theorem joins_setRange (b : JavaBitSet) (lo hi : Nat) :
    Joins b ((range' lo (hi - lo)).filter fun i => !b.get i) (b.setRange lo hi) := by
  intro j
  show ((decide (lo ≤ j) && decide (j < hi)) || b.get j) = true ↔ _
  simp only [Bool.or_eq_true, Bool.and_eq_true, decide_eq_true_eq, mem_filter, mem_range'_1, Bool.not_eq_true']
  cases b.get j with
  | true => simp
  | false =>
    simp only [Bool.false_eq_true, or_false, false_or, and_true]
    omega

end JavaBitSet

/-! ### Replaying a record -/

/-- A record that adds a block of the list there is now. -/
def addedRecord (lo hi : Int) : SubChange Nat := ⟨lo, hi, some [], [], false⟩

/-- A record that takes elements out. -/
def removedRecord (idx : Int) (removed : List Nat) : SubChange Nat := ⟨idx, idx, some removed, [], false⟩

theorem replay_record (old new : List Nat) (lo hi : Int) (removed : List Nat) :
    (⟨new, [⟨lo, hi, some removed, [], false⟩]⟩ : Change Nat).replay old
      = EditScript.applyEdit new old ⟨lo, hi, removed⟩ := by
  show (EditScript.applyEdit new old ⟨lo, hi, removed⟩).bind (EditScript.replay new []) = _
  cases EditScript.applyEdit new old ⟨lo, hi, removed⟩ with
  | none => rfl
  | some l => rfl

variable {old new : List Nat} {hi : Int}

theorem replay_added {lo : Int} : (⟨new, [addedRecord lo hi]⟩ : Change Nat).replay old = some new ↔
      0 ≤ lo ∧ lo ≤ hi ∧ hi ≤ new.length ∧ lo ≤ old.length ∧
        new = old.take lo.toNat ++ (new.drop lo.toNat).take (hi - lo).toNat ++ old.drop lo.toNat := by
  rw [addedRecord, replay_record, EditScript.applyEdit]
  simp only [List.length_nil, List.take_zero, and_true]
  by_cases hb : 0 ≤ lo ∧ lo ≤ hi ∧ hi ≤ new.length ∧ lo ≤ old.length
  · rw [if_pos hb, Option.some_inj]
    constructor
    · intro h
      exact ⟨hb.1, hb.2.1, hb.2.2.1, hb.2.2.2, h.symm⟩
    · rintro ⟨-, -, -, -, h⟩
      exact h.symm
  · rw [if_neg hb]
    constructor
    · intro h
      cases h
    · rintro ⟨h1, h2, h3, h4, -⟩
      exact absurd ⟨h1, h2, h3, h4⟩ hb

theorem replay_added_length {lo : Int} (h : (⟨new, [addedRecord lo hi]⟩ : Change Nat).replay old = some new) :
    (new.length : Int) = old.length + (hi - lo) := by
  obtain ⟨h0, h1, h2, h3, heq⟩ := replay_added.mp h
  have hlength := congrArg length heq
  simp only [length_append, length_take, length_drop] at hlength
  omega

/-- **A block at the rank of the first added element says what was added exactly when it has
the right length and nothing lies between the added elements.** -/
theorem replay_added_iff {rest : List Nat} {a : Nat} (h : Adds old (a :: rest) new) :
    (⟨new, [addedRecord (rank old a) hi]⟩ : Change Nat).replay old = some new ↔
      hi = rank old a + (a :: rest).length ∧ Compact old (a :: rest) := by
  have hlength := h.length
  have hrank := rank_le_length old a
  constructor
  · intro hreplay
    have hsum := replay_added_length hreplay
    obtain ⟨-, -, -, -, heq⟩ := replay_added.mp hreplay
    exact ⟨by omega, h.compact heq⟩
  · rintro ⟨rfl, hc⟩
    have hblock := h.block hc
    refine replay_added.mpr ⟨by omega, by omega, by omega, by omega, ?_⟩
    have htake : (old.take (rank old a)).length = rank old a := by
      rw [length_take]
      omega
    have hmid : (new.drop (rank old a)).take (a :: rest).length = a :: rest := by
      rw [hblock, append_assoc, drop_left' htake, take_left]
    have hcount : ((rank old a : Int) + ((a :: rest).length : Nat) - (rank old a : Nat)).toNat
        = (a :: rest).length := by omega
    rw [hcount, Int.toNat_natCast, hmid]
    exact hblock

theorem replay_removed {removed : List Nat} {idx : Nat} (hidx : idx ≤ new.length)
    (h : old = new.take idx ++ removed ++ new.drop idx) :
    (⟨new, [removedRecord idx removed]⟩ : Change Nat).replay old = some new := by
  have htake : (new.take idx).length = idx := by
    rw [length_take]
    omega
  have hfront : old.take idx = new.take idx := by
    rw [h, append_assoc, take_left' htake]
  have hmid : (old.drop idx).take removed.length = removed := by
    rw [h, append_assoc, drop_left' htake, take_left]
  have hback : old.drop (idx + removed.length) = new.drop idx := by
    rw [← drop_drop, h, append_assoc, drop_left' htake, drop_left]
  have hlen : old.length = new.length + removed.length := by
    have := congrArg length h
    simp only [length_append, length_take, length_drop] at this
    omega
  rw [removedRecord, replay_record, EditScript.applyEdit]
  simp only [Int.toNat_natCast]
  rw [if_pos ⟨by omega, by omega, by omega, by omega, hmid⟩]
  rw [hfront, hback, Int.sub_self, Int.toNat_zero, List.take_zero, append_nil, take_append_drop]

namespace SelectedIndicesList

variable {s s' : SelectedIndicesList}

/-! ### Positions -/

/-- `n` may stand in `size`. -/
def Counts (s : SelectedIndicesList) (n : Int) : Prop := n = -1 ∨ n = s.bitset.cardinality

/-- The call returns `v`, and writes to `size` only. -/
def Looks (x : Call Int) (s : SelectedIndicesList) (v : Int) : Prop :=
  ∃ n, x s = (.ok v, { s with size := n }) ∧ s.Counts n

theorem looks_getSize (h : s.Counts s.size) : Looks getSize s s.rows.length := by
  refine ⟨s.bitset.cardinality, ?_, Or.inr rfl⟩
  simp only [getSize]
  rcases h with h | h
  · rw [if_neg (by omega)]
    rfl
  · rw [if_pos (by omega), ← h]
    exact congrArg (fun n => (Except.ok n, s)) h

theorem Looks.map {x : Call Int} {v : Int} (h : Looks x s v) (f : Int → Int) :
    Looks (x >>= fun a => pure (f a)) s (f v) := by
  obtain ⟨n, hn, hc⟩ := h
  exact ⟨n, by rw [bind_ok hn]; rfl, hc⟩

theorem isSelected_apply (i : Nat) (s : SelectedIndicesList) : isSelected i s = (.ok (s.bitset.get i), s) := by
  rfl

/-- **`indexOf` a selected row is its rank.** -/
theorem looks_indexOf (h : s.Counts s.size) {i : Nat} (hi : s.bitset.get i = true) :
    Looks (indexOf i) s (rank s.rows i) := by
  have hmem : i ∈ s.rows := JavaBitSet.mem_stream.mpr hi
  have hsum := rank_add s.bitset.stream_sorted hmem
  have hstay : Looks (read fun s => ((s.bitset.stream.filter (· < i)).length : Int)) s
      (rank s.rows i) := ⟨s.size, rfl, h⟩
  have hsel : indexOf i s = indexOfSelected i s := by
    rw [indexOf, bind_ok (isSelected_apply i s), if_pos hi]
    rfl
  suffices hs : Looks (indexOfSelected i) s (rank s.rows i) by
    obtain ⟨n, hn, hc⟩ := hs
    exact ⟨n, hsel.trans hn, hc⟩
  have hread : (read (·.bitset.length) : Call Nat) s = (.ok s.bitset.length, s) := rfl
  unfold Looks
  rw [indexOfSelected, bind_ok hread]
  by_cases h0 : i = 0
  · rw [if_pos h0]
    have hrank : rank s.rows i = 0 := by
      rw [rank, h0]
      simp
    exact ⟨s.size, by rw [hrank]; rfl, h⟩
  · rw [if_neg h0]
    by_cases hlast : i = s.bitset.length - 1
    · rw [if_pos hlast]
      -- nothing is above the last row
      have habove : s.bitset.stream.filter (i < ·) = [] := by
        refine List.filter_eq_nil_iff.mpr fun j hj => ?_
        have := JavaBitSet.lt_length (JavaBitSet.mem_stream.mp hj)
        simp only [decide_eq_true_eq]
        omega
      rw [habove] at hsum
      have hrank : (rank s.rows i : Int) = s.rows.length - 1 := by
        simp only [List.length_nil] at hsum
        unfold rows
        omega
      rw [hrank]
      exact (looks_getSize h).map (· - 1)
    · rw [if_neg hlast]
      by_cases hhalf : i > s.bitset.length / 2
      · rw [if_pos hhalf]
        have hrank : (rank s.rows i : Int) = s.rows.length - (1 + (s.bitset.stream.filter (i < ·)).length) := by
          unfold rows
          omega
        rw [hrank]
        exact (looks_getSize h).map (fun n => n - (1 + ((s.bitset.stream.filter (i < ·)).length : Int)))
      · rw [if_neg hhalf]
        exact hstay

theorem indexOf_unselected {i : Nat} (hi : s.bitset.get i = false) : indexOf i s = (.ok (-1), s) := by
  rw [indexOf, bind_ok (isSelected_apply i s), hi]
  rfl

end SelectedIndicesList

namespace SelectedIndicesList

variable {s s' t : SelectedIndicesList} {rs rs' rs'' : List (SubChange Nat)}

/-! ### Reports -/

/-- Where the list stands between two calls: nothing is pending, or a call that failed has left
its block open. -/
structure Steady (s : SelectedIndicesList) : Prop where
  notAtomic : s.isAtomic = false
  counts : s.Counts s.size
  builder : s.changeBuilder = {} ∨ ∃ k, Level (k + 1) s.changeBuilder

/-- The call turns the records `rs` of an outermost block into `rs'`, and keeps the level of
any other block. -/
structure Records (x : Call Unit) (rs rs' : List (SubChange Nat)) : Prop where
  outer : ∀ s : SelectedIndicesList, s.isAtomic = false → s.changeBuilder = holding 1 rs →
    x s = (.ok (), { s with changeBuilder := holding 1 rs' })
  inner : ∀ (s : SelectedIndicesList) (k : Nat), s.isAtomic = false → Level (k + 1) s.changeBuilder →
    ∃ b, x s = (.ok (), { s with changeBuilder := b }) ∧ Level (k + 1) b

theorem records_mirror {f : ListChangeBuilder Nat → Except JavaException (ListChangeBuilder Nat)}
    (houter : f (holding 1 rs) = .ok (holding 1 rs'))
    (hinner : ∀ k b, Level (k + 1) b → ∃ b', f b = .ok b' ∧ Level (k + 1) b') :
    Records (mirror f) rs rs' where
  outer s ha hb := by
    simp only [mirror, unlessAtomic, ha, Bool.false_eq_true, if_false, hb, houter]
  inner s k ha hl := by
    obtain ⟨b', hb', hl'⟩ := hinner k s.changeBuilder hl
    refine ⟨b', ?_, hl'⟩
    simp only [mirror, unlessAtomic, ha, Bool.false_eq_true, if_false, hb']

theorem records_nextAdd (lo hi : Int) : Records (nextAdd lo hi) [] [addedRecord lo hi] :=
  records_mirror (nextAdd_first 0 lo hi) fun _ _ hl => hl.nextAdd lo hi

/-- A block that starts where the last one ended makes it longer. -/
theorem records_nextAdd_again (start lo hi : Int) :
    Records (nextAdd lo hi) [addedRecord start lo] [addedRecord start hi] :=
  records_mirror (nextAdd_again 0 start lo hi []) fun _ _ hl => hl.nextAdd lo hi

theorem records_nextRemove (idx : Int) (removed : Nat) :
    Records (nextRemove idx removed) [] [removedRecord idx [removed]] :=
  records_mirror (nextRemove_first 0 idx removed) fun _ _ hl => by
    obtain ⟨b', hb', hl', -⟩ := hl.nextRemove idx removed
    exact ⟨b', hb', hl'⟩

theorem records_pure (rs : List (SubChange Nat)) : Records (pure ()) rs rs where
  outer s _ hb := by rw [pure_apply, ← hb]
  inner s k _ hl := ⟨s.changeBuilder, rfl, hl⟩

theorem Records.bind {x y : Call Unit} (hx : Records x rs rs') (hy : Records y rs' rs'') :
    Records (x >>= fun _ => y) rs rs'' where
  outer s ha hb := by
    rw [bind_ok (hx.outer s ha hb)]
    exact hy.outer { s with changeBuilder := holding 1 rs' } ha rfl
  inner s k ha hl := by
    obtain ⟨b, hb, hl'⟩ := hx.inner s k ha hl
    rw [bind_ok hb]
    exact hy.inner { s with changeBuilder := b } k ha hl'

/-- What a call that made the records `rs` has told, given where it started. -/
structure Reported (s s' : SelectedIndicesList) (rs : List (SubChange Nat)) : Prop where
  notAtomic : s'.isAtomic = false
  idle : s.changeBuilder = {} → s'.changeBuilder = {} ∧ s'.fired = s.fired ++ if rs = [] then [] else [⟨s'.rows, rs⟩]
  open_block : ∀ k, Level (k + 1) s.changeBuilder → Level (k + 1) s'.changeBuilder ∧ s'.fired = s.fired

theorem beginChange_apply (h : s.isAtomic = false) :
    beginChange s = (.ok (), { s with changeBuilder := s.changeBuilder.beginChange }) := by
  simp only [beginChange, unlessAtomic, h]
  rfl

/-- The end of an outermost block hands its record out, if it has one. -/
theorem endChange_outer {r : SubChange Nat} {removed : List Nat} (h : s.isAtomic = false)
    (hr : r.removed = some removed) (hb : s.changeBuilder = holding 1 [r]) :
    endChange s = (.ok (), { s with changeBuilder := {}, fired := s.fired ++ [⟨s.rows, [r]⟩] }) := by
  have hfinal : finalizeSubChange r = r := by
    unfold finalizeSubChange SubChange.getRemoved
    rw [hr]
    exact congrArg (fun removed => { r with removed := removed }) hr.symm
  have hpending : (holding 1 [r]).pending = .ok [r] := by
    show Except.ok [finalizeSubChange r] = _
    rw [hfinal]
  have hend := endChange_fires s.rows rfl (Or.inl (by simp [holding])) hpending
  simp only [endChange, unlessAtomic, h, hb, hend]
  rfl

theorem endChange_inner_block {k : Nat} (h : s.isAtomic = false) (hl : Level (k + 2) s.changeBuilder) :
    endChange s = (.ok (), { s with changeBuilder := s.changeBuilder.unlock }) := by
  have hend := endChange_inner s.rows (by rw [hl.lock]; omega)
  simp only [endChange, unlessAtomic, h, hend, Option.toList_none, append_nil]
  rfl

/-- Records a block can end with: none, or one that owns what it removes. -/
def Single (rs : List (SubChange Nat)) : Prop :=
  rs = [] ∨ ∃ r removed, rs = [r] ∧ r.removed = some removed

theorem single_added (lo hi : Int) : Single [addedRecord lo hi] := Or.inr ⟨_, [], rfl, rfl⟩

theorem single_removed (idx : Int) (removed : List Nat) : Single [removedRecord idx removed] :=
  Or.inr ⟨_, removed, rfl, rfl⟩

/-- **The end of a call that has made its records.**  `t` is where the call stands when it has
begun its block and done its work. -/
theorem report_spec {x : Call Unit} (hs : s.Steady) (hx : Records x [] rs) (hrs : Single rs)
    (ha : t.isAtomic = false) (hb : t.changeBuilder = s.changeBuilder.beginChange)
    (hf : t.fired = s.fired) :
    ∃ s', (x >>= fun _ => endChange) t = (.ok (), s') ∧ s'.bitset = t.bitset ∧ s'.size = t.size ∧
      Reported s s' rs := by
  rcases hs.builder with hidle | ⟨k, hl⟩
  · have hopen : t.changeBuilder = holding 1 [] := by
      rw [hb, hidle]
      rfl
    have hlevel : ∀ k, ¬ Level (k + 1) s.changeBuilder := by
      intro k hk
      have := hk.lock
      rw [hidle] at this
      cases this
    have hxt := hx.outer t ha hopen
    rcases hrs with rfl | ⟨r, removed, rfl, hr⟩
    · have hquiet : endChange { t with changeBuilder := holding 1 [] } = (.ok (), { t with changeBuilder := {} }) := by
        have hend := endChange_quiet (b := (holding 1 [] : ListChangeBuilder Nat)) t.rows rfl rfl rfl
          rfl
        have hend' : (holding 1 []).endChange (rows { t with changeBuilder := holding 1 [] }) = .ok ({}, none) := hend
        have ha' : isAtomic { t with changeBuilder := holding 1 [] } = false := ha
        simp only [endChange, unlessAtomic, ha', Bool.false_eq_true, if_false, hend', Option.toList_none, append_nil]
      refine ⟨_, (bind_ok hxt).trans hquiet, rfl, rfl, ha, fun _ => ⟨rfl, ?_⟩, fun k hk => absurd hk (hlevel k)⟩
      simpa using hf
    · have hend := endChange_outer (s := { t with changeBuilder := holding 1 [r] }) ha hr rfl
      refine ⟨_, (bind_ok hxt).trans hend, rfl, rfl, ha, fun _ => ⟨rfl, ?_⟩, fun k hk => absurd hk (hlevel k)⟩
      rw [hf, if_neg (by simp)]
      rfl
  · have hopen : Level (k + 1 + 1) t.changeBuilder := by
      rw [hb]
      exact hl.beginChange
    obtain ⟨b, hxt, hlb⟩ := hx.inner t (k + 1) ha hopen
    have hend := endChange_inner_block (s := { t with changeBuilder := b }) ha hlb
    refine ⟨_, (bind_ok hxt).trans hend, rfl, rfl, ha, ?_, ?_⟩
    · intro hidle
      have := hl.lock
      rw [hidle] at this
      cases this
    · intro k' hk'
      have hkk : k' = k := by
        have h1 := hk'.lock
        have h2 := hl.lock
        omega
      subst hkk
      exact ⟨hlb.unlock, hf⟩

end SelectedIndicesList

namespace SelectedIndicesList

variable {s s' t : SelectedIndicesList} {rs : List (SubChange Nat)} {itemCount : Int}

/-! ### One row -/

/-- A call has run to its end, and has made the records `rs`. -/
structure Outcome (s s' : SelectedIndicesList) (rs : List (SubChange Nat)) : Prop where
  reported : Reported s s' rs
  counts : s'.Counts s'.size

theorem Outcome.steady (h : Outcome s s' rs) (hs : s.Steady) : s'.Steady where
  notAtomic := h.reported.notAtomic
  counts := h.counts
  builder := by
    rcases hs.builder with hidle | ⟨k, hl⟩
    · exact Or.inl (h.reported.idle hidle).1
    · exact Or.inr ⟨k, (h.reported.open_block k hl).1⟩

/-- A row that `set` may select. -/
def Selectable (itemCount : Int) (s : SelectedIndicesList) (i : Int) : Prop :=
  isValidIndex itemCount i = true ∧ s.bitset.get i.toNat = false

theorem set_of_not_selectable {i : Int} (h : ¬ Selectable itemCount s i) :
    set itemCount i s = (.ok (), s) := by
  unfold set
  by_cases hv : isValidIndex itemCount i = true
  · have hi : 0 ≤ i := by
      simp only [isValidIndex, Bool.and_eq_true, decide_eq_true_eq] at hv
      exact hv.1
    have hsel : s.bitset.get i.toNat = true := by
      cases hget : s.bitset.get i.toNat with
      | true => rfl
      | false => exact absurd ⟨hv, hget⟩ h
    have hi' : ((i.toNat : Nat) : Int) = i := Int.toNat_of_nonneg hi
    have his : isSelected i s = (.ok true, s) := by rw [← hsel, ← hi', isSelected_apply, hi']
    rw [if_pos hv, bind_ok his]
    rfl
  · rw [if_neg hv]
    rfl

variable {i : Nat}

theorem set_of_selectable (h : Selectable itemCount s i) :
    set itemCount i s = select i s := by
  have his : isSelected i s = (.ok false, s) := by
    exact congrArg (fun b => (Except.ok b, s)) h.2
  unfold set
  rw [if_pos h.1, bind_ok his]
  rfl

/-- The state of a call that has begun its block. -/
def opened (s : SelectedIndicesList) : SelectedIndicesList :=
  { s with changeBuilder := s.changeBuilder.beginChange }

theorem rank_of_joins {b b' : JavaBitSet} {rows : List Nat} (h : b.Joins rows b')
    (hsorted : rows.Pairwise (· < ·)) (hfresh : ∀ i ∈ rows, b.get i = false)
    (hi : ∀ j ∈ rows, i ≤ j) : rank b'.stream i = rank b.stream i :=
  (h.adds hsorted hfresh).rank_eq hi

/-- **`set` reports the row it selects at its rank.** -/
theorem select_spec (hs : s.Steady) (hi : s.bitset.get i = false) :
    ∃ s', select i s = (.ok (), s') ∧ s'.bitset = s.bitset.set i ∧
      Outcome s s' [addedRecord (rank s.rows i) (rank s.rows i + 1)] := by
  have hrank : rank (s.bitset.set i).stream i = rank s.rows i :=
    rank_of_joins (s.bitset.joins_set i) (pairwise_singleton _ _) (by simpa using hi) (by simp)
  obtain ⟨n, hn, hc⟩ := looks_indexOf (s := { opened s with bitset := s.bitset.set i, size := -1 })
    (Or.inl rfl) (Function.update_self ..)
  obtain ⟨s', hs', hbits, hsize, hrep⟩ := report_spec (t := { opened s with bitset := s.bitset.set i, size := n }) hs
    (records_nextAdd (rank s.rows i) (rank s.rows i + 1)) (single_added _ _) hs.notAtomic rfl rfl
  refine ⟨s', ?_, hbits, hrep, ?_⟩
  · have hpos : rank (rows { opened s with bitset := s.bitset.set i, size := -1 }) i = rank s.rows i := hrank
    rw [hpos] at hn
    rw [select, bind_ok (beginChange_apply hs.notAtomic)]
    exact (bind_ok hn).trans hs'
  · rw [hsize]
    unfold Counts at hc ⊢
    rw [hbits]
    exact hc

theorem set_atomic (ha : s.isAtomic = true) (h : Selectable itemCount s i) :
    ∃ n, set itemCount i s = (.ok (), { s with bitset := s.bitset.set i, size := n }) ∧
      (n = -1 ∨ n = (s.bitset.set i).cardinality) := by
  have hskip : ∀ (x : Call Unit) (t : SelectedIndicesList), t.isAtomic = true → unlessAtomic x t = (.ok (), t) := by
    intro x t ht
    simp only [unlessAtomic, ht, if_true]
  obtain ⟨n, hn, hc⟩ := looks_indexOf (s := { s with bitset := s.bitset.set i, size := -1 })
    (Or.inl rfl) (Function.update_self ..)
  refine ⟨n, ?_, hc⟩
  have hbegin : beginChange s = (.ok (), s) := hskip _ s ha
  rw [set_of_selectable h, select, bind_ok hbegin]
  refine (bind_ok hn).trans ?_
  have hadd : ∀ lo hi, nextAdd lo hi { s with bitset := s.bitset.set i, size := n }
      = (.ok (), { s with bitset := s.bitset.set i, size := n }) := by
    intro lo hi
    exact if_pos ha
  exact (bind_ok (hadd _ _)).trans (hskip _ _ ha)

theorem deselect_spec (hs : s.Steady) (hi : s.bitset.get i = true) :
    ∃ s', deselect i s = (.ok (), s') ∧ s'.bitset = s.bitset.clear i ∧
      Outcome s s' [removedRecord (rank s.rows i) [i]] := by
  obtain ⟨n, hn, hc⟩ := looks_indexOf hs.counts hi
  obtain ⟨s', hs', hbits, hsize, hrep⟩ := report_spec
    (t := { opened s with bitset := s.bitset.clear i, size := -1 }) hs
    (records_nextRemove (rank s.rows i) i) (single_removed _ _) hs.notAtomic rfl rfl
  refine ⟨s', ?_, hbits, hrep, Or.inl hsize⟩
  rw [deselect, bind_ok hn]
  have hbegin : beginChange { s with size := n } = (.ok (), { opened s with size := n }) :=
    beginChange_apply hs.notAtomic
  rw [bind_ok hbegin]
  exact hs'

theorem clearAll_spec (hs : s.Steady) : ∃ s', clearAll s = (.ok (), s') ∧ s'.bitset = s.bitset.clearAll ∧
      Outcome s s' (refilled s.rows 0) := by
  have hempty : s.bitset.clearAll.cardinality = 0 := by
    have hnil : s.bitset.clearAll.stream = [] := by
      refine List.eq_nil_iff_forall_not_mem.mpr fun i hi => ?_
      have := JavaBitSet.mem_stream.mp hi
      cases this
    rw [JavaBitSet.cardinality, hnil]
    rfl
  have hrecords : Records (nextRemoveAll 0 s.rows) [] (refilled s.rows 0) :=
    records_mirror (nextRemoveAll_clear 0 s.rows) fun _ _ hl => Level.nextRemoveAll 0 s.rows hl
  have hsingle : Single (refilled s.rows 0) := by
    unfold refilled
    split
    · exact Or.inl rfl
    · exact Or.inr ⟨_, s.rows, rfl, rfl⟩
  obtain ⟨s', hs', hbits, hsize, hrep⟩ := report_spec
    (t := { opened s with bitset := s.bitset.clearAll, size := 0 }) hs hrecords hsingle
    hs.notAtomic rfl rfl
  refine ⟨s', ?_, hbits, hrep, Or.inr ?_⟩
  · rw [clearAll, bind_ok (beginChange_apply hs.notAtomic)]
    exact hs'
  · rw [hsize, hbits, hempty]
    rfl

end SelectedIndicesList

namespace SelectedIndicesList

variable {s s' t : SelectedIndicesList} {rs : List (SubChange Nat)} {itemCount : Int}

/-! ### A range -/

/-- A range the bit set does not take. -/
def BadRange (lo hi : Int) : Prop := lo < 0 ∨ hi < 0 ∨ lo > hi

theorem setRange_begin (hs : s.Steady) (lo hi : Int) :
    setRange lo hi s = (setBitRange lo hi >>= fun _ => indexOf lo >>= fun indicesIndex =>
      nextAdd indicesIndex (indicesIndex + (hi - lo)) >>= fun _ => endChange) { opened s with size := -1 } := by
  rw [setRange, bind_ok (beginChange_apply hs.notAtomic)]
  rfl

theorem setRange_bad (hs : s.Steady) {lo hi : Int} (h : BadRange lo hi) :
    setRange lo hi s = (.error .indexOutOfBounds, { opened s with size := -1 }) := by
  have hthrow : setBitRange lo hi { opened s with size := -1 }
      = (.error .indexOutOfBounds, { opened s with size := -1 }) := by
    have hbad : lo < 0 ∨ hi < 0 ∨ lo > hi := h
    rw [setBitRange, if_pos hbad]
    rfl
  rw [setRange_begin hs, bind_error hthrow]

/-- The position an empty range is reported at. -/
def emptyPosition (s : SelectedIndicesList) (i : Nat) : Int :=
  if s.bitset.get i then rank s.rows i else -1

theorem setRange_empty (hs : s.Steady) (i : Nat) : ∃ s', setRange i i s = (.ok (), s') ∧ s'.bitset = s.bitset ∧
      Outcome s s' [addedRecord (s.emptyPosition i) (s.emptyPosition i + (i - i))] := by
  have hlook : Looks (indexOf i) { opened s with size := -1 } (s.emptyPosition i) := by
    unfold emptyPosition
    by_cases hi : s.bitset.get i = true
    · rw [if_pos hi]
      exact looks_indexOf (Or.inl rfl) hi
    · rw [if_neg hi]
      exact ⟨-1, indexOf_unselected (Bool.eq_false_iff.mpr hi), Or.inl rfl⟩
  obtain ⟨n, hn, hc⟩ := hlook
  obtain ⟨s', hs', hbits, hsize, hrep⟩ := report_spec (t := { opened s with size := n }) hs
    (records_nextAdd (s.emptyPosition i) (s.emptyPosition i + (i - i))) (single_added _ _)
    hs.notAtomic rfl rfl
  have hset : setBitRange i i { opened s with size := -1 } = (.ok (), { opened s with size := -1 }) := by
    rw [setBitRange, if_neg (by omega), if_pos rfl]
    rfl
  refine ⟨s', ?_, hbits, hrep, ?_⟩
  · rw [setRange_begin hs, bind_ok hset]
    exact (bind_ok hn).trans hs'
  · rw [hsize]
    unfold Counts at hc ⊢
    rw [hbits]
    exact hc

/-- The rows a range adds. -/
def rangeIndices (s : SelectedIndicesList) (lo hi : Nat) : List Nat :=
  (List.range' lo (hi - lo)).filter fun i => !s.bitset.get i

theorem rangeIndices_adds (s : SelectedIndicesList) (lo hi : Nat) :
    Adds s.rows (s.rangeIndices lo hi) (s.bitset.setRange lo hi).stream :=
  (s.bitset.joins_setRange lo hi).adds ((pairwise_lt_range' 1).filter _)
    fun i hi => by simpa using (List.mem_filter.mp hi).2

/-- A range is reported from the rank of its first row on, at its full length. -/
theorem setRange_spec (hs : s.Steady) {lo hi : Nat} (hlt : lo < hi) :
    ∃ s', setRange lo hi s = (.ok (), s') ∧ s'.bitset = s.bitset.setRange lo hi ∧
      Outcome s s' [addedRecord (rank s.rows lo) (rank s.rows lo + (hi - lo))] := by
  have hrank : rank (s.bitset.setRange lo hi).stream lo = rank s.rows lo :=
    (s.rangeIndices_adds lo hi).rank_eq fun j hj =>
      (List.mem_range'_1.mp (List.mem_filter.mp hj).1).1
  obtain ⟨n, hn, hc⟩ := looks_indexOf
    (s := { opened s with bitset := s.bitset.setRange lo hi, size := -1 }) (Or.inl rfl) (i := lo)
    (by simp [JavaBitSet.setRange, hlt])
  obtain ⟨s', hs', hbits, hsize, hrep⟩ := report_spec
    (t := { opened s with bitset := s.bitset.setRange lo hi, size := n }) hs
    (records_nextAdd (rank s.rows lo) (rank s.rows lo + (hi - lo))) (single_added _ _)
    hs.notAtomic rfl rfl
  have hset : setBitRange lo hi { opened s with size := -1 }
      = (.ok (), { opened s with bitset := s.bitset.setRange lo hi, size := -1 }) := by
    rw [setBitRange, if_neg (by omega), if_neg (by omega)]
    rfl
  refine ⟨s', ?_, hbits, hrep, ?_⟩
  · have hpos : rank (rows { opened s with bitset := s.bitset.setRange lo hi, size := -1 }) lo = rank s.rows lo := hrank
    rw [hpos] at hn
    rw [setRange_begin hs, bind_ok hset]
    exact (bind_ok hn).trans hs'
  · rw [hsize]
    unfold Counts at hc ⊢
    rw [hbits]
    exact hc

end SelectedIndicesList

namespace SelectedIndicesList

variable {s s' t : SelectedIndicesList} {rs : List (SubChange Nat)} {itemCount : Int}

/-! ### A batch of rows -/

theorem nodup_eraseDups {α : Type} [BEq α] [LawfulBEq α] : ∀ (n : Nat) (l : List α), l.length ≤ n →
    l.eraseDups.Nodup := by
  intro n
  induction n with
  | zero =>
    intro l hl
    obtain rfl : l = [] := eq_nil_of_length_eq_zero (by omega)
    simp
  | succ n ih =>
    intro l hl
    cases l with
    | nil => simp
    | cons a l =>
      rw [length_cons] at hl
      have hfilter := length_filter_le (fun b => !b == a) l
      rw [eraseDups_cons, nodup_cons]
      refine ⟨?_, ih _ (by omega)⟩
      simp

theorem mem_newIndices {indices : List Int} {v : Nat} :
    v ∈ newIndices itemCount indices s ↔ (v : Int) ∈ indices ∧ Selectable itemCount s v := by
  unfold newIndices Selectable
  rw [(perm_insertionSort _ _).mem_iff, mem_filter, mem_map]
  constructor
  · rintro ⟨⟨i, hi, rfl⟩, hget⟩
    rw [mem_filter, mem_eraseDups] at hi
    have h0 : 0 ≤ i := by
      have := hi.2
      simp only [isValidIndex, Bool.and_eq_true, decide_eq_true_eq] at this
      exact this.1
    rw [Int.toNat_of_nonneg h0]
    exact ⟨hi.1, hi.2, by simpa using hget⟩
  · rintro ⟨hv, hvalid, hget⟩
    refine ⟨⟨v, List.mem_filter.mpr ⟨List.mem_eraseDups.mpr hv, hvalid⟩, Int.toNat_natCast v⟩, ?_⟩
    simpa using hget

theorem newIndices_sorted (itemCount : Int) (indices : List Int) (s : SelectedIndicesList) :
    (newIndices itemCount indices s).Pairwise (· < ·) := by
  have hnodup : (newIndices itemCount indices s).Nodup := by
    refine (perm_insertionSort _ _).nodup_iff.mpr (List.Nodup.filter _ ?_)
    refine List.Nodup.map_on ?_ ((nodup_eraseDups _ indices (le_refl _)).filter _)
    intro i hi j hj hij
    have hi' := (List.mem_filter.mp hi).2
    have hj' := (List.mem_filter.mp hj).2
    simp only [isValidIndex, Bool.and_eq_true, decide_eq_true_eq] at hi' hj'
    omega
  have hle : (newIndices itemCount indices s).Pairwise (· ≤ ·) := pairwise_insertionSort _ _
  exact (hle.and hnodup).imp fun h => lt_of_le_of_ne h.1 h.2

theorem forEach_set : ∀ (V : List Nat) {t : SelectedIndicesList}, t.isAtomic = true →
    t.Counts t.size → (∀ v ∈ V, Selectable itemCount t v) → V.Nodup →
    ∃ b n, forEach (fun i : Nat => set itemCount i) V t = (.ok (), { t with bitset := b, size := n }) ∧
      t.bitset.Joins V b ∧ (n = -1 ∨ n = b.cardinality) := by
  intro V
  induction V with
  | nil =>
    intro t _ hc _ _
    exact ⟨t.bitset, t.size, rfl, fun i => by simp, hc⟩
  | cons v V ih =>
    intro t ha hc hV hnodup
    obtain ⟨n, hn, hcn⟩ := set_atomic ha (hV v (by simp))
    have hjoin := t.bitset.joins_set v
    have hV' : ∀ w ∈ V, Selectable itemCount { t with bitset := t.bitset.set v, size := n } w := by
      intro w hw
      have hwv : w ≠ v := by
        rintro rfl
        exact (List.nodup_cons.mp hnodup).1 hw
      have hsel := hV w (mem_cons_of_mem v hw)
      refine ⟨hsel.1, ?_⟩
      show Function.update t.bitset.get v true w = false
      rw [Function.update_of_ne hwv]
      exact hsel.2
    obtain ⟨b, m, hm, hjoin', hcm⟩ := ih (t := { t with bitset := t.bitset.set v, size := n }) ha
      hcn hV' (List.nodup_cons.mp hnodup).2
    refine ⟨b, m, ?_, ?_, hcm⟩
    · rw [forEach, bind_ok hn, hm]
    · intro i
      rw [hjoin' i, hjoin i, List.mem_singleton, List.mem_cons, or_assoc]

/-! ### The counters of a batch -/

/-- The last two rows are neighbours. -/
def endsAdjacent : List Nat → Bool
  | [] => false
  | [_] => false
  | [a, b] => b = a + 1
  | _ :: b :: c :: l => endsAdjacent (b :: c :: l)

/-- Every row follows on the one before. -/
def consecutive : List Nat → Bool
  | a :: b :: l => b = a + 1 && consecutive (b :: l)
  | _ => true

/-- The loop extends the record that starts at `first`; it ends in the right place if there was
no gap at all, or if the last row comes after one. -/
theorem reportRuns_spec (first : Int) : ∀ (rest : List Nat) (pos start : Int) (prev : Nat)
    (rs : List (SubChange Nat)), rest ≠ [] → 0 < pos →
    (rs = [] ∧ start = first ∨ rs = [addedRecord first start] ∧ first < start) →
    ∃ stop, Records (reportRuns (pos + rest.length) rest pos start (first + pos) prev) rs [addedRecord first stop] ∧
      (stop = first + (pos + rest.length) ↔
        (start = first ∧ consecutive (prev :: rest) = true) ∨ endsAdjacent (prev :: rest) = false) := by
  intro rest
  induction rest with
  | nil =>
    intro pos start prev rs hne
    exact absurd rfl hne
  | cons v rest ih =>
    intro pos start prev rs _ hpos hrs
    -- a record that ends at `hi`, whether there was one already or not
    have hadd : ∀ hi, Records (nextAdd start hi) rs [addedRecord first hi] := by
      intro hi
      rcases hrs with ⟨rfl, rfl⟩ | ⟨rfl, -⟩
      · exact records_nextAdd start hi
      · exact records_nextAdd_again first start hi
    have hsize : pos + ((v :: rest).length : Int) = pos + 1 + (rest.length : Int) := by
      rw [length_cons]
      push_cast
      omega
    rw [hsize]
    unfold reportRuns
    by_cases hgap : (prev : Int) ≠ v - 1
    · rw [if_pos hgap]
      have hcons : consecutive (prev :: v :: rest) = false := by
        rw [consecutive, Bool.and_eq_false_iff]
        exact Or.inl (by simp; omega)
      rw [hcons, Int.add_assoc first pos 1]
      cases rest with
      | nil =>
        refine ⟨first + (pos + 1), (hadd _).bind (records_pure _), ?_⟩
        have hend : endsAdjacent [prev, v] = false := by
          simp only [endsAdjacent, decide_eq_false_iff_not]
          omega
        simp [hend]
      | cons w rest =>
        obtain ⟨stop, hrec, hstop⟩ := ih (pos + 1) (first + (pos + 1)) v
          [addedRecord first (first + (pos + 1))] (by simp) (by omega) (Or.inr ⟨rfl, by omega⟩)
        refine ⟨stop, (hadd _).bind hrec, ?_⟩
        rw [hstop]
        have hne : ¬ first + (pos + 1) = first := by omega
        simp [hne, endsAdjacent]
    · rw [if_neg hgap]
      have hadj : v = prev + 1 := by omega
      have hcons : consecutive (prev :: v :: rest) = consecutive (v :: rest) := by
        rw [consecutive]
        simp [hadj]
      rw [hcons, Int.add_assoc first pos 1]
      cases rest with
      | nil =>
        refine ⟨start + (pos + 1), ?_, ?_⟩
        · rw [reportLast, if_pos (by simp)]
          exact (hadd _).bind (records_pure _)
        · have hend : endsAdjacent [prev, v] = true := by simp [endsAdjacent, hadj]
          simp only [hend, consecutive, and_true, Bool.true_eq_false, or_false, List.length_nil]
          omega
      | cons w rest =>
        obtain ⟨stop, hrec, hstop⟩ := ih (pos + 1) start v rs (by simp) (by omega) hrs
        refine ⟨stop, ?_, hstop⟩
        rw [reportLast, if_neg (by rw [length_cons]; push_cast; omega)]
        exact (records_pure _).bind hrec

end SelectedIndicesList

namespace SelectedIndicesList

variable {s s' t : SelectedIndicesList} {rs : List (SubChange Nat)} {itemCount : Int}

/-- What is reported once the new rows `v :: rest` are selected. -/
theorem reportNew_spec (hs : s.Steady) {v : Nat} (rest : List Nat) (hv : s.bitset.get v = true) :
    ∃ s' stop, reportNew (v :: rest) s = (.ok (), s') ∧ s'.bitset = s.bitset ∧
      Outcome s s' [addedRecord (rank s.rows v) stop] ∧
      (stop = rank s.rows v + (v :: rest).length ↔
        consecutive (v :: rest) = true ∨ endsAdjacent (v :: rest) = false) := by
  obtain ⟨n, hn, hc⟩ := looks_indexOf (s := opened s) hs.counts hv
  have hbegin : beginChange s = (.ok (), opened s) := beginChange_apply hs.notAtomic
  cases rest with
  | nil =>
    obtain ⟨s', hs', hbits, hsize, hrep⟩ := report_spec (s := s) (t := { opened s with size := n })
      hs (records_nextAdd (rank s.rows v) (rank s.rows v + 1)) (single_added _ _) hs.notAtomic
      rfl rfl
    refine ⟨s', rank s.rows v + 1, ?_, hbits, ⟨hrep, ?_⟩, by simp [consecutive]⟩
    · rw [reportNew, bind_ok hbegin]
      exact (bind_ok hn).trans hs'
    · rw [hsize]
      unfold Counts at hc ⊢
      rw [hbits]
      exact hc
  | cons w rest =>
    obtain ⟨stop, hrec, hstop⟩ := reportRuns_spec (rank s.rows v) (w :: rest) 1 (rank s.rows v) v []
      (by simp) (by omega) (Or.inl ⟨rfl, rfl⟩)
    have hlen : ((v :: w :: rest).length : Int) = 1 + ((w :: rest).length : Int) := by
      rw [length_cons]
      push_cast
      omega
    obtain ⟨s', hs', hbits, hsize, hrep⟩ := report_spec (t := { opened s with size := n })
      hs hrec (single_added _ _) hs.notAtomic rfl rfl
    refine ⟨s', stop, ?_, hbits, ⟨hrep, ?_⟩, ?_⟩
    · simp only [reportNew]
      rw [bind_ok hbegin, hlen]
      exact (bind_ok hn).trans hs'
    · rw [hsize]
      unfold Counts at hc ⊢
      rw [hbits]
      exact hc
    · rw [hlen, hstop]
      simp

variable {index : Int} {indices : List Int}

theorem setIndices_apply (hne : indices ≠ []) {b : JavaBitSet}
    {n : Int} (hloop : forEach (fun i : Nat => set itemCount i)
        (newIndices itemCount (index :: indices) s) { s with atomicityCount := s.atomicityCount + 1 }
      = (.ok (), { s with atomicityCount := s.atomicityCount + 1, bitset := b, size := n })) :
    setIndices itemCount index indices s
      = reportNew (newIndices itemCount (index :: indices) s) { s with bitset := b, size := n } := by
  have hstart : startAtomic s = (.ok (), { s with atomicityCount := s.atomicityCount + 1 }) := rfl
  rw [setIndices, if_neg hne, bind_ok hstart]
  have hread : (read (newIndices itemCount (index :: indices)) : Call (List Nat))
      { s with atomicityCount := s.atomicityCount + 1 }
        = (.ok (newIndices itemCount (index :: indices) s), { s with atomicityCount := s.atomicityCount + 1 }) := rfl
  rw [bind_ok hread, bind_ok hloop]
  rfl

theorem setIndices_nothing (hne : indices ≠ []) (hnil : newIndices itemCount (index :: indices) s = []) :
    setIndices itemCount index indices s = (.ok (), s) := by
  have hloop : forEach (fun i : Nat => set itemCount i)
      (newIndices itemCount (index :: indices) s) { s with atomicityCount := s.atomicityCount + 1 }
        = (.ok (), { s with atomicityCount := s.atomicityCount + 1 }) := by
    rw [hnil]
    rfl
  rw [setIndices_apply hne hloop, hnil]
  rfl

/-- **A batch is reported as one block from its first new row on**, which is as long as the
batch unless the counters have gone wrong. -/
theorem setIndices_spec (hs : s.Steady) (hne : indices ≠ [])
    {v : Nat} {rest : List Nat} (hV : newIndices itemCount (index :: indices) s = v :: rest) :
    ∃ s' stop, setIndices itemCount index indices s = (.ok (), s') ∧
      s.bitset.Joins (v :: rest) s'.bitset ∧ Outcome s s' [addedRecord (rank s.rows v) stop] ∧
      (stop = rank s.rows v + (v :: rest).length ↔
        consecutive (v :: rest) = true ∨ endsAdjacent (v :: rest) = false) := by
  have hsorted := newIndices_sorted itemCount (index :: indices) s
  have hsel : ∀ w ∈ v :: rest, Selectable itemCount s w := by
    intro w hw
    rw [← hV] at hw
    exact (mem_newIndices.mp hw).2
  rw [hV] at hsorted
  obtain ⟨b, n, hloop, hjoin, hc⟩ := forEach_set (v :: rest)
    (t := { s with atomicityCount := s.atomicityCount + 1 }) (by simp [isAtomic]) hs.counts hsel
    hsorted.nodup
  have hrank : rank b.stream v = rank s.rows v :=
    rank_of_joins hjoin hsorted (fun w hw => (hsel w hw).2) fun w hw => by
      rcases List.mem_cons.mp hw with rfl | hw
      · exact le_refl w
      · exact ((List.pairwise_cons.mp hsorted).1 w hw).le
  have hsteady : Steady { s with bitset := b, size := n } := ⟨hs.notAtomic, hc, hs.builder⟩
  obtain ⟨s', stop, hs', hbits, hout, hstop⟩ := reportNew_spec hsteady rest ((hjoin v).mpr (Or.inr (by simp)))
  have hpos : rank (rows { s with bitset := b, size := n }) v = rank s.rows v := hrank
  rw [hpos] at hout hstop
  refine ⟨s', stop, ?_, ?_, ⟨⟨hout.reported.notAtomic, hout.reported.idle, hout.reported.open_block⟩,
    hout.counts⟩, hstop⟩
  · rw [← hV] at hloop hs'
    rw [setIndices_apply hne hloop, hs']
  · rw [hbits]
    exact hjoin

end SelectedIndicesList

end JavaFX
