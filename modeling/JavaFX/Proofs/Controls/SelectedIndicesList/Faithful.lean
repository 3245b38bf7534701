/-
When the listeners of the selected rows are told the truth.

For one row, and for clearing, always.  A range is told rightly when none of its rows was
selected before, and a batch when no selected row lies between its new rows and the counters of
the loop come out right.  After a range that the bit set does not take, the block of the failed
call stays open and nothing is told any more.
-/
import JavaFX.Proofs.Controls.SelectedIndicesList.Reports

namespace JavaFX

open Program SortedUnion ListChangeBuilder List

namespace SelectedIndicesList

variable {s s' t : SelectedIndicesList} {rs : List (SubChange Nat)} {itemCount : Int}

/-! ### Faithful calls -/

/-- A call is told faithfully: nothing is fired when the rows stay the same, and otherwise one
change is, whose records are within the list and lead from the old rows to the new ones. -/
def Told (s s' : SelectedIndicesList) : Prop :=
  ∃ changes, s'.fired = s.fired ++ changes ∧ changes.length ≤ 1 ∧ (changes = [] ↔ s'.rows = s.rows) ∧
    ∀ c ∈ changes, c.list = s'.rows ∧ (∀ r ∈ c.changes, 0 ≤ r.from ∧ r.from ≤ r.to ∧ r.to ≤ s'.rows.length) ∧
      c.replay s.rows = some s'.rows

theorem told_of_silent (h : s'.fired = s.fired) : Told s s' ↔ s'.rows = s.rows := by
  constructor
  · rintro ⟨changes, hf, -, hnil, -⟩
    rw [h] at hf
    exact hnil.mp (List.self_eq_append_right.mp hf)
  · intro hrows
    exact ⟨[], by simpa using h, by simp, by simp [hrows], by simp⟩

variable {r : SubChange Nat}

theorem told_of_change (h : s'.fired = s.fired ++ [⟨s'.rows, [r]⟩]) :
    Told s s' ↔ s'.rows ≠ s.rows ∧ (0 ≤ r.from ∧ r.from ≤ r.to ∧ r.to ≤ s'.rows.length) ∧
      (⟨s'.rows, [r]⟩ : Change Nat).replay s.rows = some s'.rows := by
  constructor
  · rintro ⟨changes, hf, -, hnil, hall⟩
    rw [h] at hf
    obtain rfl := append_cancel_left hf
    obtain ⟨-, hbounds, hreplay⟩ := hall ⟨s'.rows, [r]⟩ (by simp)
    exact ⟨fun heq => by simpa using hnil.mpr heq, hbounds r (by simp), hreplay⟩
  · rintro ⟨hne, hbounds, hreplay⟩
    refine ⟨_, h, by simp, by simp [hne], ?_⟩
    intro c hc
    obtain rfl := List.mem_singleton.mp hc
    exact ⟨rfl, by simpa using hbounds, hreplay⟩

theorem Outcome.told_change (h : Outcome s s' [r]) (hidle : s.changeBuilder = {}) :
    Told s s' ↔ s'.rows ≠ s.rows ∧ (0 ≤ r.from ∧ r.from ≤ r.to ∧ r.to ≤ s'.rows.length) ∧
      (⟨s'.rows, [r]⟩ : Change Nat).replay s.rows = some s'.rows :=
  told_of_change (by simpa using (h.reported.idle hidle).2)

theorem Outcome.told_added {a : Nat} {rest : List Nat} {stop : Int}
    (h : Outcome s s' [addedRecord (rank s.rows a) stop]) (hidle : s.changeBuilder = {})
    (hadds : Adds s.rows (a :: rest) s'.rows) :
    Told s s' ↔ stop = rank s.rows a + (a :: rest).length ∧ Compact s.rows (a :: rest) := by
  rw [h.told_change hidle, ← replay_added_iff hadds]
  constructor
  · intro ht
    exact ht.2.2
  · intro hreplay
    obtain ⟨h0, h1, h2, -, -⟩ := replay_added.mp hreplay
    refine ⟨?_, ⟨h0, h1, h2⟩, hreplay⟩
    intro heq
    have := hadds.eq_nil heq
    cases this

theorem Outcome.told_open (h : Outcome s s' rs) {k : Nat} (hl : Level (k + 1) s.changeBuilder) :
    Told s s' ↔ s'.rows = s.rows :=
  told_of_silent (h.reported.open_block k hl).2

/-- No row of the range is selected. -/
def Unselected (s : SelectedIndicesList) (lo hi : Int) : Prop :=
  ∀ r : Nat, lo ≤ r → r < hi → s.bitset.get r = false

/-- When a call outside of any block is told faithfully. -/
def Sound (itemCount : Int) (s : SelectedIndicesList) : IndexCall → Prop
  | .set _ | .clear _ | .clearAll => True
  | .setRange lo hi => BadRange lo hi ∨ lo < hi ∧ s.Unselected lo hi
  | .setIndices index indices =>
    let V := newIndices itemCount (index :: indices) s
    Compact s.rows V ∧ (consecutive V = true ∨ endsAdjacent V = false)

/-- The call has nothing to do. -/
def Vain (itemCount : Int) (s : SelectedIndicesList) : IndexCall → Prop
  | .set index => ¬ Selectable itemCount s index
  | .setIndices index indices => newIndices itemCount (index :: indices) s = []
  | .setRange lo hi => BadRange lo hi ∨ ∀ r : Nat, lo ≤ r → r < hi → s.bitset.get r = true
  | .clear index => index < 0 ∨ s.bitset.get index.toNat = false
  | .clearAll => s.rows = []

/-- A call is told faithfully: it is sound, or, inside a block that a failed call has left open,
it does nothing. -/
def Faithful (itemCount : Int) (s : SelectedIndicesList) (c : IndexCall) : Prop :=
  if s.changeBuilder.changeLock = 0 then Sound itemCount s c else Vain itemCount s c

theorem newIndices_singleton (index : Int) : newIndices itemCount [index] s = [] ↔
    ¬ Selectable itemCount s index := by
  constructor
  · intro hnil hsel
    have h0 : 0 ≤ index := by
      have := hsel.1
      simp only [isValidIndex, Bool.and_eq_true, decide_eq_true_eq] at this
      exact this.1
    have hmem : index.toNat ∈ newIndices itemCount [index] s := by
      rw [mem_newIndices, Int.toNat_of_nonneg h0]
      exact ⟨by simp, hsel⟩
    rw [hnil] at hmem
    cases hmem
  · intro h
    refine List.eq_nil_iff_forall_not_mem.mpr fun v hv => ?_
    obtain ⟨hmem, hsel⟩ := mem_newIndices.mp hv
    rw [mem_singleton] at hmem
    rw [hmem] at hsel
    exact h hsel

theorem sound_of_singleton (index : Int) : Sound itemCount s (.setIndices index []) := by
  have hlen : ∀ v ∈ newIndices itemCount [index] s, (v : Int) = index := by
    intro v hv
    have := (mem_newIndices.mp hv).1
    rwa [mem_singleton] at this
  have hsorted := newIndices_sorted itemCount [index] s
  refine ⟨?_, ?_⟩
  · rintro a ha b hb c - ⟨hac, hcb⟩
    have h1 := hlen a ha
    have h2 := hlen b hb
    omega
  · cases hV : newIndices itemCount [index] s with
    | nil => exact Or.inl rfl
    | cons v rest =>
      cases rest with
      | nil => exact Or.inl rfl
      | cons w rest =>
        rw [hV] at hlen hsorted
        have h1 := hlen v (by simp)
        have h2 := hlen w (by simp)
        have h3 := (List.pairwise_cons.mp hsorted).1 w (by simp)
        omega

/-! ### Each call -/

theorem set_faithful (itemCount : Int) (hs : s.Steady) (index : Int) :
    (s.changeBuilder = {} → Told s (set itemCount index s).2) ∧
    (∀ k, Level (k + 1) s.changeBuilder → (Told s (set itemCount index s).2 ↔ ¬ Selectable itemCount s index)) ∧
    (set itemCount index s).2.Steady := by
  by_cases hsel : Selectable itemCount s index
  · have h0 : 0 ≤ index := by
      have := hsel.1
      simp only [isValidIndex, Bool.and_eq_true, decide_eq_true_eq] at this
      exact this.1
    obtain ⟨i, rfl⟩ := Int.eq_ofNat_of_zero_le h0
    have hget : s.bitset.get i = false := hsel.2
    obtain ⟨s', hs', hbits, hout⟩ := select_spec hs hget
    have hadds : Adds s.rows [i] s'.rows := by
      have := (s.bitset.joins_set i).adds (pairwise_singleton _ _) (by simpa using hget)
      rw [← hbits] at this
      exact this
    have hrun : (set itemCount i s).2 = s' := by rw [set_of_selectable hsel, hs']
    rw [hrun]
    refine ⟨fun hidle => ?_, fun k hl => ?_, hout.steady hs⟩
    · rw [hout.told_added hidle hadds]
      refine ⟨by simp, ?_⟩
      rintro a ha b hb c - ⟨hac, hcb⟩
      rw [mem_singleton] at ha hb
      omega
    · rw [hout.told_open hl]
      constructor
      · intro heq
        have := hadds.eq_nil heq
        cases this
      · intro hn
        exact absurd hsel hn
  · rw [set_of_not_selectable hsel]
    refine ⟨fun _ => (told_of_silent rfl).mpr rfl, fun k _ => ?_, hs⟩
    rw [told_of_silent rfl]
    exact ⟨fun _ => hsel, fun _ => rfl⟩

theorem setIndices_faithful (itemCount : Int) (hs : s.Steady) (index : Int) (indices : List Int) :
    (s.changeBuilder = {} → (Told s (setIndices itemCount index indices s).2 ↔
      Sound itemCount s (.setIndices index indices))) ∧
    (∀ k, Level (k + 1) s.changeBuilder → (Told s (setIndices itemCount index indices s).2 ↔
      newIndices itemCount (index :: indices) s = [])) ∧
    (setIndices itemCount index indices s).2.Steady := by
  by_cases hne : indices = []
  · subst hne
    have hrun : setIndices itemCount index [] s = set itemCount index s := by
      rw [setIndices, if_pos rfl]
    obtain ⟨h1, h2, h3⟩ := set_faithful itemCount hs index
    rw [hrun]
    refine ⟨fun hidle => ⟨fun _ => sound_of_singleton index, fun _ => h1 hidle⟩, fun k hl => ?_, h3⟩
    rw [h2 k hl, newIndices_singleton]
  · cases hV : newIndices itemCount (index :: indices) s with
    | nil =>
      rw [setIndices_nothing hne hV]
      refine ⟨fun _ => ?_, fun k _ => ?_, hs⟩
      · have hcompact : Compact s.rows [] := by
          intro a ha
          cases ha
        rw [told_of_silent rfl, Sound, hV]
        exact ⟨fun _ => ⟨hcompact, Or.inl rfl⟩, fun _ => rfl⟩
      · rw [told_of_silent rfl]
        exact ⟨fun _ => rfl, fun _ => rfl⟩
    | cons v rest =>
      obtain ⟨s', stop, hs', hjoin, hout, hstop⟩ := setIndices_spec hs hne hV
      have hadds : Adds s.rows (v :: rest) s'.rows := by
        refine hjoin.adds ?_ ?_
        · rw [← hV]
          exact newIndices_sorted ..
        · intro w hw
          rw [← hV] at hw
          exact (mem_newIndices.mp hw).2.2
      rw [hs']
      refine ⟨fun hidle => ?_, fun k hl => ?_, hout.steady hs⟩
      · rw [hout.told_added hidle hadds, hstop, Sound, hV]
        exact and_comm
      · rw [hout.told_open hl]
        refine ⟨fun heq => ?_, fun hnil => by cases hnil⟩
        have := hadds.eq_nil heq
        cases this

end SelectedIndicesList

namespace SelectedIndicesList

variable {s s' : SelectedIndicesList} {itemCount : Int}

theorem steady_of_bad (hs : s.Steady) : Steady { opened s with size := -1 } where
  notAtomic := hs.notAtomic
  counts := Or.inl rfl
  builder := by
    right
    rcases hs.builder with hidle | ⟨k, hl⟩
    · refine ⟨0, ?_, ?_⟩
      · show s.changeBuilder.changeLock + 1 = 1
        rw [hidle]
      · show ∀ c ∈ s.changeBuilder.addRemoveChanges, Plain c
        rw [hidle]
        intro c hc
        cases hc
    · exact ⟨k + 1, hl.beginChange⟩

/-- A range adds as many rows as it has exactly when none of them was selected. -/
theorem rangeIndices_length_iff (s : SelectedIndicesList) (lo hi : Nat) :
    (s.rangeIndices lo hi).length = hi - lo ↔ s.Unselected lo hi := by
  have hiff := length_filter_eq_length_iff (p := fun i => !s.bitset.get i) (l := range' lo (hi - lo))
  rw [length_range'] at hiff
  rw [rangeIndices, hiff]
  constructor
  · intro h r hlo hhi
    have := h r (List.mem_range'_1.mpr ⟨by omega, by omega⟩)
    simpa using this
  · intro h r hr
    rw [mem_range'_1] at hr
    simpa using h r (by omega) (by omega)

theorem rangeIndices_eq_nil_iff (s : SelectedIndicesList) (lo hi : Nat) :
    s.rangeIndices lo hi = [] ↔ ∀ r : Nat, (lo : Int) ≤ r → (r : Int) < hi → s.bitset.get r = true := by
  unfold rangeIndices
  rw [filter_eq_nil_iff]
  constructor
  · intro h r hlo hhi
    have := h r (List.mem_range'_1.mpr ⟨by omega, by omega⟩)
    simpa using this
  · intro h r hr
    rw [mem_range'_1] at hr
    simpa using h r (by omega) (by omega)

theorem rows_eq_of_nil {old new : List Nat} (h : Adds old [] new) : new = old :=
  List.Pairwise.eq_of_mem_iff h.sorted_new h.sorted_old fun a => by simp [h.mem a]

theorem setRange_faithful (hs : s.Steady) (lo hi : Int) : (s.changeBuilder = {} → (Told s (setRange lo hi s).2 ↔
      BadRange lo hi ∨ lo < hi ∧ s.Unselected lo hi)) ∧
    (∀ k, Level (k + 1) s.changeBuilder → (Told s (setRange lo hi s).2 ↔
      BadRange lo hi ∨ ∀ r : Nat, lo ≤ r → r < hi → s.bitset.get r = true)) ∧
    (setRange lo hi s).2.Steady := by
  by_cases hbad : BadRange lo hi
  · rw [setRange_bad hs hbad]
    have htold : Told s { opened s with size := -1 } := (told_of_silent rfl).mpr rfl
    exact ⟨fun _ => ⟨fun _ => Or.inl hbad, fun _ => htold⟩,
      fun _ _ => ⟨fun _ => Or.inl hbad, fun _ => htold⟩, steady_of_bad hs⟩
  · have hlo : 0 ≤ lo := by unfold BadRange at hbad; omega
    have hhi : 0 ≤ hi := by unfold BadRange at hbad; omega
    have hle : lo ≤ hi := by unfold BadRange at hbad; omega
    obtain ⟨a, rfl⟩ := Int.eq_ofNat_of_zero_le hlo
    obtain ⟨b, rfl⟩ := Int.eq_ofNat_of_zero_le hhi
    rcases Nat.lt_or_ge a b with hlt | hge
    · obtain ⟨s', hs', hbits, hout⟩ := setRange_spec hs hlt
      have hadds : Adds s.rows (s.rangeIndices a b) s'.rows := by
        have := s.rangeIndices_adds a b
        rw [← hbits] at this
        exact this
      rw [hs']
      refine ⟨fun hidle => ?_, fun k hl => ?_, hout.steady hs⟩
      · constructor
        · intro ht
          have hreplay := ((hout.told_change hidle).mp ht).2.2
          have hsum := replay_added_length hreplay
          have hlen := hadds.length
          exact Or.inr ⟨by omega, (rangeIndices_length_iff s a b).mp (by omega)⟩
        · rintro (h | ⟨-, hun⟩)
          · exact absurd h hbad
          · -- all of the range is new, and it starts with its first row
            have hall : s.rangeIndices a b = a :: range' (a + 1) (b - a - 1) := by
              have hself : s.rangeIndices a b = range' a (b - a) :=
                List.filter_eq_self.mpr fun r hr => by
                  rw [mem_range'_1] at hr
                  simpa using hun r (by omega) (by omega)
              rw [hself]
              obtain ⟨n, hn⟩ : ∃ n, b - a = n + 1 := ⟨b - a - 1, by omega⟩
              rw [hn]
              rfl
            rw [hall] at hadds
            rw [hout.told_added hidle hadds]
            refine ⟨?_, ?_⟩
            · rw [length_cons, length_range']
              omega
            · rintro c hc d hd e he ⟨hce, hed⟩
              rw [← hall] at hc hd
              have h1 := List.mem_range'_1.mp (List.mem_filter.mp hc).1
              have h2 := List.mem_range'_1.mp (List.mem_filter.mp hd).1
              have h3 := hun e (by omega) (by omega)
              rw [JavaBitSet.mem_stream.mp he] at h3
              cases h3
      · rw [hout.told_open hl]
        constructor
        · intro heq
          exact Or.inr ((rangeIndices_eq_nil_iff s a b).mp (hadds.eq_nil heq))
        · rintro (h | hall)
          · exact absurd h hbad
          · rw [(rangeIndices_eq_nil_iff s a b).mpr hall] at hadds
            exact rows_eq_of_nil hadds
    · obtain rfl : b = a := by omega
      obtain ⟨s', hs', hbits, hout⟩ := setRange_empty hs b
      have hrows : s'.rows = s.rows := by rw [rows, hbits, rows]
      rw [hs']
      refine ⟨fun hidle => ?_, fun k hl => ?_, hout.steady hs⟩
      · rw [hout.told_change hidle]
        constructor
        · intro ht
          exact absurd hrows ht.1
        · rintro (h | ⟨h, -⟩)
          · exact absurd h hbad
          · omega
      · rw [hout.told_open hl]
        exact ⟨fun _ => Or.inr fun r h1 h2 => by omega, fun _ => hrows⟩

theorem clear_faithful (hs : s.Steady) (index : Int) : (s.changeBuilder = {} → Told s (clear index s).2) ∧
    (∀ k, Level (k + 1) s.changeBuilder → (Told s (clear index s).2 ↔ index < 0 ∨ s.bitset.get index.toNat = false)) ∧
    (clear index s).2.Steady := by
  by_cases hneg : index < 0
  · have hrun : clear index s = (.error .indexOutOfBounds, s) := by
      have hsel : isSelected index s = (.error .indexOutOfBounds, s) := by
        rw [isSelected, if_pos hneg]
        rfl
      rw [clear, bind_error hsel]
    rw [hrun]
    have htold : Told s s := (told_of_silent rfl).mpr rfl
    exact ⟨fun _ => htold, fun _ _ => ⟨fun _ => Or.inl hneg, fun _ => htold⟩, hs⟩
  · obtain ⟨i, rfl⟩ := Int.eq_ofNat_of_zero_le (by omega : 0 ≤ index)
    cases hget : s.bitset.get i with
    | false =>
      have hrun : clear i s = (.ok (), s) := by
        rw [clear, bind_ok (isSelected_apply i s), hget]
        rfl
      rw [hrun]
      have htold : Told s s := (told_of_silent rfl).mpr rfl
      exact ⟨fun _ => htold, fun _ _ => ⟨fun _ => Or.inr hget, fun _ => htold⟩, hs⟩
    | true =>
      obtain ⟨s', hs', hbits, hout⟩ := deselect_spec hs hget
      have hrun : (clear i s).2 = s' := by
        rw [clear, bind_ok (isSelected_apply i s), if_pos hget, hs']
      -- seen from the new rows, the row was added
      have hadds : Adds s'.rows [i] s.rows := by
        have hjoin : s'.bitset.Joins [i] s.bitset := by
          intro j
          rw [hbits]
          show _ ↔ Function.update s.bitset.get i false j = true ∨ _
          by_cases hji : j = i
          · simp [hji, hget]
          · simp [hji]
        refine hjoin.adds (pairwise_singleton _ _) ?_
        intro j hj
        rw [mem_singleton] at hj
        rw [hbits, hj]
        exact Function.update_self ..
      have hcompact : Compact s'.rows [i] := by
        rintro a ha b hb c - ⟨hac, hcb⟩
        rw [mem_singleton] at ha hb
        omega
      have hrank : rank s.rows i = rank s'.rows i := hadds.rank_eq (by simp)
      have hne : s'.rows ≠ s.rows := fun heq => by
        have := hadds.eq_nil heq.symm
        cases this
      rw [hrun]
      refine ⟨fun hidle => ?_, fun k hl => ?_, hout.steady hs⟩
      · rw [hout.told_change hidle]
        have hle := rank_le_length s'.rows i
        refine ⟨hne, ⟨?_, ?_, ?_⟩, ?_⟩
        · exact Int.natCast_nonneg _
        · exact le_refl _
        · show ((rank s.rows i : Nat) : Int) ≤ _
          omega
        · rw [hrank]
          exact replay_removed hle (hadds.block hcompact)
      · rw [hout.told_open hl]
        constructor
        · intro heq
          exact absurd heq hne
        · rintro (h | h)
          · exact absurd h hneg
          · rw [Int.toNat_natCast, hget] at h
            cases h

theorem clearAll_faithful (hs : s.Steady) : (s.changeBuilder = {} → Told s (clearAll s).2) ∧
    (∀ k, Level (k + 1) s.changeBuilder → (Told s (clearAll s).2 ↔ s.rows = [])) ∧
    (clearAll s).2.Steady := by
  obtain ⟨s', hs', hbits, hout⟩ := clearAll_spec hs
  have hnil : s'.rows = [] := by
    refine List.eq_nil_iff_forall_not_mem.mpr fun i hi => ?_
    have := JavaBitSet.mem_stream.mp hi
    rw [hbits] at this
    cases this
  rw [hs']
  refine ⟨fun hidle => ?_, fun k hl => ?_, hout.steady hs⟩
  · by_cases hempty : s.rows = []
    · have hrs : refilled s.rows 0 = [] := by rw [refilled, if_pos ⟨hempty, rfl⟩]
      rw [hrs] at hout
      have hf := (hout.reported.idle hidle).2
      rw [if_pos rfl, append_nil] at hf
      exact (told_of_silent hf).mpr (hnil.trans hempty.symm)
    · have hrs : refilled s.rows 0 = [removedRecord (0 : Nat) s.rows] := by
        rw [refilled, if_neg (by simp [hempty])]
        rfl
      rw [hrs] at hout
      rw [hout.told_change hidle]
      refine ⟨fun heq => hempty (heq.symm.trans hnil), ⟨le_refl _, le_refl _, ?_⟩, ?_⟩
      · exact Int.natCast_nonneg _
      · refine replay_removed (Nat.zero_le _) ?_
        rw [hnil]
        simp
  · rw [hout.told_open hl, hnil]
    exact eq_comm

end SelectedIndicesList

namespace SelectedIndicesList

variable {s s' : SelectedIndicesList}

/-! ### Whole runs -/

/-- The lists there are: one made from a bit set, and what calls make of it.  The number of
items may be another one at every call. -/
inductive Reached : SelectedIndicesList → Prop
  | new (bitset : JavaBitSet) : Reached { bitset }
  | call {s : SelectedIndicesList} (h : Reached s) (itemCount : Int) (c : IndexCall) :
      Reached (c.run itemCount s).2

theorem run_faithful (hs : s.Steady) (itemCount : Int) (c : IndexCall) :
    (s.changeBuilder = {} → (Told s (c.run itemCount s).2 ↔ Sound itemCount s c)) ∧
    (∀ k, Level (k + 1) s.changeBuilder → (Told s (c.run itemCount s).2 ↔ Vain itemCount s c)) ∧
    (c.run itemCount s).2.Steady := by
  cases c with
  | set index =>
    obtain ⟨h1, h2, h3⟩ := set_faithful itemCount hs index
    exact ⟨fun hidle => ⟨fun _ => trivial, fun _ => h1 hidle⟩, h2, h3⟩
  | setIndices index indices => exact setIndices_faithful itemCount hs index indices
  | setRange lo hi => exact setRange_faithful hs lo hi
  | clear index =>
    obtain ⟨h1, h2, h3⟩ := clear_faithful hs index
    exact ⟨fun hidle => ⟨fun _ => trivial, fun _ => h1 hidle⟩, h2, h3⟩
  | clearAll =>
    obtain ⟨h1, h2, h3⟩ := clearAll_faithful hs
    exact ⟨fun hidle => ⟨fun _ => trivial, fun _ => h1 hidle⟩, h2, h3⟩

theorem Reached.steady (h : Reached s) : s.Steady := by
  induction h with
  | new bitset => exact ⟨rfl, Or.inl rfl, Or.inl rfl⟩
  | call _ itemCount c ih => exact (run_faithful ih itemCount c).2.2

/-- **When a call on a reachable list is told faithfully.** -/
theorem told_iff_faithful (h : Reached s) (itemCount : Int) (c : IndexCall) :
    Told s (c.run itemCount s).2 ↔ Faithful itemCount s c := by
  obtain ⟨hidle, hopen, -⟩ := run_faithful h.steady itemCount c
  unfold Faithful
  rcases h.steady.builder with hb | ⟨k, hl⟩
  · rw [if_pos (by rw [hb])]
    exact hidle hb
  · rw [if_neg (by rw [hl.lock]; omega)]
    exact hopen k hl

/-- Two rows of an empty list, given in the wrong order. -/
theorem told_of_two_rows : Reached {} ∧ Told {} (IndexCall.run 10 (.setIndices 2 [1]) {}).2 := by
  have hV : newIndices 10 [2, 1] {} = [1, 2] := by decide +kernel
  refine ⟨.new .empty, (told_iff_faithful (.new .empty) 10 (.setIndices 2 [1])).mpr ?_⟩
  refine (if_pos rfl).mpr ?_
  rw [Sound, hV]
  refine ⟨?_, Or.inl rfl⟩
  rintro a ha b hb c - ⟨hac, hcb⟩
  simp only [mem_cons, not_mem_nil, or_false] at ha hb
  omega

/-- Rows 0, 5 and 6 of an empty list are reported as five rows. -/
theorem not_told_of_gap : Reached {} ∧ ¬ Told {} (IndexCall.run 10 (.setIndices 0 [5, 6]) {}).2 := by
  have hrows : (IndexCall.run 10 (.setIndices 0 [5, 6]) {}).2.rows = [0, 5, 6] := by decide +kernel
  have hfired : (IndexCall.run 10 (.setIndices 0 [5, 6]) {}).2.fired
      = [⟨[0, 5, 6], [⟨0, 5, some [], [], false⟩]⟩] := by decide +kernel
  refine ⟨.new .empty, ?_⟩
  rintro ⟨changes, hf, -, -, hall⟩
  rw [hfired] at hf
  have hmem : (⟨[0, 5, 6], [⟨0, 5, some [], [], false⟩]⟩ : Change Nat) ∈ changes := by
    have hf' : [(⟨[0, 5, 6], [⟨0, 5, some [], [], false⟩]⟩ : Change Nat)] = changes := hf
    rw [← hf']
    simp
  have hbounds := (hall _ hmem).2.1 ⟨0, 5, some [], [], false⟩ (by simp)
  rw [hrows] at hbounds
  exact absurd hbounds.2.2 (by decide)

end SelectedIndicesList

end JavaFX
