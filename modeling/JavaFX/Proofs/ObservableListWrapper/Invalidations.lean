/-
What the listeners of a wrapper learn when an observable becomes invalid.

The listener of an element walks the list from the front and reports an update
wherever it finds the element.  The positions come in ascending order, so every
report extends the last record or makes a new one behind it.
-/
import JavaFX.Proofs.ObservableListWrapper.Blocks

namespace JavaFX

open Program EditScript ListChangeBuilder List

variable {E Obs : Type}

/-- A record covers a position. -/
def SubChange.Covers (r : SubChange E) (i : Int) : Prop := r.from ≤ i ∧ i < r.to

namespace ListChangeBuilder

/-- Nothing is found at a position behind all the records. -/
theorem findSubChange_behind {pos : Int} {records : List (SubChange E)}
    (h : ∀ c ∈ records, c.from ≤ c.to ∧ c.to ≤ pos) :
    findSubChange pos records = .missing records.length := by
  cases hf : findSubChange pos records with
  | found i =>
    obtain ⟨pre, c, post, rfl, -, -, hto⟩ := findSubChange_found hf
    have := (h c (by simp)).2
    omega
  | missing i =>
    obtain ⟨pre, post, rfl, rfl, -, hpost⟩ := findSubChange_missing hf
    cases post with
    | nil => simp
    | cons c post =>
      have h1 := hpost c (by simp)
      have h2 := h c (by simp)
      omega

/-- The pending updates: they end before `n`, and cover what `P` says. -/
structure Updates (n : Int) (P : Int → Prop) (b : ListChangeBuilder E) : Prop where
  lock : b.changeLock = 1
  records : b.addRemoveChanges = []
  permutation : b.permutationChange = none
  updates : ∀ c ∈ b.updateChanges, Update c
  chain : Chain 0 (edits b.updateChanges) n
  covers : ∀ i, (∃ c ∈ b.updateChanges, c.Covers i) ↔ P i

variable {n : Int} {P : Int → Prop} {b : ListChangeBuilder E}

theorem chain_weaken {n m : Int} : ∀ {es : List (Edit E)} {o : Int}, Chain o es n → n ≤ m → Chain o es m := by
  intro es
  induction es with
  | nil => intro o h hnm; exact Int.le_trans h hnm
  | cons e es ih => intro o h hnm; exact ⟨h.1, h.2.1, ih h.2.2 hnm⟩

variable {e : Edit E}

theorem chain_append {n : Int} : ∀ {es : List (Edit E)} {o m : Int}, Chain o es m →
    m ≤ e.start → e.start ≤ e.stop → e.stop ≤ n → Chain o (es ++ [e]) n := by
  intro es
  induction es with
  | nil => intro o m h hm he hn; exact ⟨Int.le_trans h hm, he, hn⟩
  | cons a es ih => intro o m h hm he hn; exact ⟨h.1, h.2.1, ih h.2.2 hm he hn⟩

theorem chain_init {n : Int} : ∀ {es : List (Edit E)} {o : Int}, Chain o (es ++ [e]) n → Chain o es e.start := by
  intro es
  induction es with
  | nil => intro o h; exact h.1
  | cons a es ih => intro o h; exact ⟨h.1, h.2.1, ih h.2.2⟩

theorem Updates.skip (h : Updates n P b) : Updates (n + 1) P b :=
  ⟨h.lock, h.records, h.permutation, h.updates, chain_weaken h.chain (by omega), h.covers⟩

theorem Updates.nextUpdate (h : Updates n P b) :
    ∃ b', b.nextUpdate n = .ok b' ∧ Updates (n + 1) (fun i => P i ∨ i = n) b' := by
  have hbounds : ∀ c ∈ b.updateChanges, c.from ≤ c.to ∧ c.to ≤ n := by
    intro c hc
    have := Chain.bounds h.chain c.toEdit (mem_map_of_mem hc)
    exact ⟨this.2.1, this.2.2⟩
  have hok : ∀ us : List (SubChange E), (∀ c ∈ us, Update c) → EditScript.Chain 0 (edits us) (n + 1) →
      (∀ i, (∃ c ∈ us, c.Covers i) ↔ ((∃ c ∈ b.updateChanges, c.Covers i) ∨ i = n)) →
      Updates (n + 1) (fun i => P i ∨ i = n) { b with updateChanges := us } := by
    intro us hus hchain hcov
    exact ⟨h.lock, h.records, h.permutation, hus, hchain, fun i => by rw [hcov i, h.covers i]⟩
  unfold ListChangeBuilder.nextUpdate
  rw [checkState_of_pos (by rw [h.lock]; omega)]
  -- a new record at the end
  have hnew : (∀ last ∈ b.updateChanges.getLast?, last.to ≠ n) →
      insertUpdate n b.updateChanges = b.updateChanges ++ [⟨n, n + 1, none, [], true⟩] := by
    intro hlast
    have hbefore : insertUpdate.insertBefore n b.updateChanges.length b.updateChanges
        = b.updateChanges ++ [⟨n, n + 1, none, [], true⟩] := by
      unfold insertUpdate.insertBefore
      simp
    unfold insertUpdate
    rw [findSubChange_behind hbounds]
    simp only
    split
    · rename_i prev hprev
      split at hprev
      · rw [← getLast?_eq_getElem?] at hprev
        rw [if_neg (hlast prev hprev)]
        exact hbefore
      · simp at hprev
    · exact hbefore
  have happend : Updates (n + 1) (fun i => P i ∨ i = n)
      { b with updateChanges := b.updateChanges ++ [⟨n, n + 1, none, [], true⟩] } := by
    refine hok _ ?_ ?_ ?_
    · intro c hc
      rcases List.mem_append.mp hc with hc | hc
      · exact h.updates c hc
      · obtain rfl := List.mem_singleton.mp hc
        exact ⟨rfl, rfl, rfl⟩
    · rw [edits_append]
      exact chain_append h.chain (Int.le_refl _) (by show n ≤ n + 1; omega) (Int.le_refl _)
    · intro i
      simp only [mem_append, mem_singleton, or_and_right, exists_or, exists_eq_left]
      have : (⟨n, n + 1, none, [], true⟩ : SubChange E).Covers i ↔ i = n := by
        unfold SubChange.Covers
        show n ≤ i ∧ i < n + 1 ↔ _
        omega
      rw [this]
  cases hl : b.updateChanges.getLast? with
  | none =>
    refine ⟨_, ?_, happend⟩
    rw [← hnew (by rw [hl]; simp)]
    rfl
  | some last =>
    by_cases hto : last.to = n
    · -- the last record grows
      refine ⟨_, by simp only [hto]; rfl, ?_⟩
      have hcut := cut_last hl
      have hmem : last ∈ b.updateChanges := mem_of_getLast? hl
      refine hok _ ?_ ?_ ?_
      · intro c hc
        rcases List.mem_append.mp hc with hc | hc
        · exact h.updates c (dropLast_subset _ hc)
        · obtain rfl := List.mem_singleton.mp hc
          have hu := h.updates last hmem
          exact ⟨hu.removed, hu.perm, hu.updated⟩
      · have hchain := h.chain
        rw [hcut, edits_append] at hchain
        rw [edits_append]
        have hb := (hbounds last hmem).1
        exact chain_append (chain_init hchain) (Int.le_refl _) (by show last.from ≤ n + 1; omega) (Int.le_refl _)
      · intro i
        have hsplit : (∃ c ∈ b.updateChanges, c.Covers i) ↔
            (∃ c ∈ b.updateChanges.dropLast, c.Covers i) ∨ last.Covers i := by
          conv_lhs => rw [hcut]
          simp only [mem_append, mem_singleton, or_and_right, exists_or, exists_eq_left]
        rw [hsplit, or_assoc]
        simp only [mem_append, mem_singleton, or_and_right, exists_or, exists_eq_left]
        have hb := (hbounds last hmem).1
        have : ({ last with «to» := n + 1 } : SubChange E).Covers i ↔ last.Covers i ∨ i = n := by
          unfold SubChange.Covers
          show last.from ≤ i ∧ i < n + 1 ↔ _
          omega
        rw [this]
    · refine ⟨_, by simp only [hto]; rfl, ?_⟩
      rw [hnew (by rw [hl]; simpa using hto)]
      exact happend

theorem Updates.endChange (h : Updates n P b) (list : List E) :
    ∃ change : Option (Change E), b.endChange list = .ok ({}, change) ∧
      (∀ c ∈ change, c.list = list ∧ ∀ r ∈ c.changes, r.updated = true) ∧
      ∀ i, (∃ c ∈ change, ∃ r ∈ c.changes, r.Covers i) ↔ P i := by
  by_cases hup : b.updateChanges = []
  · refine ⟨none, endChange_quiet list h.lock h.records hup h.permutation, by simp, fun i => ?_⟩
    rw [← h.covers i, hup]
    simp
  · have hfaithful : Faithful b.addRemoveChanges ([] : List E) [] := by
      rw [h.records]
      exact Faithful.nil _
    obtain ⟨records, updates, hpend, hrec, -, -, -, hus, -, hcov⟩ :=
      pending_spec (by rw [h.records]; simp) hfaithful h.updates h.chain
    obtain rfl : records = [] := hrec.mpr h.records
    refine ⟨_, endChange_fires list h.lock (Or.inr (Or.inl hup)) hpend, ?_, fun i => ?_⟩
    · intro c hc
      obtain rfl := Option.some.inj hc
      refine ⟨rfl, fun r hr => ?_⟩
      simp only [h.permutation, mem_map] at hr
      obtain ⟨u, hu, rfl⟩ := hr
      exact (hus u hu).updated
    · rw [← h.covers i]
      refine Iff.trans ?_ (hcov i)
      simp only [h.permutation, Option.mem_def, Option.some.injEq, exists_eq_left', mem_map, exists_exists_and_eq_and]
      rfl

end ListChangeBuilder

namespace ObservableListWrapper

variable [DecidableEq E]

theorem updateEach_updates (e : E) : ∀ (xs : List E) (n : Nat) {P : Int → Prop}
    {w : ObservableListWrapper E Obs}, Updates n P w.changeBuilder →
    ∃ b, updateEach e n xs w = (.ok (), { w with changeBuilder := b }) ∧ Updates ((n : Int) + xs.length)
        (fun i => P i ∨ ∃ m : Nat, i = n + m ∧ xs[m]? = some e) b := by
  intro xs
  induction xs with
  | nil =>
    intro n P w h
    refine ⟨w.changeBuilder, rfl, ?_⟩
    simpa using h
  | cons x xs ih =>
    intro n P w h
    have hsplit : ∀ i : Int, (∃ m : Nat, i = n + m ∧ (x :: xs)[m]? = some e) ↔
        (i = n ∧ x = e) ∨ ∃ m : Nat, i = ((n + 1 : Nat) : Int) + m ∧ xs[m]? = some e := by
      intro i
      constructor
      · rintro ⟨m, hm, hx⟩
        cases m with
        | zero => exact Or.inl ⟨by simpa using hm, by simpa using hx⟩
        | succ m => exact Or.inr ⟨m, by push_cast at hm ⊢; omega, by simpa using hx⟩
      · rintro (⟨hi, hx⟩ | ⟨m, hm, hx⟩)
        · exact ⟨0, by simpa using hi, by simpa using hx⟩
        · exact ⟨m + 1, by push_cast at hm ⊢; omega, by simpa using hx⟩
    have hlen : (n : Int) + (x :: xs).length = ((n + 1 : Nat) : Int) + xs.length := by
      simp only [length_cons]
      omega
    unfold updateEach
    rw [hlen]
    by_cases hx : x = e
    · obtain ⟨b, hb, hu⟩ := h.nextUpdate
      have hmirror : mirror (fun b => b.nextUpdate n) w
          = (.ok (), { w with changeBuilder := b }) := by simp [mirror, hb]
      obtain ⟨b', hb', hu'⟩ := ih (n + 1) (w := { w with changeBuilder := b }) hu
      refine ⟨b', ?_, ?_⟩
      · rw [if_pos hx]
        rw [bind_ok hmirror]
        exact hb'
      · refine ⟨hu'.lock, hu'.records, hu'.permutation, hu'.updates, hu'.chain, fun i => ?_⟩
        rw [hu'.covers i, hsplit i, or_assoc]
        simp [hx]
    · obtain ⟨b', hb', hu'⟩ := ih (n + 1) h.skip
      refine ⟨b', by rw [if_neg hx]; exact hb', ?_⟩
      refine ⟨hu'.lock, hu'.records, hu'.permutation, hu'.updates, hu'.chain, fun i => ?_⟩
      rw [hu'.covers i, hsplit i]
      simp [hx]

/-- `changes` are updates of the list, and cover what `P` says. -/
structure UpdatesOf (list : List E) (P : Int → Prop) (changes : List (Change E)) : Prop where
  updates : ∀ c ∈ changes, c.list = list ∧ ∀ r ∈ c.changes, r.updated = true
  covers : ∀ i, (∃ c ∈ changes, ∃ r ∈ c.changes, r.Covers i) ↔ P i

variable {w : ObservableListWrapper E Obs}

theorem invalidated_reports (hidle : w.changeBuilder = {}) (listener : InvalidationListener E) :
    ∃ changes, invalidated listener w = (.ok (), { w with fired := w.fired ++ changes }) ∧
      (w.hasListeners = true → UpdatesOf w.backingList
        (fun i => ∃ n : Nat, i = n ∧ w.backingList[n]? = some listener.element) changes) := by
  have hstart : Updates ((0 : Nat) : Int) (fun _ => False) w.changeBuilder.beginChange := by
    rw [hidle]
    exact ⟨rfl, rfl, rfl, by simp [ListChangeBuilder.beginChange], Int.le_refl _,
      fun i => by simp [ListChangeBuilder.beginChange]⟩
  obtain ⟨b, hb, hu⟩ := updateEach_updates listener.element w.backingList 0
    (w := { w with changeBuilder := w.changeBuilder.beginChange }) hstart
  obtain ⟨change, hend, hups, hcov⟩ := hu.endChange w.backingList
  have hrun : invalidated listener w = endChange { w with changeBuilder := b } := by
    unfold invalidated
    rw [bind_ok (beginChange_apply w), bind_ok (read_apply _ _), bind_ok hb]
  refine ⟨if w.hasListeners then change.toList else [], ?_, fun hl => ?_⟩
  · rw [hrun]
    unfold endChange
    simp only [hend]
    cases change with
    | none => simp [← hidle]
    | some c =>
      by_cases hl : w.hasListeners = true
      · simp [fireChange, hl, ← hidle]
      · simp [fireChange, hl, ← hidle]
  · rw [if_pos hl]
    refine ⟨fun c hc => hups c (by simpa using hc), fun i => ?_⟩
    have := hcov i
    simpa using this

theorem invalidatedEach_reports : ∀ (ls : List (InvalidationListener E))
    {w : ObservableListWrapper E Obs}, w.changeBuilder = {} →
    ∃ changes, forEach invalidated ls w = (.ok (), { w with fired := w.fired ++ changes }) ∧
      (w.hasListeners = true → UpdatesOf w.backingList (fun i => ∃ n : Nat, i = n ∧
        ∃ listener ∈ ls, w.backingList[n]? = some listener.element) changes) := by
  intro ls
  induction ls with
  | nil =>
    intro w _
    exact ⟨[], by simp [forEach], fun _ => ⟨by simp, by simp⟩⟩
  | cons li ls ih =>
    intro w hidle
    obtain ⟨first, hfirst, hu₁⟩ := invalidated_reports hidle li
    obtain ⟨rest, hrest, hu₂⟩ := ih (w := { w with fired := w.fired ++ first }) hidle
    refine ⟨first ++ rest, ?_, fun hl => ⟨fun c hc => ?_, fun i => ?_⟩⟩
    · rw [forEach, bind_ok hfirst, hrest, append_assoc]
    · rcases List.mem_append.mp hc with hc | hc
      · exact (hu₁ hl).updates c hc
      · exact (hu₂ hl).updates c hc
    · simp only [mem_append, or_and_right, exists_or]
      rw [(hu₁ hl).covers i, (hu₂ hl).covers i]
      constructor
      · rintro (⟨n, hn, hx⟩ | ⟨n, hn, li', hli', hx⟩)
        · exact ⟨n, hn, li, by simp, hx⟩
        · exact ⟨n, hn, li', by simp [hli'], hx⟩
      · rintro ⟨n, hn, li', hli', hx⟩
        rcases List.mem_cons.mp hli' with rfl | hli'
        · exact Or.inl ⟨n, hn, hx⟩
        · exact Or.inr ⟨n, hn, li', hli', hx⟩

variable [DecidableEq Obs]

/-- **An invalid observable** is reported at the places of the elements whose
listeners it knows. -/
theorem invalidate_reports {o : ElementObserver E Obs}
    (ho : w.elementObserver = some o) (hidle : w.changeBuilder = {}) (obs : Obs) :
    ∃ changes, invalidate obs w = (.ok (), { w with fired := w.fired ++ changes }) ∧
      (w.hasListeners = true → UpdatesOf w.backingList (fun i => ∃ n : Nat, i = n ∧
        ∃ listener, (obs, listener) ∈ o.registrations ∧ w.backingList[n]? = some listener.element) changes) := by
  obtain ⟨changes, hrun, hu⟩ := invalidatedEach_reports
    ((o.registrations.filter (fun r => r.1 = obs)).map Prod.snd) hidle
  refine ⟨changes, ?_, fun hl => ⟨(hu hl).updates, fun i => ?_⟩⟩
  · unfold invalidate
    rw [bind_ok (read_apply _ w), ← hrun]
    simp only [ho]
  · rw [(hu hl).covers i]
    simp

end ObservableListWrapper

end JavaFX
