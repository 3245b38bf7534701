/-
The observables a list with an extractor listens to.

A call that takes an occurrence of an element away and leaves another one behind
also takes the listener off the observables, and a call that fails to add an element
has attached it already.  As long as no call does either, the list listens to
exactly the observables of its elements.
-/
import JavaFX.Proofs.ElementObserver
import JavaFX.Proofs.ObservableListWrapper.Invalidations
import JavaFX.Proofs.ObservableListWrapper.Notification

namespace JavaFX.ObservableListWrapper

open Program ListChangeBuilder IndexTable ElementObserver List

variable {E Obs : Type} [DecidableEq E] [DecidableEq Obs]

/-! ### Detaching many elements -/

theorem detachAll_counts : ∀ (xs : List E) {l : List E} {o : ElementObserver E Obs}
    {dropped : E → Prop}, ElementObserver.Counts o (xs ++ l) dropped →
    ∃ o', detachAll xs (some o) = .ok (some o') ∧ ElementObserver.Counts o' l (fun x => dropped x ∨ x ∈ xs) ∧
      o'.extractor = o.extractor ∧ o'.isNull = o.isNull := by
  intro xs
  induction xs with
  | nil =>
    intro l o dropped h
    exact ⟨o, rfl, h.congr (fun _ _ _ _ => by simp), rfl, rfl⟩
  | cons x xs ih =>
    intro l o dropped h
    obtain ⟨o₁, ho₁, h₁, hx₁, hn₁⟩ := h.detach
    obtain ⟨o₂, ho₂, h₂, hx₂, hn₂⟩ := ih h₁
    refine ⟨o₂, ?_, h₂.congr (fun y _ _ _ => by simp [or_assoc]), hx₂.trans hx₁, hn₂.trans hn₁⟩
    simp only [detachAll, ho₁]
    exact ho₂

/-! ### The books of a wrapper -/

/-- The observer with this extractor has its books in order for the list. -/
def Watched (extractor : E → List Obs) (isNull : E → Bool) (l : List E)
    (o : Option (ElementObserver E Obs)) : Prop :=
  ∃ o', o = some o' ∧ o'.extractor = extractor ∧ o'.isNull = isNull ∧ ElementObserver.Counts o' l (fun _ => False)

variable {extractor : E → List Obs} {isNull : E → Bool} {l l' : List E}
  {o o' : Option (ElementObserver E Obs)}

theorem Watched.perm (h : Watched extractor isNull l o) (hl : l.Perm l') : Watched extractor isNull l' o := by
  obtain ⟨o', rfl, hx, hn, hc⟩ := h
  exact ⟨o', rfl, hx, hn, hc.perm hl⟩

theorem Watched.attach (h : Watched extractor isNull l o) (e : E) :
    Watched extractor isNull (e :: l) (o.map (·.attachListener e)) := by
  obtain ⟨o', rfl, hx, hn, hc⟩ := h
  obtain ⟨hx', hn'⟩ := extractor_attachListener o' e
  exact ⟨_, rfl, hx'.trans hx, hn'.trans hn, (hc.attach e).congr (fun _ _ _ _ => by simp)⟩

variable {e : E} {xs : List E} {is : List Int} {mark : Bool} {c : Collection E}

theorem Watched.attach_null (h : Watched extractor isNull l o) (hnull : isNull e = true) :
    o.map (·.attachListener e) = o := by
  obtain ⟨o', rfl, -, hn, -⟩ := h
  rw [Option.map_some, ElementObserver.attachListener, if_pos (by rw [hn]; exact hnull)]

/-- No occurrence of `x` in the list is missed. -/
def unmissed (extractor : E → List Obs) (isNull : E → Bool) (l : List E) (x : E) : Bool :=
  isNull x || (extractor x).isEmpty || !l.contains x

theorem Watched.detachAll (h : Watched extractor isNull l o)
    (hl : l.Perm (xs ++ l')) (hclean : ∀ x ∈ xs, unmissed extractor isNull l' x = true) :
    ∃ o', detachAll xs o = .ok o' ∧ Watched extractor isNull l' o' := by
  obtain ⟨o', rfl, hx, hn, hc⟩ := h
  obtain ⟨o₁, ho₁, hc₁, hx₁, hn₁⟩ := detachAll_counts xs (hc.perm hl)
  refine ⟨some o₁, ho₁, o₁, rfl, hx₁.trans hx, hn₁.trans hn, hc₁.congr fun x hxl hnull hobs => ?_⟩
  simp only [false_or, iff_false]
  intro hmem
  have := hclean x hmem
  rw [hn₁, hn] at hnull
  rw [hx₁, hx] at hobs
  simp [unmissed, hnull, hobs, hxl] at this

/-! ### The calls -/

/-- What the observer has to do with of a wrapper. -/
def view (w : ObservableListWrapper E Obs) :
    List E × Option (ElementObserver E Obs) × List (Option JavaException) :=
  (w.backingList, w.elementObserver, w.faults)

/-- The books are in order, and the backing list accepts every write. -/
def Alert (extractor : E → List Obs) (isNull : E → Bool) (w : ObservableListWrapper E Obs) : Prop :=
  Watched extractor isNull w.backingList w.elementObserver ∧ w.faults = []

variable {w w' : ObservableListWrapper E Obs}

theorem Watched.of_view (hview : w'.view = w.view) (h : Watched extractor isNull w.backingList w.elementObserver) :
    Watched extractor isNull w'.backingList w'.elementObserver := by
  unfold view at hview
  simp only [Prod.mk.injEq] at hview
  rw [hview.1, hview.2.1]
  exact h

theorem Alert.of_view (h : Alert extractor isNull w) (hview : w'.view = w.view) : Alert extractor isNull w' :=
  ⟨h.1.of_view hview, (congrArg (fun v => v.2.2) hview).trans h.2⟩

omit [DecidableEq E] [DecidableEq Obs] in
theorem view_fireChange (change : Change E) (w : ObservableListWrapper E Obs) :
    (fireChange change w).2.view = w.view := by
  rw [fireChange, modify_apply]
  split
  · rfl
  · rfl

omit [DecidableEq E] [DecidableEq Obs] in
theorem view_endChange (w : ObservableListWrapper E Obs) : (endChange w).2.view = w.view := by
  unfold endChange
  split
  · exact view_fireChange _ _
  · rfl
  · rfl

omit [DecidableEq E] [DecidableEq Obs] in
theorem view_report (f : ListChangeBuilder E → Except JavaException (ListChangeBuilder E))
    (w : ObservableListWrapper E Obs) : (report f w).2.view = w.view := by
  unfold report
  rw [bind_ok (beginChange_apply w)]
  cases hf : f w.changeBuilder.beginChange with
  | ok b =>
    have hmirror : mirror f { w with changeBuilder := w.changeBuilder.beginChange }
        = (.ok (), { w with changeBuilder := b }) := by simp [mirror, hf]
    rw [bind_ok hmirror]
    exact view_endChange _
  | error ex =>
    have hmirror : mirror f { w with changeBuilder := w.changeBuilder.beginChange }
        = (.error ex, { w with changeBuilder := w.changeBuilder.beginChange }) := by
      simp [mirror, hf]
    rw [bind_error hmirror]
    rfl

theorem Alert.accepts (h : Alert extractor isNull w) : w.refuses = false := by
  unfold refuses
  rw [h.2]

theorem alert_endChange : Keeps (Alert extractor isNull) (endChange : Call E Obs Unit) :=
  fun w h => h.of_view (view_endChange w)

variable {i : Int}

theorem addAt_alert (h : Alert extractor isNull w) (hi : (0 ≤ i ∧ i ≤ w.backingList.length) ∨ isNull e = true) :
    Alert extractor isNull (addAt i e w).2 ∧ (0 ≤ i ∧ i ≤ w.backingList.length →
      (addAt i e w).2.backingList.length = w.backingList.length + 1) := by
  unfold addAt
  rcases doAdd_cases i e w with ⟨n, rfl, hn, -, hadd⟩ | ⟨ex, hadd, hwhy⟩
  · rw [bind_ok hadd]
    have hview := view_report (fun b => b.nextAdd n (n + 1))
      ((w.attached e).written (w.backingList.take n ++ e :: w.backingList.drop n))
    refine ⟨Alert.of_view ⟨?_, ?_⟩ hview, fun _ => ?_⟩
    · refine (h.1.attach e).perm ?_
      refine List.Perm.trans ?_ List.perm_middle.symm
      rw [take_append_drop]
    · show w.faults.tail = []
      rw [h.2]
      rfl
    · rw [show (report (fun b => b.nextAdd n (n + 1)) _).2.backingList = _ from congrArg Prod.fst hview]
      show (w.backingList.take n ++ e :: w.backingList.drop n).length = _
      simp
      omega
  · rw [bind_error hadd]
    have hnull : isNull e = true := by
      rcases hwhy with hwhy | hwhy
      · rw [h.accepts] at hwhy
        simp at hwhy
      · rcases hi with hi | hi
        · omega
        · exact hi
    refine ⟨⟨?_, by show w.faults.tail = []; rw [h.2]; rfl⟩, fun hin => ?_⟩
    · show Watched extractor isNull w.backingList (w.elementObserver.map (·.attachListener e))
      rw [h.1.attach_null hnull]
      exact h.1
    · rcases hwhy with hwhy | hwhy
      · rw [h.accepts] at hwhy
        simp at hwhy
      · omega

theorem add_alert (e : E) : Keeps (Alert extractor isNull) (add e : Call E Obs Bool) := by
  intro w h
  unfold add
  rw [bind_ok (read_apply _ w), bind_pure_snd]
  exact (addAt_alert h (Or.inl ⟨by omega, by omega⟩)).1

theorem addAll_alert (c : Collection E) : Keeps (Alert extractor isNull) (addAll c : Call E Obs Bool) :=
  keeps_bind (fun _ h => h) (fun _ => keeps_tryFinally
    (keeps_iterate c (fun e => keeps_bind (add_alert e) (fun _ => keeps_pure ()))) alert_endChange)

theorem addEachAt_alert : ∀ (es : List E) (i : Int) {w : ObservableListWrapper E Obs},
    Alert extractor isNull w → 0 ≤ i → i ≤ w.backingList.length →
    Alert extractor isNull (addEachAt i es w).2 := by
  intro es
  induction es with
  | nil => intro i w h _ _; exact h
  | cons e es ih =>
    intro i w h h0 hi
    obtain ⟨h', hlen⟩ := addAt_alert (e := e) h (Or.inl ⟨h0, hi⟩)
    unfold addEachAt
    rcases hx : addAt i e w with ⟨r, w₁⟩
    rw [hx] at h' hlen
    cases r with
    | ok _ =>
      rw [bind_ok hx]
      exact ih (i + 1) h' (by omega) (by have := hlen ⟨h0, hi⟩; simp only at this; omega)
    | error ex => rw [bind_error hx]; exact h'

theorem addAllAt_alert (i : Int) (c : Collection E) :
    Keeps (Alert extractor isNull) (addAllAt i c : Call E Obs Bool) := by
  refine keeps_bind (fun _ h => h) fun _ => keeps_tryFinally ?_ alert_endChange
  intro w h
  rw [bind_ok (read_apply _ w)]
  split
  · exact h
  · rename_i hi
    rw [bind_ok (read_apply _ w)]
    simp only
    have hadd := addEachAt_alert (c.iterate w.backingList).1 i h (by omega) (by omega)
    rcases hx : addEachAt i (c.iterate w.backingList).1 w with ⟨r, w₁⟩
    rw [hx] at hadd
    cases r with
    | error ex => rw [bind_error hx]; exact hadd
    | ok _ =>
      rw [bind_ok hx]
      cases (c.iterate w.backingList).2 with
      | none => exact hadd
      | some ex => exact hadd

/-- What is removed at the indices leaves no occurrence behind. -/
def clean (extractor : E → List Obs) (isNull : E → Bool) (is : List Int) (l : List E) : Bool :=
  match taken is l with
  | some xs => xs.all (unmissed extractor isNull (erased is l))
  | none => true

theorem Watched.clean (h : Watched extractor isNull l o)
    (hclean : clean extractor isNull is l = true) (hxs : taken is l = some xs) :
    ∃ o', ObservableListWrapper.detachAll xs o = .ok o' ∧ Watched extractor isNull (erased is l) o' := by
  refine h.detachAll (taken_perm is hxs) fun x hx => ?_
  unfold ObservableListWrapper.clean at hclean
  rw [hxs] at hclean
  exact List.all_eq_true.mp hclean x hx

section

variable (h : Alert extractor isNull w)
include h

theorem Alert.taken {n : Nat} {old : E} (hclean : clean extractor isNull [i] w.backingList = true)
    (hat : At i n old w.backingList) : ∃ o, ObservableListWrapper.detachAll [old] w.elementObserver = .ok o ∧
      Watched extractor isNull (w.backingList.eraseIdx n) o := by
  have htaken : ObservableListWrapper.taken [i] w.backingList = some [old] := by
    rw [taken_cons hat]
    rfl
  rw [← hat.lookup.2]
  exact h.1.clean hclean htaken

theorem removeAt_alert (hclean : clean extractor isNull [i] w.backingList = true) :
    Alert extractor isNull (removeAt i w).2 := by
  unfold removeAt
  have hfaults : w.faults.tail = [] := by rw [h.2]; rfl
  rcases doRemove_cases i w with ⟨n, old, hat, -, hcase⟩ | ⟨ex, hrem, -⟩
  · obtain ⟨o', ho', hw'⟩ := h.taken hclean hat
    rcases hcase with ⟨o, ho, hrem⟩ | ⟨ex, hex, -⟩
    · rw [ho] at ho'
      obtain rfl := Except.ok.inj ho'
      rw [bind_ok hrem, bind_pure_snd]
      exact Alert.of_view ⟨hw', hfaults⟩ (view_report _ _)
    · rw [hex] at ho'
      simp at ho'
  · rw [bind_error hrem]
    exact ⟨h.1, hfaults⟩

theorem set_alert (e : E) (hclean : clean extractor isNull [i] w.backingList = true) :
    Alert extractor isNull (set i e w).2 := by
  unfold ObservableListWrapper.set
  have hfaults : w.faults.tail = [] := by rw [h.2]; rfl
  rcases doSet_cases i e w with ⟨n, old, hat, -, hcase⟩ | ⟨ex, hset, -⟩
  · obtain ⟨o', ho', hw'⟩ := h.taken hclean hat
    have hperm : (e :: w.backingList.eraseIdx n).Perm (w.backingList.set n e) :=
      (set_perm_cons_eraseIdx (List.getElem?_eq_some_iff.mp hat.2).1 e).symm
    rcases hcase with ⟨o, ho, hset⟩ | ⟨ex, hex, -⟩
    · rw [ho] at ho'
      obtain rfl := Except.ok.inj ho'
      rw [bind_ok hset, bind_pure_snd]
      exact Alert.of_view ⟨(hw'.attach e).perm hperm, hfaults⟩ (view_report _ _)
    · rw [hex] at ho'
      simp at ho'
  · rw [bind_error hset]
    exact ⟨h.1, hfaults⟩

theorem removeEach_alert (hw : WellFormed w)
    (hall : w.removals is = true) (hclean : clean extractor isNull is w.backingList = true) :
    ∃ w', removeEach is { w with changeBuilder := w.changeBuilder.beginChange } = (.ok (), w') ∧
      Watched extractor isNull w'.backingList w'.elementObserver := by
  have hlevel : Level (w.changeBuilder.changeLock + 1) w.changeBuilder.beginChange :=
    ⟨rfl, hw.plain⟩
  rcases removeEach_cases is { w with changeBuilder := w.changeBuilder.beginChange } hlevel with
    ⟨-, w', hrun, -, -, ⟨xs, hxs, hdet, hlist⟩, -⟩ | ⟨hno, -⟩
  · obtain ⟨o', ho', hw'⟩ := h.1.clean hclean hxs
    have hdet' : ObservableListWrapper.detachAll xs w.elementObserver = .ok w'.elementObserver := hdet
    rw [hdet'] at ho'
    obtain rfl := Except.ok.inj ho'
    exact ⟨w', hrun, by rw [hlist]; exact hw'⟩
  · have hno' : w.removals is = false := hno
    rw [hall] at hno'
    simp at hno'

end

theorem accepting_invariant : Invariant (fun w : ObservableListWrapper E Obs => w.faults = []) where
  write f w h := by
    rcases write_cases w f with ⟨l, a, -, hx⟩ | ⟨ex, hx⟩
    · rw [hx]
      show w.faults.tail = []
      rw [h]
      rfl
    · rw [hx]
      show w.faults.tail = []
      rw [h]
      rfl
  beginChange w h := h
  mirror f _ w h := by
    unfold ObservableListWrapper.mirror
    split
    · exact h
    · exact h
  fireChange change w h := by
    have := congrArg (fun v => v.2.2) (view_fireChange change w)
    exact Eq.trans this h
  endChange w h := by
    have := congrArg (fun v => v.2.2) (view_endChange w)
    exact Eq.trans this h
  attachListener e w h := h
  detachListener e w h := by
    unfold ObservableListWrapper.detachListener
    split
    · exact h
    · split
      · exact h
      · exact h

section

variable (h : Alert extractor isNull w)
include h

theorem removeRange_watched (hw : WellFormed w) {lo hi : Int}
    (hleak : w.leaks (.removeRange lo hi) = false)
    (hclean : clean extractor isNull (replicate (hi - lo).toNat lo) w.backingList = true) :
    Watched extractor isNull (removeRange lo hi w).2.backingList (removeRange lo hi w).2.elementObserver := by
  have hall : w.removals (replicate (hi - lo).toNat lo) = true := by
    simpa [leaks] using hleak
  obtain ⟨w', hrun, hw'⟩ := removeEach_alert h hw hall hclean
  have hend : removeRange lo hi w = endChange w' := by
    unfold removeRange
    rw [bind_ok (beginChange_apply w), removeTimes_eq, bind_ok hrun]
  rw [hend]
  exact hw'.of_view (view_endChange w')

theorem removeMarked_watched (hw : WellFormed w) (hleak : w.markedLeaks mark c = false)
    (hclean : ∀ bs, marked c mark 0 w.backingList = .ok bs →
      clean extractor isNull (bs.reverse.map Int.ofNat) w.backingList = true) :
    Watched extractor isNull (removeMarked mark c w).2.backingList (removeMarked mark c w).2.elementObserver := by
  unfold markedLeaks at hleak
  cases hsize : c.size with
  | error ex => rw [hsize] at hleak; simp at hleak
  | ok size =>
    cases hbs : marked c mark 0 w.backingList with
    | error ex => rw [hsize, hbs] at hleak; simp at hleak
    | ok bs =>
      rw [hsize, hbs] at hleak
      simp only [Bool.or_eq_false_iff, Bool.not_eq_false', decide_eq_false_iff_not] at hleak
      obtain ⟨w', hrun, hw'⟩ := removeEach_alert h hw hleak.2 (hclean bs hbs)
      have hend : (removeMarked mark c w).2 = (endChange w').2 := by
        rw [removeMarked_apply hsize hleak.1 hbs, bind_pure_snd, bind_ok hrun]
      rw [hend]
      exact hw'.of_view (view_endChange w')

theorem clear_alert (hplain : ∀ c ∈ w.changeBuilder.addRemoveChanges, Plain c) :
    Alert extractor isNull (clear w).2 := by
  obtain ⟨b, hb, -⟩ := Level.nextRemoveAll 0 w.backingList
    (b := w.changeBuilder.beginChange) (k := w.changeBuilder.changeLock) ⟨rfl, hplain⟩
  have hnone : ∀ x ∈ w.backingList, unmissed extractor isNull [] x = true := fun x _ => by
    simp [unmissed]
  obtain ⟨o, ho, hwatched⟩ := h.1.detachAll (show w.backingList.Perm (w.backingList ++ []) by simp) hnone
  refine ⟨?_, accepting_invariant.clear w h.2⟩
  rcases clear_cases hb with ⟨-, ex, w', -, -, -, -, hwhy⟩ | ⟨-, -, w', hrun, -, -, hlist, hdet⟩ |
    ⟨hleak, -⟩ | ⟨-, -, w', hrun, -, -, hlist, hdet⟩
  · rcases hwhy with hwhy | ⟨ex, hwhy⟩
    · rw [h.accepts] at hwhy
      simp at hwhy
    · rw [ho] at hwhy
      simp at hwhy
  · rw [ho] at hdet
    rw [hrun, hlist, ← Except.ok.inj hdet]
    exact hwatched
  · simp [clearLeaks, h.accepts] at hleak
  · rw [ho] at hdet
    rw [hrun]
    refine Watched.of_view (view_endChange w') ?_
    rw [hlist, ← Except.ok.inj hdet]
    exact hwatched

theorem setAll_alert (hw : WellFormed w) (col : Collection E) :
    Alert extractor isNull (setAll col w).2 := by
  rcases setAll_cases w col with ⟨-, r, hrun⟩ | ⟨-, hrun⟩
  · rw [hrun]
    exact h
  · rw [hrun, replaceAll, bind_ok (beginChange_apply w), tryFinally_snd]
    refine alert_endChange _ ?_
    -- The list is empty in between, so that every element is new.
    have hclear := clear_alert (w := { w with changeBuilder := w.changeBuilder.beginChange }) h hw.plain
    rcases hx : clear { w with changeBuilder := w.changeBuilder.beginChange } with ⟨r, w₁⟩
    rw [hx] at hclear
    cases r with
    | error ex => rw [bind_error hx]; exact hclear
    | ok _ =>
      rw [bind_ok hx, bind_pure_snd]
      exact addAll_alert col w₁ hclear

end

omit [DecidableEq E] [DecidableEq Obs] in
theorem writeBack_elementObserver : ∀ (es : List E) (i : Nat) (w : ObservableListWrapper E Obs),
    (writeBack i es w).2.elementObserver = w.elementObserver := by
  intro es
  induction es with
  | nil => intro i w; rfl
  | cons e es ih =>
    intro i w
    unfold writeBack
    rcases backing_cases (fun n l => l.set n e) (i : Int) w (x := backingSet i e) rfl with ⟨n, old, -, -, hset⟩ | ⟨ex, hset, -⟩
    · rw [bind_ok hset]
      exact ih (i + 1) _
    · rw [bind_error hset]
      rfl

theorem sort_alert (h : Alert extractor isNull w) (compare : E → E → Except JavaException Int) :
    Alert extractor isNull (sort compare w).2 := by
  refine ⟨?_, accepting_invariant.sort compare w h.2⟩
  by_cases hnil : w.backingList = []
  · rw [sort_nil hnil]
    exact h.1
  · have hspec := @SortHelper.sort_spec _ compare w.backingList
    cases hs : SortHelper.sort compare w.backingList with
    | error ex =>
      rw [sort_error hnil hs]
      exact h.1
    | ok r =>
      obtain ⟨sorted, perm⟩ := r
      rw [hs] at hspec
      obtain ⟨hperm, hlen, hsorted, -⟩ := hspec
      simp only at hperm hlen hsorted
      have hslen : w.backingList.length = sorted.length := by rw [hsorted, length_permute]
      rw [sort_ok hnil hs]
      rcases writeBack_cases sorted [] w.backingList w rfl hslen with
        ⟨-, w', hwb, -, -, hlist⟩ | ⟨⟨hf, -⟩, -⟩
      · have hwb' : writeBack 0 sorted w = (.ok (), w') := hwb
        rw [bind_ok hwb', bind_ok (read_apply _ w')]
        have hview := view_fireChange ⟨w'.backingList, [⟨0, w'.backingList.length, some [], perm, false⟩]⟩ w'
        have hlist' : w'.backingList.Perm w.backingList := by
          rw [hlist, nil_append, hsorted]
          exact permute_perm hperm hlen
        have hobs : w'.elementObserver = w.elementObserver := by
          have := writeBack_elementObserver sorted 0 w
          rwa [hwb'] at this
        refine Watched.of_view hview ?_
        rw [hobs]
        exact h.1.perm hlist'.symm
      · rw [h.2] at hf
        simp at hf

/-! ### Whole runs -/

/-- The call leaves no occurrence of an element behind that it takes another one away
of, and adds nothing where it cannot be added. -/
def safe (extractor : E → List Obs) (isNull : E → Bool) (w : ObservableListWrapper E Obs) :
    ListCall E → Bool
  | .addAt i e => (0 ≤ i && i ≤ w.backingList.length) || isNull e
  | .set i _ => clean extractor isNull [i] w.backingList
  | .remove equals =>
    match indexOf equals w.backingList with
    | .ok i => clean extractor isNull [i] w.backingList
    | .error _ => true
  | .removeAt i => clean extractor isNull [i] w.backingList
  | .removeRange lo hi =>
    clean extractor isNull (List.replicate (hi - lo).toNat lo) w.backingList
  | .removeAll c => cleanMarked true c
  | .retainAll c => cleanMarked false c
  | .add _ | .addAll _ | .addAllAt _ _ | .setAll _ | .clear | .sort _ => true
where
  cleanMarked (mark : Bool) (c : Collection E) : Bool :=
    match marked c mark 0 w.backingList with
    | .ok bs => clean extractor isNull (bs.reverse.map Int.ofNat) w.backingList
    | .error _ => true

theorem remove_alert (h : Alert extractor isNull w) {equals : E → Except JavaException Bool}
    (hsafe : w.safe extractor isNull (.remove equals) = true) :
    Alert extractor isNull (remove equals w).2 := by
  cases hi : indexOf equals w.backingList with
  | error ex =>
    have hrun : remove equals w = (.error ex, w) := by
      show (lift (indexOf equals w.backingList) >>= _) w = _
      rw [hi]
      rfl
    rw [hrun]
    exact h
  | ok i =>
    have hrun : remove equals w = (if i ≠ -1 then do
        let _ ← removeAt i
        return true
      else return false : Call E Obs Bool) w := by
      show (lift (indexOf equals w.backingList) >>= _) w = _
      rw [hi]
      rfl
    rw [hrun]
    split
    · rw [bind_pure_snd]
      exact removeAt_alert h (by simpa [safe, hi] using hsafe)
    · exact h

omit [DecidableEq Obs] in
theorem cleanMarked_ok (h : safe.cleanMarked extractor isNull w mark c = true) {bs : List Nat}
    (hbs : marked c mark 0 w.backingList = .ok bs) :
    clean extractor isNull (bs.reverse.map Int.ofNat) w.backingList = true := by
  unfold safe.cleanMarked at h
  rwa [hbs] at h

/-- **A safe call that does not leak** keeps the books in order. -/
theorem run_alert (h : Alert extractor isNull w) (hw : WellFormed w) {c : ListCall E}
    (hsafe : w.safe extractor isNull c = true) (hleak : w.leaks c = false) :
    Alert extractor isNull (c.run w).2 := by
  cases c with
  | add e => exact keeps_bind (add_alert e) (fun _ => keeps_pure ()) w h
  | addAt i e => exact (addAt_alert h (by simpa [safe] using hsafe)).1
  | addAll c => exact keeps_bind (addAll_alert c) (fun _ => keeps_pure ()) w h
  | addAllAt i c => exact keeps_bind (addAllAt_alert i c) (fun _ => keeps_pure ()) w h
  | set i e =>
    unfold ListCall.run
    rw [bind_pure_snd]
    exact set_alert h e hsafe
  | setAll col =>
    unfold ListCall.run
    rw [bind_pure_snd]
    exact setAll_alert h hw col
  | remove equals =>
    unfold ListCall.run
    rw [bind_pure_snd]
    exact remove_alert h hsafe
  | removeAt i =>
    unfold ListCall.run
    rw [bind_pure_snd]
    exact removeAt_alert h hsafe
  | removeRange lo hi =>
    exact ⟨removeRange_watched h hw hleak hsafe, accepting_invariant.run (.removeRange lo hi) w h.2⟩
  | removeAll c =>
    refine ⟨?_, accepting_invariant.run (.removeAll c) w h.2⟩
    unfold ListCall.run
    rw [bind_pure_snd]
    exact removeMarked_watched h hw hleak (fun _ => cleanMarked_ok hsafe)
  | retainAll c =>
    refine ⟨?_, accepting_invariant.run (.retainAll c) w h.2⟩
    unfold ListCall.run
    rw [bind_pure_snd]
    exact removeMarked_watched h hw hleak (fun _ => cleanMarked_ok hsafe)
  | clear => exact clear_alert h hw.plain
  | sort compare => exact sort_alert h compare

/-- The runs of a list with an extractor in which every call is safe and none leaks.
Observables may become invalid, and listeners may come and go. -/
inductive SafeRun (extractor : E → List Obs) (isNull : E → Bool) :
    ObservableListWrapper E Obs → Prop
  | create (list : List E) : SafeRun extractor isNull (create extractor isNull list)
  | call {w : ObservableListWrapper E Obs} (h : SafeRun extractor isNull w) (c : ListCall E)
      (hsafe : w.safe extractor isNull c = true) (hleak : w.leaks c = false) :
      SafeRun extractor isNull (c.run w).2
  | invalidate {w : ObservableListWrapper E Obs} (h : SafeRun extractor isNull w) (obs : Obs) :
      SafeRun extractor isNull (invalidate obs w).2
  | listeners {w : ObservableListWrapper E Obs} (h : SafeRun extractor isNull w)
      (hasListeners : Bool) : SafeRun extractor isNull { w with hasListeners }

theorem watched_create (extractor : E → List Obs) (isNull : E → Bool) (list : List E) :
    Watched extractor isNull list (create extractor isNull list).elementObserver := by
  have hloop : ∀ (xs done : List E) (o : ElementObserver E Obs), Watched extractor isNull done (some o) →
      Watched extractor isNull (xs.reverse ++ done) (some (xs.foldl (fun o e => o.attachListener e) o)) := by
    intro xs
    induction xs with
    | nil => intro done o h; exact h
    | cons x xs ih =>
      intro done o h
      rw [reverse_cons, append_assoc]
      exact ih (x :: done) (o.attachListener x) (h.attach x)
  have hstart : Watched extractor isNull [] (some { extractor, isNull }) :=
    ⟨_, rfl, rfl, rfl, counts_empty extractor isNull _⟩
  exact (hloop list [] _ hstart).perm (by simp)

theorem SafeRun.reachable (h : SafeRun extractor isNull w) : Reachable w := by
  induction h with
  | create list => exact .new _ rfl
  | call h c _ _ ih => exact ih.call c
  | invalidate h obs ih => exact ih.invalidate obs
  | listeners h hasListeners ih => exact ih.listeners hasListeners

/-- In a safe run no block is open between two calls, and the books are in order. -/
theorem SafeRun.alert (h : SafeRun extractor isNull w) : w.changeBuilder = {} ∧ Alert extractor isNull w := by
  induction h with
  | create list => exact ⟨rfl, watched_create extractor isNull list, rfl⟩
  | @call w h c hsafe hleak ih =>
    have hw := h.reachable.wellFormed
    refine ⟨(wellFormed_invariant.run c w hw).idle ?_, run_alert ih.2 hw hsafe hleak⟩
    rcases run_judged hw c with ⟨-, hk⟩ | ⟨hyes, -⟩
    · rw [hk.1, ih.1]
    · rw [hleak] at hyes
      simp at hyes
  | @invalidate w h obs ih =>
    obtain ⟨o, ho, -⟩ := ih.2.1
    obtain ⟨changes, hrun, -⟩ := invalidate_reports ho ih.1 obs
    rw [hrun]
    exact ih
  | listeners h hasListeners ih => exact ih

/-- The list listens to the observables of exactly its elements, and tells its own
listeners where the elements of an invalid observable are. -/
structure Observes (extractor : E → List Obs) (isNull : E → Bool)
    (w : ObservableListWrapper E Obs) : Prop where
  listens : ∃ o, w.elementObserver = some o ∧ ∀ e obs,
    (∃ listener, listener.element = e ∧ (obs, listener) ∈ o.registrations) ↔
      isNull e = false ∧ obs ∈ extractor e ∧ e ∈ w.backingList
  reports : ∀ obs, w.hasListeners = true →
    ∃ changes, invalidate obs w = (.ok (), { w with fired := w.fired ++ changes }) ∧
      UpdatesOf w.backingList (fun i => ∃ n : Nat, i = n ∧ ∃ e, w.backingList[n]? = some e ∧
        isNull e = false ∧ obs ∈ extractor e) changes

theorem registered_iff {o : ElementObserver E Obs} (hc : ElementObserver.Counts o l (fun _ => False)) (e : E)
    (obs : Obs) : (∃ listener, listener.element = e ∧ (obs, listener) ∈ o.registrations) ↔
      o.isNull e = false ∧ obs ∈ o.extractor e ∧ e ∈ l := by
  constructor
  · rintro ⟨li, rfl, hmem⟩
    have hpos : 0 < o.registrations.count (obs, li) := List.count_pos_iff.mpr hmem
    have hentry : ∃ el, o.get li.element = some el ∧ el.listener = li := by
      by_contra hno
      have := hc.others obs li (fun el hel heq => hno ⟨el, hel, heq⟩)
      omega
    obtain ⟨el, hel, rfl⟩ := hentry
    obtain ⟨hn, -, -, hl⟩ := hc.entry _ el hel
    rw [hc.attached _ el obs hel (fun h => h)] at hpos
    exact ⟨hn, List.count_pos_iff.mp hpos, hl⟩
  · rintro ⟨hn, hobs, hl⟩
    obtain ⟨el, hel⟩ := hc.present e hn hl
    refine ⟨el.listener, (hc.entry e el hel).2.1, List.count_pos_iff.mp ?_⟩
    rw [hc.attached e el obs hel (fun h => h)]
    exact List.count_pos_iff.mpr hobs

/-- **A list with an extractor observes its elements**, in every state of a run whose
calls are all safe. -/
theorem safeRun_observes (extractor : E → List Obs) (isNull : E → Bool)
    (w : ObservableListWrapper E Obs) (h : SafeRun extractor isNull w) :
    Observes extractor isNull w := by
  obtain ⟨hidle, ⟨o, ho, hx, hn, hc⟩, -⟩ := h.alert
  have hiff := registered_iff hc
  rw [hx, hn] at hiff
  refine ⟨⟨o, ho, hiff⟩, fun obs hl => ?_⟩
  obtain ⟨changes, hrun, hu⟩ := invalidate_reports ho hidle obs
  refine ⟨changes, hrun, (hu hl).updates, fun i => ?_⟩
  rw [(hu hl).covers i]
  constructor
  · rintro ⟨n, hi, li, hreg, hn'⟩
    obtain ⟨hnull, hobs, -⟩ := (hiff li.element obs).mp ⟨li, rfl, hreg⟩
    exact ⟨n, hi, li.element, hn', hnull, hobs⟩
  · rintro ⟨n, hi, e, hn', hnull, hobs⟩
    obtain ⟨li, rfl, hreg⟩ := (hiff e obs).mpr ⟨hnull, hobs, mem_of_getElem? hn'⟩
    exact ⟨n, hi, li, hreg, hn'⟩

theorem safeRun_observes_instance :
    let w : ObservableListWrapper Nat Nat := create (fun e => [e]) (· == 0) [7, 5, 7]
    let w' := ((ListCall.removeRange 0 3).run ((ListCall.removeAt 1).run ((ListCall.add 7).run w).2).2).2
    w'.backingList = [] ∧ Observes (fun e => [e]) (· == 0) w' :=
  ⟨by decide +kernel, safeRun_observes _ _ _ ((((SafeRun.create [7, 5, 7]).call (.add 7)
    (by decide +kernel) (by decide +kernel)).call (.removeAt 1) (by decide +kernel)
    (by decide +kernel)).call (.removeRange 0 3) (by decide +kernel) (by decide +kernel))⟩

/-- A list that holds an element twice loses the listener with the first occurrence. -/
theorem duplicate_unobserved :
    let w : ObservableListWrapper Nat Nat := create (fun e => [e]) (· == 0) [7, 7]
    let w' := ((ListCall.removeAt 0).run w).2
    ((ListCall.removeAt 0).run w).1 = .ok () ∧ w'.backingList = [7] ∧ ¬ Observes (fun e => [e]) (· == 0) w' := by
  refine ⟨by decide +kernel, by decide +kernel, fun h => ?_⟩
  obtain ⟨o, ho, hiff⟩ := h.listens
  obtain ⟨li, -, hreg⟩ := (hiff 7 7).mpr ⟨by decide, by simp, by decide +kernel⟩
  have hnone : (((ListCall.removeAt 0).run (create (fun e : Nat => [e]) (· == 0) [7, 7])).2.elementObserver.map
      (fun o => o.registrations.length)) = some 0 := by decide +kernel
  rw [ho] at hnone
  have hnil : o.registrations = [] := List.length_eq_zero_iff.mp (by simpa using hnone)
  rw [hnil] at hreg
  simp at hreg

end JavaFX.ObservableListWrapper
