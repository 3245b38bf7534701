/-
What the listeners of a wrapper learn of a call, whether it returns or throws.

`Kept` is what every call owes: the lock of the builder is what it was, and if the
call was made outside of any block, the listeners have been told of everything that
happened to the content.  The calls that put their work into `try`/`finally` always
do that, and so do those that change the list before they open a block, as long as
nothing fails between the two.  `leaks` says which failures are not covered.
-/
import JavaFX.Proofs.ObservableListWrapper.Removals
import JavaFX.Proofs.ObservableListWrapper.Reachable

namespace JavaFX.ObservableListWrapper

open Program EditScript ListChangeBuilder IndexTable List

variable {E Obs : Type} [DecidableEq E]

omit [DecidableEq E] in
theorem WellFormed.cases {w : ObservableListWrapper E Obs} (h : WellFormed w) :
    w.changeBuilder = {} ∨ ∃ k, Level (k + 1) w.changeBuilder := by
  rcases Nat.eq_zero_or_pos w.changeBuilder.changeLock with h0 | hpos
  · exact Or.inl (h.idle h0)
  · exact Or.inr ⟨w.changeBuilder.changeLock - 1, by omega, h.plain⟩

/-- What a call owes, whether it returns or throws. -/
def Kept (w w' : ObservableListWrapper E Obs) : Prop :=
  w'.changeBuilder.changeLock = w.changeBuilder.changeLock ∧
    (w.changeBuilder.changeLock = 0 → w.hasListeners = true → Notified w w')

/-- What a call made outside of any block leaves behind. -/
def Settled (w w' : ObservableListWrapper E Obs) : Prop :=
  w'.changeBuilder = {} ∧ Notified w w'

variable {w' w₀ : ObservableListWrapper E Obs} {k n : Nat} {α : Type} {x : Call E Obs α} {b : ListChangeBuilder E}
  {i : Int} {old : E} {l : List E} {c : Collection E} {mark : Bool}

theorem Settled.kept {w : ObservableListWrapper E Obs} (h : Settled w w') (hw : w.changeBuilder = {}) : Kept w w' :=
  ⟨by rw [h.1, hw], fun _ _ => h.2⟩

theorem Within.kept {w : ObservableListWrapper E Obs}
    (hl : Level (k + 1) w.changeBuilder) (h : Within k w w') : Kept w w' :=
  ⟨by rw [h.level.lock, hl.lock], fun h0 => by rw [hl.lock] at h0; omega⟩

theorem not_kept_of_lock {w : ObservableListWrapper E Obs}
    (h : w'.changeBuilder.changeLock = w.changeBuilder.changeLock + 1) : ¬ Kept w w' :=
  fun hk => by have := hk.1; omega

theorem not_kept_of_silent {w : ObservableListWrapper E Obs}
    (h0 : w.changeBuilder.changeLock = 0) (hl : w.hasListeners = true) (hs : w'.fired = w.fired)
    (hne : w'.backingList ≠ w.backingList) : ¬ Kept w w' := by
  rintro ⟨-, hn⟩
  obtain ⟨changes, hfired, -, hsame, -⟩ := hn h0 hl
  rw [hs] at hfired
  have hnil : changes = [] := by simpa using hfired
  exact hne (hsame hnil hl)

/-! ### Blocks of a whole call -/

theorem endChange_settles {w : ObservableListWrapper E Obs} (h : Recording 0 w.backingList w w') :
    ∃ w'', endChange w' = (.ok (), w'') ∧ Settled w w'' := by
  obtain ⟨changes, hend, hlen, hsame, hreplay⟩ := endChange_outer h.pending
  refine ⟨_, hend, rfl, changes, ?_, hlen, ?_, hreplay⟩
  · rw [h.silent.fired]
  · intro hnil hl
    exact hsame hnil (by rw [h.silent.hasListeners, hl])

omit [DecidableEq E] in
theorem recording_begin {w : ObservableListWrapper E Obs} (hw : w.changeBuilder = {}) :
    Recording 0 w.backingList w { w with changeBuilder := w.changeBuilder.beginChange } := by
  refine ⟨?_, rfl, rfl⟩
  rw [hw]
  exact Mirrors.start w.backingList

/-- **A block with a `finally`** owes nothing, whatever happens in it. -/
theorem block_kept {w : ObservableListWrapper E Obs} (hw : WellFormed w) (hx : Keeps (Recording 0 w.backingList w) x)
    (hx' : ∀ k, Keeps (Within (k + 1) w) x) :
    Kept w ((do beginChange; tryFinally x endChange) w).2 := by
  rcases hw.cases with hidle | ⟨k, hl⟩
  · have hrec := hx _ (recording_begin hidle)
    rcases hxs : x { w with changeBuilder := w.changeBuilder.beginChange } with ⟨r, w₁⟩
    rw [hxs] at hrec
    obtain ⟨w₂, hend, hsettled⟩ := endChange_settles hrec
    rw [bind_ok (beginChange_apply w), tryFinally_apply hxs hend]
    exact hsettled.kept hidle
  · exact Within.kept hl (keeps_block (hx' k) w ⟨hl, Silent.refl w⟩)

theorem report_settles {w w₁ : ObservableListWrapper E Obs}
    {f : ListChangeBuilder E → Except JavaException (ListChangeBuilder E)}
    (hs : Silent w w₁) (hf : f w₁.changeBuilder.beginChange = .ok b)
    (hm : Mirrors 0 w.backingList w₁.backingList b) :
    ∃ w', report f w₁ = (.ok (), w') ∧ Settled w w' := by
  have hmirror : mirror f { w₁ with changeBuilder := w₁.changeBuilder.beginChange }
      = (.ok (), { w₁ with changeBuilder := b }) := by simp [mirror, hf]
  have hrec : Recording 0 w.backingList w { w₁ with changeBuilder := b } :=
    ⟨hm, hs.hasListeners, hs.fired⟩
  obtain ⟨w', hend, hsettled⟩ := endChange_settles hrec
  exact ⟨w', by rw [report, bind_ok (beginChange_apply w₁), bind_ok hmirror, hend], hsettled⟩

/-! ### Adding -/

theorem settled_of_same {w : ObservableListWrapper E Obs} (hw : w.changeBuilder = {})
    (hb : w'.changeBuilder = w.changeBuilder) (hs : Silent w w')
    (hlist : w'.backingList = w.backingList) : Settled w w' :=
  ⟨hb.trans hw, notified_of_same hs hlist⟩

theorem addAt_kept {w : ObservableListWrapper E Obs} (hw : WellFormed w) (i : Int) (e : E) :
    Kept w (addAt i e w).2 := by
  rcases hw.cases with hidle | ⟨k, hl⟩
  · refine Settled.kept ?_ hidle
    unfold addAt
    rcases doAdd_cases i e w with ⟨n, rfl, hn, -, hadd⟩ | ⟨ex, hadd, -⟩
    · rw [bind_ok hadd]
      have hm : Mirrors 0 w.backingList (w.backingList.take n ++ w.backingList.drop n)
          (w.changeBuilder.beginChange) := by
        rw [take_append_drop]
        exact (recording_begin hidle).pending
      obtain ⟨b, hb, hm'⟩ := hm.nextAdd [e]
      rw [length_take_of_le hn] at hb
      have hsilent : Silent w ((w.attached e).written (w.backingList.take n ++ e :: w.backingList.drop n)) := ⟨rfl, rfl⟩
      obtain ⟨w', hw', hsettled⟩ := report_settles (f := fun b => b.nextAdd n (n + 1)) hsilent hb hm'
      rw [hw']
      exact hsettled
    · rw [bind_error hadd]
      exact settled_of_same hidle rfl ⟨rfl, rfl⟩ rfl
  · exact Within.kept hl (keeps_addAt i e w ⟨hl, Silent.refl w⟩)

theorem add_kept {w : ObservableListWrapper E Obs} (hw : WellFormed w) (e : E) : Kept w (add e w).2 := by
  unfold add
  rw [bind_ok (read_apply _ w), bind_pure_snd]
  exact addAt_kept hw _ e

theorem addAll_kept {w : ObservableListWrapper E Obs} (hw : WellFormed w) (c : Collection E) :
    Kept w (addAll c w).2 :=
  block_kept hw (keeps_iterate c (fun e => keeps_bind (keeps_recording_add e) (fun _ => keeps_pure ())))
    (fun _ => keeps_iterate c (fun e => keeps_bind (keeps_add e) (fun _ => keeps_pure ())))

theorem addAllAt_kept {w : ObservableListWrapper E Obs} (hw : WellFormed w) (index : Int)
    (c : Collection E) : Kept w (addAllAt index c w).2 :=
  block_kept hw (keeps_addAllAt (fun i e => keeps_recording_addAt i e) index c)
    (fun _ => keeps_addAllAt (fun i e => keeps_addAt i e) index c)

/-! ### Calls that may leak -/

variable [DecidableEq Obs]

/-- The element at the index can be replaced or removed, but not detached: the call
fails when the list has changed already. -/
def undetached (i : Int) (w : ObservableListWrapper E Obs) : Option E :=
  match (if 0 ≤ i then w.backingList[i.toNat]? else none) with
  | some old =>
    if !w.refuses && !(detachAll [old] w.elementObserver).isOk then some old else none
  | none => none

/-- Listeners are there, and it is time to tell them. -/
def exposed (w : ObservableListWrapper E Obs) : Bool :=
  w.changeBuilder.changeLock = 0 && w.hasListeners

/-- `clear` opens its block, and the backing list refuses to be cleared. -/
def clearLeaks (w : ObservableListWrapper E Obs) : Bool :=
  w.hasListeners && (detachAll w.backingList w.elementObserver).isOk && w.refuses

/-- `removeAll` or `retainAll` does not get to the end of its block. -/
def markedLeaks (mark : Bool) (c : Collection E) (w : ObservableListWrapper E Obs) : Bool :=
  match c.size, marked c mark 0 w.backingList with
  | .ok size, .ok bs => size < 0 || !w.removals (bs.reverse.map Int.ofNat)
  | _, _ => true

/-- The sorted elements are written back up to a write that is refused, and one of
them was not there before. -/
def sortLeaks (compare : E → E → Except JavaException Int) (w : ObservableListWrapper E Obs) :
    Bool :=
  match SortHelper.sort compare w.backingList with
  | .ok (sorted, _) =>
    let j := w.faults.findIdx (·.isSome)
    j < w.faults.length && j < w.backingList.length && sorted.take j ≠ w.backingList.take j
  | .error _ => false

/-- `setAll` does not return, or fail, before it does anything. -/
def replaces (col : Collection E) (w : ObservableListWrapper E Obs) : Bool :=
  match w.backingList, col.isEmpty with
  | [], .ok isEmpty => !isEmpty
  | [], .error _ => false
  | _ :: _, _ => true

/-- The call fails at a point where its block stays open, or where the content has
changed and no report is made. -/
def leaks (w : ObservableListWrapper E Obs) : ListCall E → Bool
  | .add _ | .addAt _ _ | .addAll _ | .addAllAt _ _ => false
  | .set i e => w.exposed && (w.undetached i).any (· ≠ e)
  | .setAll col => w.replaces col && w.clearLeaks
  | .remove equals =>
    match indexOf equals w.backingList with
    | .ok i => w.exposed && (w.undetached i).isSome
    | .error _ => false
  | .removeAt i => w.exposed && (w.undetached i).isSome
  | .removeRange lo hi => !w.removals (List.replicate (hi - lo).toNat lo)
  | .removeAll c => w.markedLeaks true c
  | .retainAll c => w.markedLeaks false c
  | .clear => w.clearLeaks
  | .sort compare => w.exposed && w.sortLeaks compare

/-- The verdict on a call: it keeps what it owes, or it fails and does not. -/
def Judged {α : Type} (leak : Bool) (x : Call E Obs α) (w : ObservableListWrapper E Obs) : Prop :=
  (leak = false ∧ Kept w (x w).2) ∨ (leak = true ∧ (∃ ex, (x w).1 = .error ex) ∧ ¬ Kept w (x w).2)

omit [DecidableEq Obs] in
theorem Judged.discard {β : Type} {leak : Bool} {w : ObservableListWrapper E Obs} (h : Judged leak x w) (g : α → β) :
    Judged leak (x >>= fun a => pure (g a)) w := by
  unfold Judged
  rw [bind_pure_snd]
  rcases h with h | ⟨hleak, ⟨ex, hex⟩, hk⟩
  · exact Or.inl h
  · exact Or.inr ⟨hleak, ⟨ex, bind_pure_error g hex⟩, hk⟩

/-! ### Replacing and removing one element -/

variable {ex : JavaException} {bs : List Nat} {d : Nat}

theorem undetached_error {w : ObservableListWrapper E Obs} (hat : At i n old w.backingList) (hr : w.refuses = false)
    (ho : detachAll [old] w.elementObserver = .error ex) : w.undetached i = some old := by
  unfold undetached
  rw [hat.lookup.1]
  simp [hr, ho, Except.toBool]

theorem undetached_ok {o : Option (ElementObserver E Obs)}
    {w : ObservableListWrapper E Obs} (hat : At i n old w.backingList)
    (ho : detachAll [old] w.elementObserver = .ok o) : w.undetached i = none := by
  unfold undetached
  rw [hat.lookup.1]
  simp [ho, Except.toBool]

theorem undetached_stuck {w : ObservableListWrapper E Obs}
    (h : w.refuses = true ∨ (if 0 ≤ i then w.backingList[i.toNat]? else none) = none) :
    w.undetached i = none := by
  unfold undetached
  rcases h with h | h
  · cases (if 0 ≤ i then w.backingList[i.toNat]? else none) with
    | none => rfl
    | some old => simp [h]
  · rw [h]

omit [DecidableEq E] in
theorem eraseIdx_ne (hat : At i n old l) : l.eraseIdx n ≠ l := by
  intro h
  have hn := (List.getElem?_eq_some_iff.mp hat.2).1
  have := congrArg length h
  rw [length_eraseIdx_of_lt hn] at this
  omega

omit [DecidableEq E] [DecidableEq Obs] in
theorem idle_nextRemove {w : ObservableListWrapper E Obs} (hidle : w.changeBuilder = {})
    {x : E} (hx : w.backingList[n]? = some x) :
    ∃ b, w.changeBuilder.beginChange.nextRemove n x = .ok b ∧
      Mirrors 0 w.backingList (w.backingList.take n ++ w.backingList.drop (n + 1)) b := by
  have hi : n < w.backingList.length := (List.getElem?_eq_some_iff.mp hx).1
  have hlen : (w.backingList.take n).length = n := length_take_of_le (by omega)
  have hcut : w.backingList = w.backingList.take n ++ x :: w.backingList.drop (n + 1) := by
    rw [← (List.getElem?_eq_some_iff.mp hx).2, ← drop_eq_getElem_cons hi, take_append_drop]
  have hm : Mirrors 0 w.backingList (w.backingList.take n ++ x :: w.backingList.drop (n + 1))
      w.changeBuilder.beginChange := by
    rw [← hcut]
    exact (recording_begin hidle).pending
  have hb := hm.nextRemove (by rw [hidle]; rfl)
  rwa [hlen] at hb

omit [DecidableEq Obs] in
theorem unreported {w : ObservableListWrapper E Obs} (hidle : w.changeBuilder = {}) (hx : x w = (.error ex, w'))
    (hb : w'.changeBuilder = w.changeBuilder) (hs : Silent w w')
    (hne : w'.backingList ≠ w.backingList) : Judged w.exposed x w := by
  have h0 : w.changeBuilder.changeLock = 0 := by rw [hidle]
  unfold Judged exposed
  rw [hx]
  cases hl : w.hasListeners with
  | true => exact Or.inr ⟨by simp [h0], ⟨ex, rfl⟩, not_kept_of_silent h0 hl hs.fired hne⟩
  | false => exact Or.inl ⟨by simp, by rw [hb], fun _ h => by rw [hl] at h; simp at h⟩

theorem removeAt_judged {w : ObservableListWrapper E Obs} (hw : WellFormed w) (i : Int) :
    Judged (w.exposed && (w.undetached i).isSome) (removeAt i) w := by
  rcases hw.cases with hidle | ⟨k, hl⟩
  · rcases doRemove_cases i w with ⟨n, old, hat, hr, hcase⟩ | ⟨ex, hrem, hwhy⟩
    · rcases hcase with ⟨o, ho, hrem⟩ | ⟨ex, ho, hrem⟩
      · refine Or.inl ⟨by simp [undetached_ok hat ho], Settled.kept ?_ hidle⟩
        obtain ⟨rfl, hx⟩ := hat
        obtain ⟨b, hb, hm⟩ := idle_nextRemove hidle hx
        rw [← eraseIdx_eq_take_drop_succ] at hm
        have hsilent : Silent w { w.written (w.backingList.eraseIdx n) with elementObserver := o } :=
          ⟨rfl, rfl⟩
        obtain ⟨w', hw', hsettled⟩ := report_settles hsilent hb hm
        rw [removeAt, bind_ok hrem, bind_ok hw']
        exact hsettled
      · rw [undetached_error hat hr ho, Option.isSome_some, Bool.and_true]
        have hfail : removeAt i w = (.error ex, w.written (w.backingList.eraseIdx n)) := by
          rw [removeAt, bind_error hrem]
        exact unreported hidle hfail rfl ⟨rfl, rfl⟩ (eraseIdx_ne hat)
    · refine Or.inl ⟨by simp [undetached_stuck hwhy], Settled.kept ?_ hidle⟩
      rw [removeAt, bind_error hrem]
      exact settled_of_same hidle rfl ⟨rfl, rfl⟩ rfl
  · refine Or.inl ⟨?_, Within.kept hl (keeps_removeAt i w ⟨hl, Silent.refl w⟩)⟩
    simp [exposed, hl.lock]

theorem set_judged {w : ObservableListWrapper E Obs} (hw : WellFormed w) (i : Int) (e : E) :
    Judged (w.exposed && (w.undetached i).any (· ≠ e)) (set i e) w := by
  rcases hw.cases with hidle | ⟨k, hl⟩
  · rcases doSet_cases i e w with ⟨n, old, hat, hr, hcase⟩ | ⟨ex, hset, hwhy⟩
    · rcases hcase with ⟨o, ho, hset⟩ | ⟨ex, ho, hset⟩
      · refine Or.inl ⟨by simp [undetached_ok hat ho], Settled.kept ?_ hidle⟩
        obtain ⟨rfl, hx⟩ := hat
        have hi : n < w.backingList.length := (List.getElem?_eq_some_iff.mp hx).1
        obtain ⟨b₁, hb₁, hm₁⟩ := idle_nextRemove hidle hx
        obtain ⟨b₂, hb₂, hm₂⟩ := hm₁.nextAdd [e]
        rw [length_take_of_le (by omega)] at hb₂
        have hlist : w.backingList.take n ++ ([e] ++ w.backingList.drop (n + 1)) = w.backingList.set n e := by
          rw [set_eq_take_append_cons_drop, if_pos hi]
          rfl
        rw [hlist] at hm₂
        have hb : w.changeBuilder.beginChange.nextSet n old = .ok b₂ := by
          rw [ListChangeBuilder.nextSet, hb₁]
          exact hb₂
        have hsilent : Silent w ({ w.written (w.backingList.set n e) with
            elementObserver := o }.attached e) := ⟨rfl, rfl⟩
        obtain ⟨w', hw', hsettled⟩ := report_settles hsilent hb hm₂
        rw [set, bind_ok hset, bind_ok hw']
        exact hsettled
      · rw [undetached_error hat hr ho]
        have hfail : set i e w = (.error ex, w.written (w.backingList.set n e)) := by
          rw [set, bind_error hset]
        by_cases hsame : old = e
        · refine Or.inl ⟨by simp [hsame], ?_⟩
          obtain ⟨hi, hx⟩ := List.getElem?_eq_some_iff.mp hat.2
          have hlist : (w.written (w.backingList.set n e)).backingList = w.backingList := by
            show w.backingList.set n e = w.backingList
            rw [← hsame, ← hx, set_getElem_self]
          rw [hfail]
          exact Settled.kept (settled_of_same hidle rfl ⟨rfl, rfl⟩ hlist) hidle
        · rw [show (some old).any (· ≠ e) = true by simp [hsame], Bool.and_true]
          refine unreported hidle hfail rfl ⟨rfl, rfl⟩ fun h => hsame ?_
          have h1 : (w.backingList.set n e)[n]? = some old := by
            rw [show w.backingList.set n e = w.backingList from h]; exact hat.2
          have hi : n < w.backingList.length := (List.getElem?_eq_some_iff.mp hat.2).1
          rw [getElem?_set_self hi] at h1
          simpa using h1.symm
    · refine Or.inl ⟨by simp [undetached_stuck hwhy], Settled.kept ?_ hidle⟩
      rw [set, bind_error hset]
      exact settled_of_same hidle rfl ⟨rfl, rfl⟩ rfl
  · refine Or.inl ⟨?_, Within.kept hl (keeps_set i e w ⟨hl, Silent.refl w⟩)⟩
    simp [exposed, hl.lock]

omit [DecidableEq Obs] in
theorem kept_refl (w : ObservableListWrapper E Obs) : Kept w w :=
  ⟨rfl, fun _ _ => notified_of_same (Silent.refl w) rfl⟩

theorem remove_judged {w : ObservableListWrapper E Obs} (hw : WellFormed w) (equals : E → Except JavaException Bool) :
    Judged (w.leaks (.remove equals)) (remove equals) w := by
  cases hi : indexOf equals w.backingList with
  | error ex =>
    have hrun : remove equals w = (.error ex, w) := by
      show (lift (indexOf equals w.backingList) >>= _) w = _
      rw [hi]
      rfl
    exact Or.inl ⟨by simp [leaks, hi], by rw [hrun]; exact kept_refl w⟩
  | ok i =>
    have hleak : w.leaks (.remove equals) = (w.exposed && (w.undetached i).isSome) := by
      simp only [leaks, hi]
    have hrun : remove equals w = (if i ≠ -1 then do
        let _ ← removeAt i
        return true
      else return false : Call E Obs Bool) w := by
      show (lift (indexOf equals w.backingList) >>= _) w = _
      rw [hi]
      rfl
    unfold Judged
    rw [hleak, hrun]
    by_cases hneg : i = -1
    · rw [if_neg (by simp [hneg])]
      exact Or.inl ⟨by simp [undetached, hneg], kept_refl w⟩
    · rw [if_pos hneg]
      exact (removeAt_judged hw i).discard (fun _ => true)

/-! ### Removing many elements -/

/-- The removals of a bulk call, and the end of its block, after its beginning. -/
theorem removeEach_judged {w : ObservableListWrapper E Obs} (hw : WellFormed w) {is : List Int}
    (htame : Tame is ([] : List (SubChange E))) :
    (w.removals is = true ∧ ∃ w', (do removeEach is; endChange)
        { w with changeBuilder := w.changeBuilder.beginChange } = (.ok (), w') ∧ Kept w w') ∨
    (w.removals is = false ∧ ∃ ex w', (do removeEach is; endChange)
        { w with changeBuilder := w.changeBuilder.beginChange } = (.error ex, w') ∧ ¬ Kept w w') := by
  have hlevel : Level (w.changeBuilder.changeLock + 1) w.changeBuilder.beginChange :=
    ⟨rfl, hw.plain⟩
  rcases removeEach_cases is { w with changeBuilder := w.changeBuilder.beginChange } hlevel with
    ⟨hyes, w₁, hw₁, hl₁, hsil, -, hpend⟩ | ⟨hno, ex, w₁, hw₁, hl₁, hsil⟩
  · refine Or.inl ⟨hyes, ?_⟩
    rw [bind_ok hw₁]
    rcases hw.cases with hidle | ⟨k, hl⟩
    · have hrec : Recording 0 w.backingList w w₁ := by
        refine ⟨hpend 0 w.backingList (recording_begin hidle).pending ?_, hsil.hasListeners, hsil.fired⟩
        rw [hidle]
        exact htame
      obtain ⟨w₂, hend, hsettled⟩ := endChange_settles hrec
      exact ⟨w₂, hend, hsettled.kept hidle⟩
    · have hin : Within (k + 1) w w₁ := by
        refine ⟨?_, hsil.hasListeners, hsil.fired⟩
        rw [hl.lock] at hl₁
        exact hl₁
      obtain ⟨hend, hwithin⟩ := within_end hin
      exact ⟨_, hend, Within.kept hl hwithin⟩
  · exact Or.inr ⟨hno, ex, w₁, bind_error hw₁, not_kept_of_lock hl₁.lock⟩

omit [DecidableEq E] in
theorem removeTimes_eq [DecidableEq E] (i : Int) : ∀ n,
    (removeTimes i n : Call E Obs Unit) = removeEach (replicate n i) := by
  intro n
  induction n with
  | zero => rfl
  | succ n ih =>
    show (removeAt i >>= fun _ => removeTimes i n)
      = (removeAt i >>= fun _ => pure ()) >>= fun _ => removeEach (replicate n i)
    rw [seq_assoc, ih]
    rfl

theorem removeRange_judged {w : ObservableListWrapper E Obs} (hw : WellFormed w) (lo hi : Int) :
    Judged (!w.removals (replicate (hi - lo).toNat lo)) (removeRange lo hi) w := by
  unfold Judged removeRange
  rw [bind_ok (beginChange_apply w), removeTimes_eq]
  rcases removeEach_judged hw (tame_replicate (hi - lo).toNat (onlyAt_nil lo)) with
    ⟨hyes, w', hrun, hk⟩ | ⟨hno, ex, w', hrun, hk⟩
  · exact Or.inl ⟨by rw [hyes]; rfl, by rw [hrun]; exact hk⟩
  · exact Or.inr ⟨by rw [hno]; rfl, ⟨ex, by rw [hrun]⟩, by rw [hrun]; exact hk⟩

omit [DecidableEq E] in
theorem marked_ascending : ∀ (l : List E) (i : Nat) {bs : List Nat},
    marked c mark i l = .ok bs → bs.Pairwise (· < ·) ∧ ∀ j ∈ bs, i ≤ j := by
  intro l
  induction l with
  | nil =>
    intro i bs h
    obtain rfl : [] = bs := Except.ok.inj h
    simp
  | cons e l ih =>
    intro i bs h
    unfold marked at h
    cases hc : c.contains i e with
    | error ex => rw [hc] at h; simp [bind, Except.bind] at h
    | ok found =>
      cases hm : marked c mark (i + 1) l with
      | error ex => rw [hc, hm] at h; simp [bind, Except.bind] at h
      | ok rest =>
        obtain ⟨hasc, hge⟩ := ih (i + 1) hm
        rw [hc, hm] at h
        have h' : (if found = mark then i :: rest else rest) = bs := Except.ok.inj h
        by_cases hf : found = mark
        · rw [if_pos hf] at h'
          subst h'
          refine ⟨List.pairwise_cons.mpr ⟨fun j hj => ?_, hasc⟩, fun j hj => ?_⟩
          · have := hge j hj
            omega
          · rcases List.mem_cons.mp hj with rfl | hj
            · exact Nat.le_refl _
            · have := hge j hj
              omega
        · rw [if_neg hf] at h'
          subst h'
          exact ⟨hasc, fun j hj => by have := hge j hj; omega⟩

omit [DecidableEq E] in
theorem tame_marked (h : marked c mark 0 l = .ok bs) : Tame (bs.reverse.map Int.ofNat) ([] : List (SubChange E)) := by
  refine tame_descending _ ?_ (fun i _ => behind_nil (i + 1))
  rw [pairwise_map, pairwise_reverse]
  refine (marked_ascending l 0 h).1.imp ?_
  intro i j hij
  simpa using hij

theorem forEach_natCast : ∀ (bs : List Nat), (forEach (fun i : Nat => do let _ ← removeAt i) bs : Call E Obs Unit)
      = removeEach (bs.map Int.ofNat) := by
  intro bs
  induction bs with
  | nil => rfl
  | cons i bs ih =>
    rw [forEach, ih]
    rfl

theorem removeMarked_apply {w : ObservableListWrapper E Obs}
    {size : Int} (hsize : c.size = .ok size) (hneg : ¬ size < 0)
    (hm : marked c mark 0 w.backingList = .ok bs) :
    removeMarked mark c w = ((removeEach (bs.reverse.map Int.ofNat) >>= fun _ => endChange)
      >>= fun _ => pure (!bs.isEmpty)) { w with changeBuilder := w.changeBuilder.beginChange } := by
  unfold removeMarked
  rw [hsize]
  show (if size < 0 then throw .negativeArraySize else _ : Call E Obs Bool) _ = _
  rw [if_neg hneg]
  show (lift (marked c mark 0 w.backingList) >>= _) _ = _
  rw [hm, seq_assoc, ← forEach_natCast]
  rfl

theorem removeMarked_judged {w : ObservableListWrapper E Obs} (hw : WellFormed w) (mark : Bool)
    (c : Collection E) : Judged (w.markedLeaks mark c) (removeMarked mark c) w := by
  have hfail : ∀ ex, removeMarked mark c w = (.error ex, { w with changeBuilder := w.changeBuilder.beginChange }) →
      w.markedLeaks mark c = true → Judged (w.markedLeaks mark c) (removeMarked mark c) w := by
    intro ex hrun hleak
    refine Or.inr ⟨hleak, ⟨ex, by rw [hrun]⟩, ?_⟩
    rw [hrun]
    exact not_kept_of_lock rfl
  cases hsize : c.size with
  | error ex =>
    refine hfail ex ?_ (by simp [markedLeaks, hsize])
    unfold removeMarked
    rw [hsize]
    rfl
  | ok size =>
    by_cases hneg : size < 0
    · refine hfail .negativeArraySize ?_ ?_
      · unfold removeMarked
        rw [bind_ok (beginChange_apply w), hsize]
        show (if size < 0 then throw .negativeArraySize else _ : Call E Obs Bool) _ = _
        rw [if_pos hneg]
        rfl
      · unfold markedLeaks
        rw [hsize]
        cases marked c mark 0 w.backingList <;> simp [hneg]
    · cases hm : marked c mark 0 w.backingList with
      | error ex =>
        refine hfail ex ?_ (by simp [markedLeaks, hm])
        unfold removeMarked
        rw [hsize]
        show (if size < 0 then throw .negativeArraySize else _ : Call E Obs Bool) _ = _
        rw [if_neg hneg]
        show (lift (marked c mark 0 w.backingList) >>= _) _ = _
        rw [hm]
        rfl
      | ok bs =>
        have hrun := removeMarked_apply hsize hneg hm
        have hleak : w.markedLeaks mark c = !w.removals (bs.reverse.map Int.ofNat) := by
          simp [markedLeaks, hsize, hm, hneg]
        unfold Judged
        rw [hrun, hleak]
        rcases removeEach_judged hw (tame_marked hm) with
          ⟨hyes, w', hdone, hk⟩ | ⟨hno, ex, w', hdone, hk⟩
        · exact Or.inl ⟨by rw [hyes]; rfl, by rw [bind_ok hdone]; exact hk⟩
        · exact Or.inr ⟨by rw [hno]; rfl, ⟨ex, by rw [bind_error hdone]⟩, by rw [bind_error hdone]; exact hk⟩

/-! ### Clearing -/

theorem detachEach_cases : ∀ (es : List E) (w : ObservableListWrapper E Obs),
    (∃ o, detachAll es w.elementObserver = .ok o ∧
      forEach detachListener es w = (.ok (), { w with elementObserver := o })) ∨
    ∃ ex o, detachAll es w.elementObserver = .error ex ∧
      forEach detachListener es w = (.error ex, { w with elementObserver := o }) := by
  intro es
  induction es with
  | nil => intro w; exact Or.inl ⟨w.elementObserver, rfl, rfl⟩
  | cons e es ih =>
    intro w
    have hd := detachListener_apply e w
    rw [detachAll_cons]
    cases ho : detachAll [e] w.elementObserver with
    | error ex =>
      rw [ho] at hd
      exact Or.inr ⟨ex, w.elementObserver, rfl, by rw [forEach, bind_error hd]⟩
    | ok o =>
      rw [ho] at hd
      rcases ih { w with elementObserver := o } with ⟨o', h1, h2⟩ | ⟨ex, o', h1, h2⟩
      · exact Or.inl ⟨o', h1, by rw [forEach, bind_ok hd, h2]⟩
      · exact Or.inr ⟨ex, o', h1, by rw [forEach, bind_ok hd, h2]⟩

omit [DecidableEq E] [DecidableEq Obs] in
theorem backingClear_cases (w : ObservableListWrapper E Obs) :
    (w.refuses = false ∧ backingClear w = (.ok (), w.written [])) ∨
      (w.refuses = true ∧ ∃ ex, backingClear w = (.error ex, w.written w.backingList)) := by
  cases hr : w.refuses with
  | true => exact Or.inr ⟨rfl, write_refused hr _⟩
  | false => exact Or.inl ⟨rfl, write_accepted hr _⟩

omit [DecidableEq E] in
theorem removesSafely_of_onlyAt : ∀ (es : List E) {b : ListChangeBuilder E},
    Level (k + 1) b → OnlyAt i b.addRemoveChanges → removesSafely i es b = true := by
  intro es
  induction es with
  | nil => intro b _ _; rfl
  | cons e es ih =>
    intro b hl h
    obtain ⟨b', hb', hl', hs, -⟩ := hl.nextRemove i e
    rw [removesSafely, h.derails, hb']
    exact ih hl' (h.remove hs)

theorem clear_cases {w : ObservableListWrapper E Obs}
    (hb : w.changeBuilder.beginChange.nextRemoveAll 0 w.backingList = .ok b) :
    (w.clearLeaks = false ∧ ∃ ex w', clear w = (.error ex, w') ∧ Silent w w' ∧
      w'.changeBuilder = w.changeBuilder ∧ w'.backingList = w.backingList ∧
      (w.refuses = true ∨ ∃ ex, detachAll w.backingList w.elementObserver = .error ex)) ∨
    (w.hasListeners = false ∧ w.clearLeaks = false ∧ ∃ w', clear w = (.ok (), w') ∧ Silent w w' ∧
      w'.changeBuilder = w.changeBuilder ∧ w'.backingList = [] ∧
      detachAll w.backingList w.elementObserver = .ok w'.elementObserver) ∨
    (w.clearLeaks = true ∧ ∃ ex w', clear w = (.error ex, w') ∧ Silent w w' ∧ w'.changeBuilder = b) ∨
    (w.hasListeners = true ∧ w.clearLeaks = false ∧ ∃ w', clear w = endChange w' ∧ Silent w w' ∧
      w'.changeBuilder = b ∧ w'.backingList = [] ∧
      detachAll w.backingList w.elementObserver = .ok w'.elementObserver) := by
  rcases detachEach_cases w.backingList w with ⟨o, ho, hd⟩ | ⟨ex, o, ho, hd⟩
  · have hok : (detachAll w.backingList w.elementObserver).isOk = true := by rw [ho]; rfl
    -- The rest of the call, once the elements are detached.
    have hrest : clear w = (do
        if w.hasListeners then
          beginChange
          mirror (·.nextRemoveAll 0 w.backingList)
        backingClear
        if ← read (·.hasListeners) then endChange : Call E Obs Unit)
        { w with elementObserver := o } := by
      unfold clear
      rw [bind_ok (read_apply _ w), bind_ok hd, bind_ok (read_apply _ _)]
    rw [hrest]
    by_cases hl : w.hasListeners = true
    · have hmirror : mirror (·.nextRemoveAll 0 w.backingList)
          { w with elementObserver := o, changeBuilder := w.changeBuilder.beginChange }
          = (.ok (), { w with elementObserver := o, changeBuilder := b }) := by
        simp [mirror, hb]
      rw [if_pos hl, bind_ok (beginChange_apply _), bind_ok hmirror]
      rcases backingClear_cases { w with elementObserver := o, changeBuilder := b } with
        ⟨hr, hc⟩ | ⟨hr, ex, hc⟩
      · have hr' : w.refuses = false := hr
        refine Or.inr (Or.inr (Or.inr ⟨hl, by simp [clearLeaks, hr'],
          { w with elementObserver := o, changeBuilder := b }.written [], ?_, ⟨rfl, rfl⟩, rfl, rfl, ho⟩))
        show (backingClear >>= _) _ = _
        rw [bind_ok hc, bind_ok (read_apply _ _), if_pos]
        exact hl
      · have hr' : w.refuses = true := hr
        exact Or.inr (Or.inr (Or.inl ⟨by simp [clearLeaks, hl, hok, hr'], ex, _, bind_error hc, ⟨rfl, rfl⟩, rfl⟩))
    · have hl' : w.hasListeners = false := by simpa using hl
      have hleak : w.clearLeaks = false := by simp [clearLeaks, hl']
      rw [if_neg hl]
      rcases backingClear_cases { w with elementObserver := o } with ⟨-, hc⟩ | ⟨hr, ex, hc⟩
      · refine Or.inr (Or.inl ⟨hl', hleak, { w with elementObserver := o }.written [], ?_, ⟨rfl, rfl⟩, rfl, rfl, ho⟩)
        show (backingClear >>= _) _ = _
        rw [bind_ok hc, bind_ok (read_apply _ _), if_neg (by exact hl)]
        rfl
      · exact Or.inl ⟨hleak, ex, _, bind_error hc, ⟨rfl, rfl⟩, rfl, rfl, Or.inl hr⟩
  · refine Or.inl ⟨?_, ex, { w with elementObserver := o }, ?_, ⟨rfl, rfl⟩, rfl, rfl, Or.inr ⟨ex, ho⟩⟩
    · have hno : (detachAll w.backingList w.elementObserver).isOk = false := by rw [ho]; rfl
      simp [clearLeaks, hno]
    · unfold clear
      rw [bind_ok (read_apply _ w), bind_error hd]

omit [DecidableEq E] [DecidableEq Obs] in
theorem nextRemoveAll_fresh {old : List E} (hm : Mirrors d old l b) (hnil : b.addRemoveChanges = []) :
    ∃ b', b.nextRemoveAll 0 l = .ok b' ∧ Mirrors d old [] b' := by
  have hm' : Mirrors d old ([] ++ (l ++ [])) b := by simpa using hm
  have hsafe : removesSafely (([] : List E).length : Int) l b = true :=
    removesSafely_of_onlyAt l hm.level (by rw [hnil]; exact onlyAt_nil 0)
  simpa using hm'.nextRemoveAll l hsafe

theorem clear_judged {w : ObservableListWrapper E Obs} (hw : WellFormed w) : Judged w.clearLeaks clear w := by
  obtain ⟨b, hb, hlb⟩ := Level.nextRemoveAll 0 w.backingList (b := w.changeBuilder.beginChange) ⟨rfl, hw.plain⟩
  unfold Judged
  rcases clear_cases hb with ⟨hleak, ex, w', hrun, hs, hsame, hlist, -⟩ |
    ⟨hl, hleak, w', hrun, hs, hsame, hlist, -⟩ | ⟨hleak, ex, w', hrun, hs, hbuilder⟩ |
    ⟨hl, hleak, w', hrun, hs, hbuilder, hlist, -⟩
  · refine Or.inl ⟨hleak, ?_⟩
    rw [hrun]
    exact ⟨by rw [hsame], fun _ _ => notified_of_same hs hlist⟩
  · refine Or.inl ⟨hleak, ?_⟩
    rw [hrun]
    exact ⟨by rw [hsame], fun _ h => by rw [hl] at h; simp at h⟩
  · refine Or.inr ⟨hleak, ⟨ex, by rw [hrun]⟩, ?_⟩
    rw [hrun]
    exact not_kept_of_lock (by rw [hbuilder, hlb.lock])
  · refine Or.inl ⟨hleak, ?_⟩
    rw [hrun]
    rcases hw.cases with hidle | ⟨k, hlv⟩
    · obtain ⟨b', hb', hm⟩ := nextRemoveAll_fresh (recording_begin hidle).pending (by rw [hidle]; rfl)
      have hbb : b' = b := by
        rw [hb] at hb'
        exact (Except.ok.inj hb').symm
      have hrec : Recording 0 w.backingList w w' := by
        refine ⟨?_, hs⟩
        unfold Pending
        rw [hbuilder, hlist, ← hbb]
        exact hm
      obtain ⟨w'', hend, hsettled⟩ := endChange_settles hrec
      rw [hend]
      exact hsettled.kept hidle
    · have hin : Within (k + 1) w w' := by
        refine ⟨?_, hs⟩
        rw [hlv.lock] at hlb
        rw [hbuilder]
        exact hlb
      obtain ⟨hend, hwithin⟩ := within_end hin
      rw [hend]
      exact Within.kept hlv hwithin

/-! ### Replacing everything -/

/-- `clear` at the beginning of a block: the block stays open, or the records account
for a list, the old content if there are listeners. -/
theorem clear_in_fresh_block {w : ObservableListWrapper E Obs} (hidle : w.changeBuilder = {}) :
    (w.clearLeaks = true ∧ ∃ ex w',
      clear { w with changeBuilder := w.changeBuilder.beginChange } = (.error ex, w') ∧
      Within 1 w w') ∨
    (w.clearLeaks = false ∧ ∃ r w' old,
      clear { w with changeBuilder := w.changeBuilder.beginChange } = (r, w') ∧
      Recording 0 old w w' ∧ (w.hasListeners = true → old = w.backingList)) := by
  have hstart := (recording_begin hidle).pending
  have hm := Mirrors.beginChange hstart
  obtain ⟨b, hb, hmb⟩ := nextRemoveAll_fresh hm (by rw [hidle]; rfl)
  rcases clear_cases (w := { w with changeBuilder := w.changeBuilder.beginChange }) hb with
    ⟨hleak, ex, w', hrun, hs, hsame, hlist, -⟩ | ⟨hl, hleak, w', hrun, hs, hsame, hlist, -⟩ |
    ⟨hleak, ex, w', hrun, hs, hbuilder⟩ | ⟨hl, hleak, w', hrun, hs, hbuilder, hlist, -⟩
  · refine Or.inr ⟨hleak, _, w', w.backingList, hrun, ⟨?_, hs.hasListeners, hs.fired⟩, fun _ => rfl⟩
    unfold Pending
    rw [hsame, hlist]
    exact hstart
  · refine Or.inr ⟨hleak, _, w', [], hrun, ⟨?_, hs.hasListeners, hs.fired⟩, fun h => ?_⟩
    · unfold Pending
      rw [hsame, hlist]
      show Mirrors 0 [] [] w.changeBuilder.beginChange
      rw [hidle]
      exact Mirrors.start []
    · rw [show w.hasListeners = false from hl] at h
      simp at h
  · refine Or.inl ⟨hleak, ex, w', hrun, ?_, hs.hasListeners, hs.fired⟩
    rw [hbuilder]
    exact hmb.level
  · have hin : Within 1 w w' := ⟨by rw [hbuilder]; exact hmb.level, hs.hasListeners, hs.fired⟩
    obtain ⟨hend, -⟩ := within_end hin
    refine Or.inr ⟨hleak, _, _, w.backingList, hrun.trans hend, ⟨?_, hs.hasListeners, hs.fired⟩, fun _ => rfl⟩
    show Mirrors 0 w.backingList w'.backingList w'.changeBuilder.unlock
    rw [hbuilder, hlist]
    exact hmb.unlock

theorem clear_in_block {w : ObservableListWrapper E Obs} (h : Within k w₀ w) :
    (w.clearLeaks = true ∧ ∃ ex w', clear w = (.error ex, w') ∧ Within (k + 1) w₀ w') ∨
    (w.clearLeaks = false ∧ Within k w₀ (clear w).2) := by
  obtain ⟨b, hb, hlb⟩ := Level.nextRemoveAll 0 w.backingList h.level.beginChange
  rcases clear_cases hb with ⟨hleak, ex, w', hrun, hs, hsame, hlist, -⟩ |
    ⟨hl, hleak, w', hrun, hs, hsame, hlist, -⟩ | ⟨hleak, ex, w', hrun, hs, hbuilder⟩ |
    ⟨hl, hleak, w', hrun, hs, hbuilder, hlist, -⟩
  · exact Or.inr ⟨hleak, by rw [hrun]; exact ⟨by rw [hsame]; exact h.level, h.silent.trans hs⟩⟩
  · exact Or.inr ⟨hleak, by rw [hrun]; exact ⟨by rw [hsame]; exact h.level, h.silent.trans hs⟩⟩
  · exact Or.inl ⟨hleak, ex, w', hrun, by rw [hbuilder]; exact hlb, h.silent.trans hs⟩
  · have hin : Within (k + 1) w₀ w' := ⟨by rw [hbuilder]; exact hlb, h.silent.trans hs⟩
    obtain ⟨hend, hwithin⟩ := within_end hin
    exact Or.inr ⟨hleak, by rw [hrun, hend]; exact hwithin⟩

omit [DecidableEq Obs] in
theorem keeps_addAll_recording {old : List E} (c : Collection E) : Keeps (Recording d old w₀) (addAll c) := by
  intro w h
  have hbody : Keeps (Recording (d + 1) old w₀) (iterate c (fun e => do let _ ← add e)) :=
    keeps_iterate c (fun e => keeps_bind (keeps_recording_add e) (fun _ => keeps_pure ()))
  have hbegin : Recording (d + 1) old w₀ { w with changeBuilder := w.changeBuilder.beginChange } :=
    ⟨Mirrors.beginChange h.pending, h.silent.hasListeners, h.silent.fired⟩
  have hrec := hbody _ hbegin
  unfold addAll
  rw [bind_ok (beginChange_apply w)]
  rcases hx : iterate c (fun e => do let _ ← add e) { w with changeBuilder := w.changeBuilder.beginChange } with ⟨r, w₁⟩
  rw [hx] at hrec
  have hend := endChange_unlock (Mirrors.level hrec.pending)
  rw [tryFinally_apply hx hend]
  exact ⟨Mirrors.unlock hrec.pending, hrec.silent.hasListeners, hrec.silent.fired⟩

omit [DecidableEq Obs] in
theorem keeps_addAll_within (c : Collection E) : Keeps (Within k w₀) (addAll c) :=
  keeps_block (keeps_iterate c (fun e => keeps_bind (keeps_add e) (fun _ => keeps_pure ())))

/-- What `setAll` does once it does anything. -/
abbrev replaceAll (col : Collection E) : Call E Obs Bool := do
  beginChange
  tryFinally (do
      clear
      let _ ← addAll col
      return true)
    endChange

theorem setAll_cases (w : ObservableListWrapper E Obs) (col : Collection E) :
    (w.replaces col = false ∧ ∃ r, setAll col w = (r, w)) ∨
      (w.replaces col = true ∧ setAll col w = replaceAll col w) := by
  -- What the call makes of the answer to whether there is anything to do.
  have hrun : ∀ stop : Except JavaException Bool,
      (if w.backingList.isEmpty then lift col.isEmpty else return false : Call E Obs Bool) w = (stop, w) →
      setAll col w = match stop with
        | .ok true => (.ok false, w)
        | .ok false => replaceAll col w
        | .error ex => (.error ex, w) := by
    intro stop h
    unfold setAll
    rw [bind_ok (read_apply _ w)]
    cases stop with
    | error ex => rw [bind_error h]
    | ok b =>
      rw [bind_ok h]
      cases b <;> rfl
  cases hl : w.backingList with
  | cons x xs => exact Or.inr ⟨by simp [replaces, hl], hrun (.ok false) (by rw [hl]; rfl)⟩
  | nil =>
    cases he : col.isEmpty with
    | error ex => exact Or.inl ⟨by simp [replaces, hl, he], _, hrun (.error ex) (by rw [hl, he]; rfl)⟩
    | ok b =>
      have h := hrun (.ok b) (by rw [hl, he]; rfl)
      cases b with
      | true => exact Or.inl ⟨by simp [replaces, hl, he], _, h⟩
      | false => exact Or.inr ⟨by simp [replaces, hl, he], h⟩

theorem setAll_body_judged {w : ObservableListWrapper E Obs} (hw : WellFormed w) (col : Collection E) :
    Judged w.clearLeaks (replaceAll col) w := by
  have hrest : ∀ {Inv : ObservableListWrapper E Obs → Prop}, Keeps Inv (addAll col) →
      Keeps Inv (do let _ ← addAll col; return true : Call E Obs Bool) :=
    fun h => keeps_bind h (fun _ => keeps_pure true)
  unfold Judged replaceAll
  rw [bind_ok (beginChange_apply w)]
  rcases hw.cases with hidle | ⟨k, hl⟩
  · rcases clear_in_fresh_block hidle with ⟨hleak, ex, w', hrun, hin⟩ | ⟨hleak, r, w', old, hrun, hrec, hold⟩
    · obtain ⟨hend, hwithin⟩ := within_end hin
      rw [tryFinally_apply (bind_error hrun) hend]
      refine Or.inr ⟨hleak, ⟨ex, rfl⟩, not_kept_of_lock ?_⟩
      rw [hwithin.level.lock, hidle]
    · refine Or.inl ⟨hleak, ?_⟩
      have hbody : Recording 0 old w ((do
          clear
          let _ ← addAll col
          return true : Call E Obs Bool) { w with changeBuilder := w.changeBuilder.beginChange }).2 := by
        cases r with
        | error ex => rw [bind_error hrun]; exact hrec
        | ok u => rw [bind_ok hrun]; exact hrest (keeps_addAll_recording col) w' hrec
      rcases hx : (do
          clear
          let _ ← addAll col
          return true : Call E Obs Bool) { w with changeBuilder := w.changeBuilder.beginChange }
        with ⟨r', w₂⟩
      rw [hx] at hbody
      obtain ⟨changes, hend, hlen, hsame, hreplay⟩ := endChange_outer hbody.pending
      rw [tryFinally_apply hx hend]
      refine ⟨by rw [hidle], fun _ hlis => ⟨changes, ?_, hlen, ?_, ?_⟩⟩
      · show w₂.fired ++ changes = _
        rw [hbody.silent.fired]
      · intro hnil _
        rw [← hold hlis]
        exact hsame hnil (by rw [hbody.silent.hasListeners, hlis])
      · rw [← hold hlis]
        exact hreplay
  · have hbegin := within_begin ⟨hl, Silent.refl w⟩
    rcases clear_in_block hbegin with ⟨hleak, ex, w', hrun, hin⟩ | ⟨hleak, hin⟩
    · obtain ⟨hend, hwithin⟩ := within_end hin
      rw [tryFinally_apply (bind_error hrun) hend]
      refine Or.inr ⟨hleak, ⟨ex, rfl⟩, not_kept_of_lock ?_⟩
      rw [hwithin.level.lock, hl.lock]
    · refine Or.inl ⟨hleak, ?_⟩
      rcases hc : clear { w with changeBuilder := w.changeBuilder.beginChange } with ⟨r, w₁⟩
      rw [hc] at hin
      have hbody : Within (k + 1) w ((do
          clear
          let _ ← addAll col
          return true : Call E Obs Bool) { w with changeBuilder := w.changeBuilder.beginChange }).2 := by
        cases r with
        | error ex => rw [bind_error hc]; exact hin
        | ok u => rw [bind_ok hc]; exact hrest (keeps_addAll_within col) w₁ hin
      rcases hx : (do
          clear
          let _ ← addAll col
          return true : Call E Obs Bool) { w with changeBuilder := w.changeBuilder.beginChange }
        with ⟨r', w₂⟩
      rw [hx] at hbody
      obtain ⟨hend, hwithin⟩ := within_end hbody
      rw [tryFinally_apply hx hend]
      exact Within.kept hl hwithin

theorem setAll_judged {w : ObservableListWrapper E Obs} (hw : WellFormed w) (col : Collection E) :
    Judged (w.replaces col && w.clearLeaks) (setAll col) w := by
  rcases setAll_cases w col with ⟨hno, r, hrun⟩ | ⟨hyes, hrun⟩
  · exact Or.inl ⟨by rw [hno]; rfl, by rw [hrun]; exact kept_refl w⟩
  · unfold Judged
    rw [hrun, hyes]
    exact setAll_body_judged hw col

/-! ### Sorting -/

omit [DecidableEq E] [DecidableEq Obs] in
theorem writeBack_cases : ∀ (es pre rest : List E) (w : ObservableListWrapper E Obs),
    w.backingList = pre ++ rest → rest.length = es.length →
    (¬ (w.faults.findIdx (·.isSome) < w.faults.length ∧ w.faults.findIdx (·.isSome) < es.length) ∧
      ∃ w', writeBack pre.length es w = (.ok (), w') ∧ Silent w w' ∧
        w'.changeBuilder = w.changeBuilder ∧ w'.backingList = pre ++ es) ∨
    ((w.faults.findIdx (·.isSome) < w.faults.length ∧ w.faults.findIdx (·.isSome) < es.length) ∧
      ∃ ex w', writeBack pre.length es w = (.error ex, w') ∧ Silent w w' ∧ w'.changeBuilder = w.changeBuilder ∧
        w'.backingList = pre ++ (es.take (w.faults.findIdx (·.isSome))
          ++ rest.drop (w.faults.findIdx (·.isSome)))) := by
  intro es
  induction es with
  | nil =>
    intro pre rest w hw hlen
    obtain rfl : rest = [] := List.length_eq_zero_iff.mp hlen
    exact Or.inl ⟨by simp, w, rfl, Silent.refl w, rfl, by simpa using hw⟩
  | cons e es ih =>
    intro pre rest w hw hlen
    cases rest with
    | nil => simp at hlen
    | cons x rest =>
      have hget : w.backingList[pre.length]? = some x := by rw [hw]; simp
      have hpos : (if (0 : Int) ≤ (pre.length : Int) then
          w.backingList[(pre.length : Int).toNat]? else none) = some x := by simp [hget]
      rcases backing_cases (fun n l => l.set n e) (pre.length : Int) w (x := backingSet pre.length e) rfl with
        ⟨n, old, ⟨hn, hx⟩, hr, hset⟩ | ⟨ex, hset, hwhy⟩
      · obtain rfl : pre.length = n := Int.natCast_inj.mp hn
        -- An accepted write moves the first refusal one step nearer.
        have hfaults : w.faults = [] ∨ ∃ tail, w.faults = none :: tail := by
          unfold refuses at hr
          cases hf : w.faults with
          | nil => exact Or.inl rfl
          | cons f tail =>
            cases f with
            | none => exact Or.inr ⟨tail, rfl⟩
            | some ex => rw [hf] at hr; simp at hr
        have hlist : (w.written (w.backingList.set pre.length e)).backingList = (pre ++ [e]) ++ rest := by
          show w.backingList.set pre.length e = _
          rw [hw]
          simp
        have hih := ih (pre ++ [e]) rest (w.written (w.backingList.set pre.length e)) hlist (by simpa using hlen)
        have hrun : writeBack pre.length (e :: es) w
            = writeBack (pre ++ [e]).length es (w.written (w.backingList.set pre.length e)) := by
          rw [writeBack, bind_ok hset]
          simp
        rw [hrun]
        have htail : (w.written (w.backingList.set pre.length e)).faults = w.faults.tail := rfl
        rw [htail] at hih
        rcases hfaults with hf | ⟨tail, hf⟩
        · rw [hf] at hih ⊢
          rcases hih with ⟨-, w', h1, h2, h3, h4⟩ | ⟨⟨h, -⟩, -⟩
          · exact Or.inl ⟨by simp, w', h1, ⟨h2.hasListeners, h2.fired⟩, h3, by simpa using h4⟩
          · simp at h
        · rw [hf] at hih ⊢
          simp only [tail_cons, findIdx_cons, Option.isSome_none, cond_false, length_cons] at hih ⊢
          rcases hih with ⟨hno, w', h1, h2, h3, h4⟩ | ⟨hyes, ex, w', h1, h2, h3, h4⟩
          · exact Or.inl ⟨by omega, w', h1, ⟨h2.hasListeners, h2.fired⟩, h3, by simpa using h4⟩
          · exact Or.inr ⟨by omega, ex, w', h1, ⟨h2.hasListeners, h2.fired⟩, h3, by simpa using h4⟩
      · have hr : w.refuses = true := by
          rcases hwhy with h | h
          · exact h
          · rw [hpos] at h
            simp at h
        obtain ⟨ex', tail, hf⟩ : ∃ ex' tail, w.faults = some ex' :: tail := by
          unfold refuses at hr
          cases hf : w.faults with
          | nil => rw [hf] at hr; simp at hr
          | cons f tail =>
            cases f with
            | none => rw [hf] at hr; simp at hr
            | some ex => exact ⟨ex, tail, rfl⟩
        have hz : w.faults.findIdx (·.isSome) = 0 := by rw [hf]; simp [findIdx_cons]
        rw [hz]
        refine Or.inr ⟨by simp [hf], ex, w.written w.backingList, ?_, ⟨rfl, rfl⟩, rfl, ?_⟩
        · rw [writeBack, bind_error hset]
        · show w.backingList = _
          simp [hw]

omit [DecidableEq Obs] in
/-- A list sorted by its backing list's own writes is told its permutation. -/
theorem sort_reported {w : ObservableListWrapper E Obs} {perm : List Int}
    (hs : Silent w w') (hperm : IsPermutation perm) (hlen : perm.length = w.backingList.length)
    (hne : w.backingList ≠ []) (hlist : w'.backingList = permute perm w.backingList) :
    Notified w (fireChange ⟨w'.backingList, [⟨0, w'.backingList.length, some [], perm, false⟩]⟩ w').2 := by
  unfold fireChange
  rw [modify_apply]
  by_cases hl : w'.hasListeners = true
  · simp only [hl]
    refine ⟨[⟨w'.backingList, [⟨0, w'.backingList.length, some [], perm, false⟩]⟩], ?_, by simp, by simp, ?_⟩
    · simp [hs.fired]
    · intro c hc
      obtain rfl : c = _ := by simpa using hc
      have hlen' : w'.backingList.length = w.backingList.length := by rw [hlist, length_permute]
      rw [hlen', hlist]
      exact replay_permutation hperm hlen hne false (some [])
  · refine ⟨[], ?_, by simp, fun _ h => ?_, by simp⟩
    · simp [hl, hs.fired]
    · rw [hs.hasListeners] at hl
      exact absurd h hl

section
omit [DecidableEq E] [DecidableEq Obs]
variable {w : ObservableListWrapper E Obs} {compare : E → E → Except JavaException Int}

theorem sort_nil (hnil : w.backingList = []) : sort compare w = (.ok (), w) := by
  unfold sort
  rw [bind_ok (read_apply _ w), if_pos (by simp [hnil])]
  rfl

theorem sort_error (hnil : w.backingList ≠ []) {ex : JavaException}
    (h : SortHelper.sort compare w.backingList = .error ex) : sort compare w = (.error ex, w) := by
  unfold sort
  rw [bind_ok (read_apply _ w), if_neg (by simpa using hnil), bind_ok (read_apply _ w), h]
  rfl

theorem sort_ok (hnil : w.backingList ≠ []) {sorted : List E} {perm : List Int}
    (h : SortHelper.sort compare w.backingList = .ok (sorted, perm)) :
    sort compare w = (do
      writeBack 0 sorted
      let list ← read (·.backingList)
      fireChange ⟨list, [⟨0, list.length, some [], perm, false⟩]⟩ : Call E Obs Unit) w := by
  unfold sort
  rw [bind_ok (read_apply _ w), if_neg (by simpa using hnil), bind_ok (read_apply _ w), h]
  rfl

end

omit [DecidableEq Obs] in
theorem sort_judged (w : ObservableListWrapper E Obs) (compare : E → E → Except JavaException Int) :
    Judged (w.exposed && w.sortLeaks compare) (sort compare) w := by
  unfold Judged
  by_cases hnil : w.backingList = []
  · rw [sort_nil hnil]
    refine Or.inl ⟨?_, kept_refl w⟩
    cases h : SortHelper.sort compare w.backingList with
    | ok r =>
      obtain ⟨sorted, perm⟩ := r
      simp only [sortLeaks, h]
      simp [hnil]
    | error ex => simp [sortLeaks, h]
  · have hspec := @SortHelper.sort_spec _ compare w.backingList
    cases h : SortHelper.sort compare w.backingList with
    | error ex =>
      rw [sort_error hnil h]
      exact Or.inl ⟨by simp [sortLeaks, h], kept_refl w⟩
    | ok r =>
      obtain ⟨sorted, perm⟩ := r
      rw [h] at hspec
      obtain ⟨hperm, hlen, hsorted, -⟩ := hspec
      simp only at hperm hlen hsorted
      have hslen : sorted.length = w.backingList.length := by rw [hsorted, length_permute]
      rw [sort_ok hnil h]
      rcases writeBack_cases sorted [] w.backingList w rfl hslen.symm with
        ⟨hno, w', hwb, hs, hb, hlist⟩ | ⟨⟨hf, hj⟩, ex, w', hwb, hs, hb, hlist⟩
      · have hwb' : writeBack 0 sorted w = (.ok (), w') := hwb
        rw [bind_ok hwb', bind_ok (read_apply _ w')]
        refine Or.inl ⟨?_, ?_, fun _ _ => ?_⟩
        · rw [hslen] at hno
          simp only [sortLeaks, h]
          by_cases h1 : w.faults.findIdx (·.isSome) < w.faults.length
          · have h2 : ¬ w.faults.findIdx (·.isSome) < w.backingList.length := fun h2 => hno ⟨h1, h2⟩
            simp [h2]
          · simp [h1]
        · unfold fireChange
          rw [modify_apply]
          split <;> rw [hb]
        · exact sort_reported hs hperm hlen hnil (by rw [hlist, ← hsorted]; rfl)
      · have hwb' : writeBack 0 sorted w = (.error ex, w') := hwb
        rw [bind_error hwb']
        rw [hslen] at hj
        rw [nil_append] at hlist
        have hlist' : w'.backingList = w.backingList ↔ sorted.take (w.faults.findIdx (·.isSome))
              = w.backingList.take (w.faults.findIdx (·.isSome)) := by
          rw [hlist]
          constructor
          · intro heq
            have := congrArg (take (w.faults.findIdx (·.isSome))) heq
            rwa [take_left' (length_take_of_le (by omega))] at this
          · intro heq
            rw [heq, take_append_drop]
        by_cases hsame : sorted.take (w.faults.findIdx (·.isSome)) = w.backingList.take (w.faults.findIdx (·.isSome))
        · exact Or.inl ⟨by simp [sortLeaks, h, hsame], by rw [hb], fun _ _ => notified_of_same hs (hlist'.mpr hsame)⟩
        · have hleak : w.sortLeaks compare = true := by simp [sortLeaks, h, hf, hj, hsame]
          rw [hleak]
          unfold exposed
          by_cases h0 : w.changeBuilder.changeLock = 0
          · by_cases hl : w.hasListeners = true
            · exact Or.inr ⟨by simp [h0, hl], ⟨ex, rfl⟩,
                not_kept_of_silent h0 hl hs.fired (fun heq => hsame (hlist'.mp heq))⟩
            · exact Or.inl ⟨by simp [hl], by rw [hb], fun _ h => absurd h hl⟩
          · exact Or.inl ⟨by simp [h0], by rw [hb], fun h => absurd h h0⟩

/-! ### All the calls -/

theorem run_judged {w : ObservableListWrapper E Obs} (hw : WellFormed w) (c : ListCall E) :
    Judged (w.leaks c) (c.run : Call E Obs Unit) w := by
  cases c with
  | add e => exact Judged.discard (Or.inl ⟨rfl, add_kept hw e⟩) _
  | addAt i e => exact Or.inl ⟨rfl, addAt_kept hw i e⟩
  | addAll c => exact Judged.discard (Or.inl ⟨rfl, addAll_kept hw c⟩) _
  | addAllAt i c => exact Judged.discard (Or.inl ⟨rfl, addAllAt_kept hw i c⟩) _
  | set i e => exact (set_judged hw i e).discard _
  | setAll col => exact (setAll_judged hw col).discard _
  | remove equals => exact (remove_judged hw equals).discard _
  | removeAt i => exact (removeAt_judged hw i).discard _
  | removeRange lo hi => exact removeRange_judged hw lo hi
  | removeAll c => exact (removeMarked_judged hw true c).discard _
  | retainAll c => exact (removeMarked_judged hw false c).discard _
  | clear => exact clear_judged hw
  | sort compare => exact sort_judged w compare

/-- **A call that returns has told the listeners**, at most once, and exactly what
happened to the content. -/
theorem run_notifies (w : ObservableListWrapper E Obs) (c : ListCall E) (hw : Reachable w)
    (houtside : w.changeBuilder.changeLock = 0) (hlisteners : w.hasListeners = true)
    (hreturns : (c.run w).1 = .ok ()) : Notified w (c.run w).2 := by
  rcases run_judged hw.wellFormed c with ⟨-, hk⟩ | ⟨-, ⟨ex, hex⟩, -⟩
  · exact hk.2 houtside hlisteners
  · rw [hreturns] at hex
    simp at hex

/-- A list of numbers with a listener. -/
def listened (l : List Nat) : ObservableListWrapper Nat Unit :=
  { backingList := l, hasListeners := true }

/-- A collection that does not throw. -/
def collection (l : List Nat) : Collection Nat where
  size := .ok l.length
  isEmpty := .ok l.isEmpty
  iterate := fun _ => (l, none)
  contains := fun _ e => .ok (l.contains e)

theorem run_notifies_retainAll :
    let w := listened [4, 1, 5, 2, 6, 3]
    let c := ListCall.retainAll (collection [4, 5, 6])
    (c.run w).1 = .ok () ∧ (c.run w).2.backingList = [4, 5, 6] ∧ Notified w (c.run w).2 :=
  ⟨by decide +kernel, by decide +kernel, run_notifies _ _ (.new _ rfl) rfl rfl (by decide +kernel)⟩

/-- **A call keeps what it owes if and only if it does not leak.** -/
theorem run_kept_iff (w : ObservableListWrapper E Obs) (c : ListCall E) (hw : Reachable w) :
    Kept w (c.run w).2 ↔ w.leaks c = false := by
  rcases run_judged hw.wellFormed c with ⟨hno, hk⟩ | ⟨hyes, -, hk⟩
  · exact ⟨fun _ => hno, fun _ => hk⟩
  · exact ⟨fun h => absurd h hk, fun h => by rw [hyes] at h; simp at h⟩

theorem run_kept_iff_addAllAt :
    let w := listened [1, 2]
    let c := ListCall.addAllAt 5 (collection [3])
    (c.run w).1 = .error .indexOutOfBounds ∧ Kept w (c.run w).2 :=
  ⟨by rfl, (run_kept_iff _ _ (.new _ rfl)).mpr rfl⟩

/-- `remove(0, 2)` on a list of one element: it is gone, nobody has been told, the
block stays open, and the next call tells nobody either. -/
theorem remove_range_leaks :
    let w := listened [1]
    let w' := ((ListCall.removeRange 0 2).run w).2
    w'.backingList = [] ∧ w'.changeBuilder.changeLock = 1 ∧ w'.fired = [] ∧ ¬ Kept w w' ∧
      ((ListCall.add 7).run w').1 = .ok () ∧ ((ListCall.add 7).run w').2.backingList = [7] ∧
      ((ListCall.add 7).run w').2.fired = [] :=
  ⟨by rfl, by rfl, by rfl, not_kept_of_lock rfl, by rfl, by rfl, by rfl⟩

end JavaFX.ObservableListWrapper
