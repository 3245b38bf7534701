/-
What the calls leave in an array list.

An array list refuses no write, and without an extractor there is nobody to attach and
detach, so the content after a call depends on the content before it and on the call
alone: `contents` says how.  The records a call makes never come in the way, since the
builder of a well-formed wrapper refuses nothing inside a block.
-/
import JavaFX.Proofs.ObservableListWrapper.Notification

namespace JavaFX.ObservableListWrapper

open Program EditScript ListChangeBuilder IndexTable List

variable {E Obs : Type} [DecidableEq E]

/-! ### The content after a call -/

/-- What `removeAll` or `retainAll` leaves. -/
def unmarked (mark : Bool) (c : Collection E) (l : List E) : List E :=
  match c.size, marked c mark 0 l with
  | .ok size, .ok bs => if size < 0 then l else erased (bs.reverse.map Int.ofNat) l
  | _, _ => l

/-- What a call makes of the content of an array list. -/
def ListCall.contents (l : List E) : ListCall E → List E
  | .add e => l ++ [e]
  | .addAt i e =>
    if 0 ≤ i ∧ i ≤ l.length then l.take i.toNat ++ e :: l.drop i.toNat else l
  | .addAll c => l ++ (c.iterate l).1
  | .addAllAt i c =>
    if 0 ≤ i ∧ i ≤ l.length then l.take i.toNat ++ ((c.iterate l).1 ++ l.drop i.toNat) else l
  | .set i e => if 0 ≤ i then l.set i.toNat e else l
  | .setAll col =>
    match l, col.isEmpty with
    | [], .ok true => []
    | [], .error _ => []
    | _, _ => (col.iterate []).1
  | .remove equals =>
    match indexOf equals l with
    | .ok i => if 0 ≤ i then l.eraseIdx i.toNat else l
    | .error _ => l
  | .removeAt i => if 0 ≤ i then l.eraseIdx i.toNat else l
  | .removeRange lo hi =>
    if 0 ≤ lo then l.take lo.toNat ++ l.drop (lo.toNat + (hi - lo).toNat) else l
  | .removeAll c => unmarked true c l
  | .retainAll c => unmarked false c l
  | .clear => []
  | .sort compare =>
    match SortHelper.sort compare l with
    | .ok (sorted, _) => sorted
    | .error _ => l

/-! ### Array lists -/

/-- The wrapper of an array list that has no extractor. -/
structure OverArrayList (w : ObservableListWrapper E Obs) : Prop where
  wellFormed : WellFormed w
  faults : w.faults = []
  elementObserver : w.elementObserver = none

variable [DecidableEq Obs]

theorem overArrayList_invariant : Invariant (OverArrayList : ObservableListWrapper E Obs → Prop) where
  write f w h := by
    have hwf := wellFormed_invariant.write f w h.wellFormed
    unfold ObservableListWrapper.write at hwf ⊢
    rw [h.faults] at hwf ⊢
    revert hwf
    cases f w.backingList with
    | ok r => exact fun hwf => ⟨hwf, rfl, h.elementObserver⟩
    | error ex => exact fun hwf => ⟨hwf, rfl, h.elementObserver⟩
  beginChange w h := ⟨wellFormed_invariant.beginChange w h.wellFormed, h.faults, h.elementObserver⟩
  mirror f hf w h := by
    have hwf := wellFormed_invariant.mirror f hf w h.wellFormed
    unfold ObservableListWrapper.mirror at hwf ⊢
    revert hwf
    cases f w.changeBuilder with
    | ok b => exact fun hwf => ⟨hwf, h.faults, h.elementObserver⟩
    | error ex => exact fun hwf => ⟨hwf, h.faults, h.elementObserver⟩
  fireChange change w h := by
    rw [ObservableListWrapper.fireChange, modify_apply]
    split
    · exact ⟨h.wellFormed, h.faults, h.elementObserver⟩
    · exact h
  endChange w h := by
    have hwf := wellFormed_invariant.endChange w h.wellFormed
    unfold ObservableListWrapper.endChange at hwf ⊢
    revert hwf
    cases w.changeBuilder.endChange w.backingList with
    | error ex => exact fun hwf => ⟨hwf, h.faults, h.elementObserver⟩
    | ok r =>
      obtain ⟨b, change⟩ := r
      cases change with
      | none => exact fun hwf => ⟨hwf, h.faults, h.elementObserver⟩
      | some change =>
        simp only [ObservableListWrapper.fireChange, modify_apply]
        split
        · exact fun hwf => ⟨hwf, h.faults, h.elementObserver⟩
        · exact fun hwf => ⟨hwf, h.faults, h.elementObserver⟩
  attachListener e w h := ⟨h.wellFormed, h.faults, by
    rw [attachListener_apply, attached, h.elementObserver]
    rfl⟩
  detachListener e w h := by
    unfold ObservableListWrapper.detachListener
    rw [h.elementObserver]
    exact h

namespace OverArrayList

variable {w : ObservableListWrapper E Obs}

omit [DecidableEq Obs] [DecidableEq E] in
theorem refuses (h : OverArrayList w) : w.refuses = false := by
  unfold ObservableListWrapper.refuses
  rw [h.faults]

theorem detaches (h : OverArrayList w) (es : List E) : detachAll es w.elementObserver = .ok none := by
  rw [h.elementObserver]
  exact detachAll_none es

end OverArrayList

/-! ### The list is not touched -/

/-- The content is `l`. -/
def Holds (l : List E) (w : ObservableListWrapper E Obs) : Prop := w.backingList = l

omit [DecidableEq E] [DecidableEq Obs] in
theorem holds_fireChange (l : List E) (change : Change E) : Keeps (Holds l)
    (fireChange change : Call E Obs Unit) := by
  intro w h
  rw [fireChange, modify_apply]
  split
  · exact h
  · exact h

omit [DecidableEq E] [DecidableEq Obs] in
theorem holds_endChange (l : List E) : Keeps (Holds l) (endChange : Call E Obs Unit) := by
  intro w h
  unfold endChange
  cases w.changeBuilder.endChange w.backingList with
  | error ex => exact h
  | ok r =>
    obtain ⟨b, change⟩ := r
    cases change with
    | none => exact h
    | some change => exact holds_fireChange l change _ h

omit [DecidableEq E] [DecidableEq Obs] in
theorem holds_mirror (l : List E) (f : ListChangeBuilder E → Except JavaException (ListChangeBuilder E)) :
    Keeps (Holds l) (mirror f : Call E Obs Unit) := by
  intro w h
  unfold mirror
  cases f w.changeBuilder with
  | ok b => exact h
  | error ex => exact h

omit [DecidableEq E] [DecidableEq Obs] in
theorem holds_report (l : List E) (f : ListChangeBuilder E → Except JavaException (ListChangeBuilder E)) :
    Keeps (Holds l) (report f : Call E Obs Unit) :=
  keeps_bind (fun _ h => h) fun _ => keeps_bind (holds_mirror l f) fun _ => holds_endChange l

omit [DecidableEq E] [DecidableEq Obs] in
theorem endChange_returns {w : ObservableListWrapper E Obs} (hw : WellFormed w)
    (hlock : 0 < w.changeBuilder.changeLock) : ∃ w', endChange w = (.ok (), w') := by
  rcases Tidy.endChange hw w.backingList with ⟨h0, -⟩ | ⟨b, change, hend, -⟩
  · omega
  · simp only [endChange, hend]
    cases change with
    | none => exact ⟨_, rfl⟩
    | some change => exact ⟨_, rfl⟩

omit [DecidableEq E] [DecidableEq Obs] in
theorem report_returns {w : ObservableListWrapper E Obs} (hw : WellFormed w)
    {f : ListChangeBuilder E → Except JavaException (ListChangeBuilder E)} (hf : Tidies f)
    (hok : ∀ k b, Level (k + 1) b → ∃ b', f b = .ok b' ∧ Level (k + 1) b') :
    ∃ w', report f w = (.ok (), w') ∧ w'.backingList = w.backingList := by
  obtain ⟨b, hb, hlevel⟩ := hok w.changeBuilder.changeLock w.changeBuilder.beginChange ⟨rfl, hw.plain⟩
  have hmirror : mirror f { w with changeBuilder := w.changeBuilder.beginChange }
      = (.ok (), { w with changeBuilder := b }) := by
    rw [mirror, hb]
  have htidy : Tidy b := hf _ b (Tidy.beginChange hw) hb
  obtain ⟨w', hend⟩ := endChange_returns (w := { w with changeBuilder := b }) htidy
    (by show 0 < b.changeLock; rw [hlevel.lock]; omega)
  have hrun : report f w = (.ok (), w') := by
    rw [report, bind_ok (beginChange_apply w), bind_ok hmirror, hend]
  have hlist := holds_report w.backingList f w rfl
  rw [hrun] at hlist
  exact ⟨w', hrun, hlist⟩

/-! ### Single elements -/

theorem addAt_returns {w : ObservableListWrapper E Obs} (h : OverArrayList w) {n : Nat}
    (hn : n ≤ w.backingList.length) (e : E) :
    ∃ w', addAt n e w = (.ok (), w') ∧ OverArrayList w' ∧
      w'.backingList = w.backingList.take n ++ e :: w.backingList.drop n := by
  have hkeep := overArrayList_invariant.addAt n e w h
  rcases doAdd_cases (n : Int) e w with ⟨m, hm, -, -, hadd⟩ | ⟨ex, -, hr | hrange⟩
  · obtain rfl : n = m := Int.natCast_inj.mp hm
    obtain ⟨w', hw', hlist⟩ := report_returns
      (w := (w.attached e).written (w.backingList.take n ++ e :: w.backingList.drop n))
      h.wellFormed (tidies_nextAdd n (n + 1)) (fun k b hl => hl.nextAdd n (n + 1))
    have hrun : addAt n e w = (.ok (), w') := by
      rw [addAt, bind_ok hadd]
      exact hw'
    rw [hrun] at hkeep ⊢
    exact ⟨w', rfl, hkeep, hlist⟩
  · rw [h.refuses] at hr
    cases hr
  · omega

variable {i : Int}

omit [DecidableEq Obs] in
theorem addAt_fails {w : ObservableListWrapper E Obs} (hi : ¬ (0 ≤ i ∧ i ≤ w.backingList.length)) (e : E) :
    ∃ ex w', addAt i e w = (.error ex, w') ∧ w'.backingList = w.backingList := by
  rcases doAdd_cases i e w with ⟨n, rfl, hn, -, -⟩ | ⟨ex, hadd, -⟩
  · exact absurd ⟨by omega, by omega⟩ hi
  · exact ⟨ex, (w.attached e).written w.backingList, by rw [addAt, bind_error hadd], rfl⟩

theorem add_returns {w : ObservableListWrapper E Obs} (h : OverArrayList w) (e : E) :
    ∃ w', add e w = (.ok true, w') ∧ OverArrayList w' ∧ w'.backingList = w.backingList ++ [e] := by
  obtain ⟨w', hw', hover, hlist⟩ := addAt_returns h (Nat.le_refl w.backingList.length) e
  refine ⟨w', ?_, hover, by rw [hlist]; simp⟩
  rw [add, bind_ok (read_apply _ w), bind_ok hw']
  rfl

theorem removeAt_returns {w : ObservableListWrapper E Obs} (h : OverArrayList w) {n : Nat} {x : E}
    (hx : w.backingList[n]? = some x) :
    ∃ w', removeAt n w = (.ok x, w') ∧ OverArrayList w' ∧ w'.backingList = w.backingList.eraseIdx n := by
  have hkeep := overArrayList_invariant.removeAt n w h
  have hat : At (n : Int) n x w.backingList := ⟨rfl, hx⟩
  rcases doRemove_cases (n : Int) w with ⟨m, old, ⟨hm, hold⟩, -, hcase⟩ | ⟨ex, -, hr | hnone⟩
  · obtain rfl : n = m := Int.natCast_inj.mp hm
    obtain rfl : x = old := Option.some.inj (hx.symm.trans hold)
    rcases hcase with ⟨o, ho, hrem⟩ | ⟨ex, hex, -⟩
    · obtain ⟨w', hw', hlist⟩ := report_returns
        (w := { w.written (w.backingList.eraseIdx n) with elementObserver := o })
        h.wellFormed (tidies_nextRemove n x) (fun k b hl => by
          obtain ⟨b', hb', hl', -⟩ := hl.nextRemove n x
          exact ⟨b', hb', hl'⟩)
      have hrun : removeAt n w = (.ok x, w') := by
        rw [removeAt, bind_ok hrem]
        exact bind_ok hw'
      rw [hrun] at hkeep ⊢
      exact ⟨w', rfl, hkeep, hlist⟩
    · rw [h.detaches] at hex
      cases hex
  · rw [h.refuses] at hr
    cases hr
  · rw [hat.lookup.1] at hnone
    cases hnone

theorem removeAt_fails {w : ObservableListWrapper E Obs}
    (hi : (if 0 ≤ i then w.backingList[i.toNat]? else none) = none) :
    ∃ ex w', removeAt i w = (.error ex, w') ∧ w'.backingList = w.backingList := by
  rcases doRemove_cases i w with ⟨n, old, hat, -, -⟩ | ⟨ex, hrem, -⟩
  · rw [hat.lookup.1] at hi
    cases hi
  · exact ⟨ex, w.written w.backingList, by rw [removeAt, bind_error hrem], rfl⟩

theorem removeAt_contents {w : ObservableListWrapper E Obs} (h : OverArrayList w) (i : Int) :
    (removeAt i w).2.backingList = if 0 ≤ i then w.backingList.eraseIdx i.toNat else w.backingList := by
  rcases at_or_none i w.backingList with ⟨n, x, rfl, hx⟩ | hnone
  · obtain ⟨w', hw', -, hlist⟩ := removeAt_returns h hx
    rw [hw']
    exact hlist
  · obtain ⟨ex, w', hw', hlist⟩ := removeAt_fails hnone
    rw [hw', hlist]
    split
    · rename_i hi
      rw [if_pos hi, List.getElem?_eq_none_iff] at hnone
      exact (eraseIdx_of_length_le hnone).symm
    · rfl

theorem set_contents {w : ObservableListWrapper E Obs} (h : OverArrayList w) (i : Int) (e : E) :
    (set i e w).2.backingList = if 0 ≤ i then w.backingList.set i.toNat e else w.backingList := by
  rcases doSet_cases i e w with ⟨n, old, ⟨rfl, hold⟩, -, hcase⟩ | ⟨ex, hset, hr | hnone⟩
  · rcases hcase with ⟨o, -, hset⟩ | ⟨ex, hex, -⟩
    · rw [set, bind_ok hset, bind_pure_snd]
      exact holds_report _ _ _ rfl
    · rw [h.detaches] at hex
      cases hex
  · rw [h.refuses] at hr
    cases hr
  · rw [set, bind_error hset]
    split
    · rename_i hi
      rw [if_pos hi, List.getElem?_eq_none_iff] at hnone
      exact (set_eq_of_length_le hnone).symm
    · rfl

/-! ### Many elements -/

theorem addEach_returns : ∀ (es : List E) {w : ObservableListWrapper E Obs}, OverArrayList w →
    ∃ w', forEach (fun e => do let _ ← add e) es w = (.ok (), w') ∧ OverArrayList w' ∧
      w'.backingList = w.backingList ++ es := by
  intro es
  induction es with
  | nil => intro w h; exact ⟨w, rfl, h, by simp⟩
  | cons e es ih =>
    intro w h
    obtain ⟨w₁, hw₁, hover₁, hlist₁⟩ := add_returns h e
    obtain ⟨w₂, hw₂, hover₂, hlist₂⟩ := ih hover₁
    refine ⟨w₂, ?_, hover₂, by rw [hlist₂, hlist₁]; simp⟩
    have hfirst : (do let _ ← add e : Call E Obs Unit) w = (.ok (), w₁) := bind_ok hw₁
    rw [forEach, bind_ok hfirst, hw₂]

theorem addEachAt_returns : ∀ (es : List E) {n : Nat} {w : ObservableListWrapper E Obs},
    OverArrayList w → n ≤ w.backingList.length →
    ∃ w', addEachAt n es w = (.ok (), w') ∧ OverArrayList w' ∧
      w'.backingList = w.backingList.take n ++ (es ++ w.backingList.drop n) := by
  intro es
  induction es with
  | nil => intro n w h _; exact ⟨w, rfl, h, by simp⟩
  | cons e es ih =>
    intro n w h hn
    obtain ⟨w₁, hw₁, hover₁, hlist₁⟩ := addAt_returns h hn e
    have hn₁ : n + 1 ≤ w₁.backingList.length := by
      rw [hlist₁]
      simp
      omega
    obtain ⟨w₂, hw₂, hover₂, hlist₂⟩ := ih hover₁ hn₁
    refine ⟨w₂, ?_, hover₂, ?_⟩
    · rw [addEachAt, bind_ok hw₁]
      exact hw₂
    · have htake : (w.backingList.take n).length = n := length_take_of_le hn
      have hcut : w.backingList.take n ++ e :: w.backingList.drop n
          = (w.backingList.take n ++ [e]) ++ w.backingList.drop n := by simp
      have hlen : (w.backingList.take n ++ [e]).length = n + 1 := by simp [htake]
      rw [hlist₂, hlist₁, hcut, take_left' hlen, drop_left' hlen]
      simp

omit [DecidableEq E] [DecidableEq Obs] in
theorem block_contents {α : Type} (x : Call E Obs α) (w : ObservableListWrapper E Obs) :
    ((do beginChange; tryFinally x endChange) w).2.backingList
      = (x { w with changeBuilder := w.changeBuilder.beginChange }).2.backingList := by
  rw [bind_ok (beginChange_apply w), tryFinally_snd]
  exact holds_endChange _ _ rfl

theorem iterate_contents (c : Collection E) {w : ObservableListWrapper E Obs} (h : OverArrayList w) :
    (iterate c (fun e => do let _ ← add e) w).2.backingList = w.backingList ++ (c.iterate w.backingList).1 := by
  obtain ⟨w', hw', -, hlist⟩ := addEach_returns (c.iterate w.backingList).1 h
  rw [iterate, bind_ok (read_apply _ w)]
  simp only
  rw [bind_ok hw', ← hlist]
  cases (c.iterate w.backingList).2 with
  | none => rfl
  | some ex => rfl

theorem addAll_contents (c : Collection E) {w : ObservableListWrapper E Obs} (h : OverArrayList w) :
    (addAll c w).2.backingList = w.backingList ++ (c.iterate w.backingList).1 := by
  unfold addAll
  rw [block_contents]
  exact iterate_contents c (overArrayList_invariant.beginChange w h)

theorem addAllAt_contents (i : Int) (c : Collection E) {w : ObservableListWrapper E Obs} (h : OverArrayList w) :
    (addAllAt i c w).2.backingList = ListCall.contents w.backingList (.addAllAt i c) := by
  have hbegin := overArrayList_invariant.beginChange w h
  rw [beginChange_apply] at hbegin
  unfold addAllAt ListCall.contents
  rw [block_contents, bind_ok (read_apply _ _)]
  by_cases hi : 0 ≤ i ∧ i ≤ w.backingList.length
  · obtain ⟨n, rfl⟩ : ∃ n : Nat, i = n := ⟨i.toNat, by omega⟩
    have hrange : ¬ ((n : Int) < 0 ∨ (n : Int) > w.backingList.length) := by omega
    simp only [if_pos hi, if_neg hrange]
    rw [bind_ok (read_apply _ _)]
    obtain ⟨w', hw', -, hlist⟩ := addEachAt_returns (c.iterate w.backingList).1 hbegin
      (show n ≤ w.backingList.length by omega)
    rw [bind_ok hw', Int.toNat_natCast, ← hlist]
    cases (c.iterate w.backingList).2 with
    | none => rfl
    | some ex => rfl
  · have hrange : i < 0 ∨ i > w.backingList.length := by omega
    simp only [if_neg hi, if_pos hrange]
    rfl

theorem removeTimes_contents (n : Nat) : ∀ (k : Nat) {w : ObservableListWrapper E Obs},
    OverArrayList w → (removeTimes n k w).2.backingList = w.backingList.take n ++ w.backingList.drop (n + k) := by
  intro k
  induction k with
  | zero => intro w _; exact (take_append_drop n w.backingList).symm
  | succ k ih =>
    intro w h
    cases hx : w.backingList[n]? with
    | none =>
      have hlen : w.backingList.length ≤ n := List.getElem?_eq_none_iff.mp hx
      obtain ⟨ex, w', hw', hlist⟩ := removeAt_fails (i := n) (w := w) (by simp [hx])
      rw [removeTimes, bind_error hw', hlist, take_of_length_le hlen, drop_eq_nil_of_le (by omega), append_nil]
    | some x =>
      obtain ⟨w', hw', hover, hlist⟩ := removeAt_returns h hx
      have hn : n < w.backingList.length := (List.getElem?_eq_some_iff.mp hx).1
      have htake : (w.backingList.take n).length = n := length_take_of_le (by omega)
      rw [removeTimes, bind_ok hw', ih hover, hlist, eraseIdx_eq_take_drop_succ,
        take_left' htake, ← drop_drop, drop_left' htake, drop_drop]
      congr 2
      omega

theorem removeTimes_negative (hi : ¬ 0 ≤ i) (k : Nat) (w : ObservableListWrapper E Obs) :
    (removeTimes i k w).2.backingList = w.backingList := by
  cases k with
  | zero => rfl
  | succ k =>
    obtain ⟨ex, w', hw', hlist⟩ := removeAt_fails (w := w) (if_neg hi)
    rw [removeTimes, bind_error hw', hlist]

theorem removeRange_contents (lo hi : Int) {w : ObservableListWrapper E Obs} (h : OverArrayList w) :
    (removeRange lo hi w).2.backingList = ListCall.contents w.backingList (.removeRange lo hi) := by
  have hbegin := overArrayList_invariant.beginChange w h
  rw [beginChange_apply] at hbegin
  -- The end of the block, if it is reached, leaves the content alone.
  have hend : (removeRange lo hi w).2.backingList = (removeTimes lo (hi - lo).toNat
      { w with changeBuilder := w.changeBuilder.beginChange }).2.backingList := by
    rw [removeRange, bind_ok (beginChange_apply w)]
    rcases hr : removeTimes lo (hi - lo).toNat { w with changeBuilder := w.changeBuilder.beginChange } with ⟨r, w₁⟩
    cases r with
    | ok u => rw [bind_ok hr]; exact holds_endChange _ _ rfl
    | error ex => rw [bind_error hr]
  rw [hend, ListCall.contents]
  by_cases hlo : 0 ≤ lo
  · obtain ⟨n, rfl⟩ : ∃ n : Nat, lo = n := ⟨lo.toNat, by omega⟩
    rw [removeTimes_contents n _ hbegin]
    rfl
  · rw [if_neg hlo, removeTimes_negative hlo]

theorem removeEach_contents : ∀ (is : List Nat) {w : ObservableListWrapper E Obs},
    OverArrayList w → (∀ xs, taken (is.map Int.ofNat) w.backingList = some xs →
      ∃ w', removeEach (is.map Int.ofNat) w = (.ok (), w') ∧
        w'.backingList = erased (is.map Int.ofNat) w.backingList) := by
  intro is
  induction is with
  | nil => intro w h xs _; exact ⟨w, rfl, rfl⟩
  | cons i is ih =>
    intro w h xs hxs
    cases hx : w.backingList[i]? with
    | none => simp [taken, hx] at hxs
    | some x =>
      obtain ⟨w₁, hw₁, hover₁, hlist₁⟩ := removeAt_returns h hx
      have hat : At (Int.ofNat i) i x w.backingList := ⟨rfl, hx⟩
      rw [map_cons, taken_cons hat] at hxs
      obtain ⟨ys, hys, -⟩ := Option.map_eq_some_iff.mp hxs
      rw [← hlist₁] at hys
      obtain ⟨w₂, hw₂, hlist₂⟩ := ih hover₁ ys hys
      have hfirst : (do let _ ← removeAt (Int.ofNat i) : Call E Obs Unit) w = (.ok (), w₁) :=
        bind_ok hw₁
      refine ⟨w₂, ?_, ?_⟩
      · rw [map_cons, removeEach, forEach, bind_ok hfirst]
        exact hw₂
      · rw [hlist₂, hlist₁]
        rfl

omit [DecidableEq E] in
theorem taken_descending : ∀ (is : List Nat) (l : List E), is.Pairwise (· > ·) →
    (∀ i ∈ is, i < l.length) → ∃ xs, taken (is.map Int.ofNat) l = some xs := by
  intro is
  induction is with
  | nil => intro l _ _; exact ⟨[], rfl⟩
  | cons i is ih =>
    intro l hdesc hlt
    have hi : i < l.length := hlt i (by simp)
    have hat : At (Int.ofNat i) i l[i] l := ⟨rfl, getElem?_eq_getElem hi⟩
    have hrest : ∀ j ∈ is, j < (l.eraseIdx i).length := by
      intro j hj
      have hji := rel_of_pairwise_cons hdesc hj
      rw [length_eraseIdx_of_lt hi]
      omega
    obtain ⟨xs, hxs⟩ := ih (l.eraseIdx i) hdesc.of_cons hrest
    exact ⟨l[i] :: xs, by rw [map_cons, taken_cons hat, hxs]; rfl⟩

omit [DecidableEq E] in
theorem marked_lt {c : Collection E} {mark : Bool} : ∀ (l : List E) (i : Nat) {bs : List Nat},
    marked c mark i l = .ok bs → ∀ j ∈ bs, j < i + l.length := by
  intro l
  induction l with
  | nil =>
    intro i bs h j hj
    obtain rfl : [] = bs := Except.ok.inj h
    simp at hj
  | cons e es ih =>
    intro i bs h j hj
    rw [marked] at h
    cases hc : c.contains i e with
    | error ex => rw [hc] at h; cases h
    | ok found =>
      cases hm : marked c mark (i + 1) es with
      | error ex => rw [hc, hm] at h; cases h
      | ok rest =>
        rw [hc, hm] at h
        have hbs := Except.ok.inj h
        have hrest := ih (i + 1) hm
        simp only [length_cons]
        split at hbs
        · subst hbs
          rcases List.mem_cons.mp hj with rfl | hj
          · omega
          · have := hrest j hj
            omega
        · subst hbs
          have := hrest j hj
          omega

theorem removeMarked_contents (mark : Bool) (c : Collection E) {w : ObservableListWrapper E Obs}
    (h : OverArrayList w) :
    (removeMarked mark c w).2.backingList = unmarked mark c w.backingList := by
  have hbegin := overArrayList_invariant.beginChange w h
  rw [beginChange_apply] at hbegin
  unfold unmarked
  cases hsize : c.size with
  | error ex =>
    rw [removeMarked, hsize]
    rfl
  | ok size =>
    by_cases hneg : size < 0
    · have hrun : (removeMarked mark c w).2.backingList = w.backingList := by
        rw [removeMarked, bind_ok (beginChange_apply w), hsize, bind_ok (lift_apply _ _), if_pos hneg]
        rfl
      rw [hrun]
      cases marked c mark 0 w.backingList with
      | ok bs => simp [hneg]
      | error ex => rfl
    · cases hm : marked c mark 0 w.backingList with
      | error ex =>
        rw [removeMarked, bind_ok (beginChange_apply w), hsize, bind_ok (lift_apply _ _),
          if_neg hneg, bind_ok (read_apply _ _), hm]
        rfl
      | ok bs =>
        have hasc := marked_ascending w.backingList 0 hm
        obtain ⟨xs, hxs⟩ := taken_descending bs.reverse w.backingList (List.pairwise_reverse.mpr hasc.1) (fun i hi => by
            have := marked_lt w.backingList 0 hm i (List.mem_reverse.mp hi)
            omega)
        obtain ⟨w', hw', hlist⟩ := removeEach_contents bs.reverse hbegin xs hxs
        rw [removeMarked_apply hsize hneg hm, bind_pure_snd, bind_ok hw']
        simp only [if_neg hneg]
        exact holds_endChange _ _ hlist

theorem clear_returns {w : ObservableListWrapper E Obs} (h : OverArrayList w) :
    ∃ w', clear w = (.ok (), w') ∧ OverArrayList w' ∧ w'.backingList = [] := by
  have hkeep := overArrayList_invariant.clear w h
  have hlevel : Level (w.changeBuilder.changeLock + 1) w.changeBuilder.beginChange :=
    ⟨rfl, h.wellFormed.plain⟩
  obtain ⟨b, hb, hlb⟩ := Level.nextRemoveAll 0 w.backingList hlevel
  have htidy : Tidy b := tidies_nextRemoveAll 0 w.backingList _ b (Tidy.beginChange h.wellFormed) hb
  rcases clear_cases hb with ⟨-, ex, w', -, -, -, -, hr | ⟨ex', hex⟩⟩ |
    ⟨-, -, w', hrun, -, -, hlist, -⟩ | ⟨hyes, -⟩ | ⟨-, -, w', hrun, -, hbuilder, hlist, -⟩
  · rw [h.refuses] at hr
    cases hr
  · rw [h.detaches] at hex
    cases hex
  · rw [hrun] at hkeep
    exact ⟨w', hrun, hkeep, hlist⟩
  · simp [clearLeaks, h.refuses] at hyes
  · obtain ⟨w'', hend⟩ := endChange_returns (by rw [WellFormed, hbuilder]; exact htidy)
      (by rw [hbuilder, hlb.lock]; omega)
    have hlist' := holds_endChange [] w' hlist
    rw [hrun, hend] at hkeep
    rw [hend] at hlist'
    exact ⟨w'', hrun.trans hend, hkeep, hlist'⟩

omit [DecidableEq E] [DecidableEq Obs] in
/-- Sorting: nothing is left to do, or the elements are written back and a permutation is
fired. -/
theorem sort_cases (compare : E → E → Except JavaException Int)
    {w : ObservableListWrapper E Obs} (h : OverArrayList w) :
    ((sort compare w).2 = w ∧ ListCall.contents w.backingList (.sort compare) = w.backingList) ∨
    ∃ perm w', perm ≠ [] ∧ IsPermutation perm ∧ perm.length = w.backingList.length ∧
      Silent w w' ∧ w'.changeBuilder = w.changeBuilder ∧
      w'.backingList = permute perm w.backingList ∧
      ListCall.contents w.backingList (.sort compare) = permute perm w.backingList ∧
      sort compare w = fireChange ⟨w'.backingList, [⟨0, w'.backingList.length, some [], perm, false⟩]⟩ w' := by
  have hspec := @SortHelper.sort_spec _ compare w.backingList
  cases hs : SortHelper.sort compare w.backingList with
  | error ex =>
    refine Or.inl ⟨?_, by simp only [ListCall.contents, hs]⟩
    by_cases hnil : w.backingList = []
    · rw [sort_nil hnil]
    · rw [sort_error hnil hs]
  | ok r =>
    obtain ⟨sorted, perm⟩ := r
    rw [hs] at hspec
    obtain ⟨hperm, hlen, hsorted, -⟩ := hspec
    simp only at hperm hlen hsorted
    have hslen : sorted.length = w.backingList.length := by rw [hsorted, length_permute]
    have hcontents : ListCall.contents w.backingList (.sort compare) = sorted := by
      simp only [ListCall.contents, hs]
    by_cases hnil : w.backingList = []
    · refine Or.inl ⟨by rw [sort_nil hnil], ?_⟩
      rw [hnil] at hslen
      rw [hcontents, hnil]
      exact List.length_eq_zero_iff.mp hslen
    · rcases writeBack_cases sorted [] w.backingList w rfl hslen.symm with
        ⟨-, w', hwb, hsilent, hb, hlist⟩ | ⟨⟨hf, -⟩, -⟩
      · have hwb' : writeBack 0 sorted w = (.ok (), w') := hwb
        have hne : perm ≠ [] := by
          intro hempty
          rw [hempty] at hlen
          exact hnil (List.length_eq_zero_iff.mp hlen.symm)
        refine Or.inr ⟨perm, w', hne, hperm, hlen, hsilent, hb, ?_, ?_, ?_⟩
        · rw [hlist, hsorted]
          rfl
        · rw [hcontents, hsorted]
        · rw [sort_ok hnil hs, bind_ok hwb', bind_ok (read_apply _ w')]
      · rw [h.faults] at hf
        simp at hf

omit [DecidableEq E] [DecidableEq Obs] in
theorem sort_contents (compare : E → E → Except JavaException Int)
    {w : ObservableListWrapper E Obs} (h : OverArrayList w) :
    (sort compare w).2.backingList = ListCall.contents w.backingList (.sort compare) := by
  rcases sort_cases compare h with ⟨hsame, hcontents⟩ | ⟨perm, w', -, -, -, -, -, hlist, hcontents, hrun⟩
  · rw [hsame, hcontents]
  · rw [hrun, hcontents, ← hlist]
    exact holds_fireChange _ _ _ rfl

theorem replaceAll_contents (col : Collection E) {w : ObservableListWrapper E Obs}
    (h : OverArrayList w) : (replaceAll col w).2.backingList = (col.iterate []).1 := by
  have hbegin := overArrayList_invariant.beginChange w h
  rw [beginChange_apply] at hbegin
  obtain ⟨w₁, hclear, hover, hnil⟩ := clear_returns hbegin
  rw [block_contents, bind_ok hclear, bind_pure_snd, addAll_contents col hover, hnil]
  rfl

theorem setAll_contents (col : Collection E) {w : ObservableListWrapper E Obs} (h : OverArrayList w) :
    (setAll col w).2.backingList = ListCall.contents w.backingList (.setAll col) := by
  rcases setAll_cases w col with ⟨hno, r, hrun⟩ | ⟨hyes, hrun⟩
  · rw [hrun]
    unfold replaces at hno
    cases hl : w.backingList with
    | nil =>
      rw [hl] at hno
      cases he : col.isEmpty with
      | error ex => simp only [ListCall.contents, he]
      | ok isEmpty =>
        rw [he] at hno
        obtain rfl : isEmpty = true := by simpa using hno
        simp only [ListCall.contents, he]
    | cons x xs => rw [hl] at hno; cases hno
  · rw [hrun, replaceAll_contents col h]
    unfold replaces at hyes
    cases hl : w.backingList with
    | nil =>
      rw [hl] at hyes
      cases he : col.isEmpty with
      | error ex => rw [he] at hyes; cases hyes
      | ok isEmpty =>
        rw [he] at hyes
        obtain rfl : isEmpty = false := by simpa using hyes
        simp only [ListCall.contents, he]
    | cons x xs => simp only [ListCall.contents]

/-- **What a call leaves in an array list.** -/
theorem run_contents {w : ObservableListWrapper E Obs} (h : OverArrayList w) (c : ListCall E) :
    (c.run w).2.backingList = c.contents w.backingList := by
  cases c with
  | add e =>
    obtain ⟨w', hw', -, hlist⟩ := add_returns h e
    rw [ListCall.run, bind_pure_snd, hw']
    exact hlist
  | addAt i e =>
    rw [ListCall.run, ListCall.contents]
    by_cases hi : 0 ≤ i ∧ i ≤ w.backingList.length
    · obtain ⟨n, rfl⟩ : ∃ n : Nat, i = n := ⟨i.toNat, by omega⟩
      obtain ⟨w', hw', -, hlist⟩ := addAt_returns h (show n ≤ w.backingList.length by omega) e
      rw [hw', if_pos hi]
      exact hlist
    · obtain ⟨ex, w', hw', hlist⟩ := addAt_fails hi e
      rw [hw', if_neg hi]
      exact hlist
  | addAll c =>
    rw [ListCall.run, bind_pure_snd, addAll_contents c h]
    rfl
  | addAllAt i c => rw [ListCall.run, bind_pure_snd, addAllAt_contents i c h]
  | set i e =>
    rw [ListCall.run, bind_pure_snd, set_contents h]
    rfl
  | setAll col => rw [ListCall.run, bind_pure_snd, setAll_contents col h]
  | remove equals =>
    rw [ListCall.run, bind_pure_snd, remove, bind_ok (read_apply _ w), ListCall.contents]
    cases hi : indexOf equals w.backingList with
    | error ex => rfl
    | ok i =>
      rw [bind_ok (lift_apply _ _)]
      split
      · rw [bind_pure_snd, removeAt_contents h]
      · rename_i hne
        obtain rfl : i = -1 := not_not.mp hne
        rfl
  | removeAt i =>
    rw [ListCall.run, bind_pure_snd, removeAt_contents h]
    rfl
  | removeRange lo hi => rw [ListCall.run, removeRange_contents lo hi h]
  | removeAll c =>
    rw [ListCall.run, bind_pure_snd]
    exact removeMarked_contents true c h
  | retainAll c =>
    rw [ListCall.run, bind_pure_snd]
    exact removeMarked_contents false c h
  | clear =>
    obtain ⟨w', hw', -, hlist⟩ := clear_returns h
    rw [ListCall.run, hw']
    exact hlist
  | sort compare => rw [ListCall.run, sort_contents compare h]

end JavaFX.ObservableListWrapper
