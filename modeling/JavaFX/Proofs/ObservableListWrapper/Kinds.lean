/-
What kind of change a call fires.

Listeners that look at a record often only ask whether it adds, and if not, whether it
removes.  A call that adds makes records without removed elements, and a call that removes
makes records without added ones, however the builder merges and joins them; a call that
replaces makes a single record with both.
-/
import JavaFX.Proofs.ObservableListWrapper.Contents

namespace JavaFX

open Program EditScript ListChangeBuilder IndexTable List

variable {E Obs : Type}

namespace ListChangeBuilder

/-! ### Two kinds of records -/

/-- A record that removes nothing. -/
structure Adds (c : SubChange E) : Prop where
  removed : c.removed = some []
  perm : c.perm = []
  updated : c.updated = false

/-- A record that adds nothing. -/
structure Removes (c : SubChange E) : Prop where
  plain : Plain c
  empty : c.from = c.to

variable {c : SubChange E} {list list' : List (SubChange E)} {idx : Int} {b b' : ListChangeBuilder E}

theorem Adds.shift (h : Adds c) (d : Int) : Adds (c.shift d) :=
  ⟨h.removed, h.perm, h.updated⟩

theorem Adds.resize (h : Adds c) (hi : Int) : Adds { c with «to» := hi } :=
  ⟨h.removed, h.perm, h.updated⟩

theorem Removes.shift (h : Removes c) (d : Int) : Removes (c.shift d) :=
  ⟨plain_stable.shift c d h.plain, congrArg (· + d) h.empty⟩

theorem Removes.refill (h : Removes c) (r : List E) : Removes { c with removed := some r } :=
  ⟨plain_stable.refill c r h.plain, h.empty⟩

variable {lo hi : Int} {e : E}

theorem AddShape.adds (hs : AddShape lo hi list list') (h : ∀ c ∈ list, Adds c) : ∀ c ∈ list', Adds c := by
  have hshift : ∀ (c : SubChange E) d, Adds c → Adds (c.shift d) := fun _ d hc => hc.shift d
  cases hs with
  | extend pre c post _ _ => exact forall_cut hshift [c] h ((h c (by simp)).resize _)
  | grow pre c post _ _ => exact forall_cut hshift [c] h ((h c (by simp)).resize _)
  | insert pre post _ _ => exact forall_cut hshift [] h ⟨rfl, rfl, rfl⟩

theorem RemoveShape.removes
    (hs : RemoveShape idx e list list') (h : ∀ c ∈ list, Removes c) : ∀ c ∈ list', Removes c := by
  have hshift : ∀ (c : SubChange E) d, Removes c → Removes (c.shift d) := fun _ d hc => hc.shift d
  cases hs with
  | append pre c post r _ _ _ => exact forall_cut hshift [c] h ((h c (by simp)).refill _)
  | prepend pre c post r _ _ _ =>
    exact forall_cut hshift [c] h (((h c (by simp)).shift _).refill _)
  | insert pre post _ _ => exact forall_cut hshift [] h ⟨⟨rfl, rfl, rfl⟩, rfl⟩
  | shrink pre c post hfrom hto _ =>
    have := (h c (by simp)).empty
    omega
  | erase pre c post hfrom hto _ _ =>
    have := (h c (by simp)).empty
    omega

/-- A kind of records that own their removed runs, and that joining stays within. -/
structure Kind (Q : SubChange E → Prop) : Prop where
  owned : ∀ c, Q c → ∃ r, c.removed = some r
  join : ∀ a b r r', Q a → Q b → a.to = b.from → a.removed = some r → b.removed = some r' →
    Q { a with «to» := b.to, removed := some (r ++ r') }

theorem kind_adds : Kind (Adds (E := E)) where
  owned _ h := ⟨[], h.removed⟩
  join _ _ r r' ha hb _ hr hr' := by
    have h1 : r = [] := Option.some.inj (hr.symm.trans ha.removed)
    have h2 : r' = [] := Option.some.inj (hr'.symm.trans hb.removed)
    exact ⟨by rw [h1, h2]; rfl, ha.perm, ha.updated⟩

theorem kind_removes : Kind (Removes (E := E)) where
  owned _ h := Option.isSome_iff_exists.mp h.plain.removed
  join _ _ _ _ ha hb hto _ _ :=
    ⟨⟨rfl, ha.plain.perm, ha.plain.updated⟩, ha.empty.trans (hto.trans hb.empty)⟩

theorem Kind.compress_go {Q : SubChange E → Prop} (hQ : Kind Q) : ∀ (rest : List (SubChange E))
    (prev : SubChange E) {list : List (SubChange E)}, (∀ c ∈ prev :: rest, Q c) →
    compress.go prev rest = .ok list → ∀ c ∈ list, Q c := by
  intro rest
  induction rest with
  | nil =>
    intro prev list h hgo
    obtain rfl : [prev] = list := Except.ok.inj hgo
    exact h
  | cons cur rest ih =>
    intro prev list h hgo
    have hprev := h prev (by simp)
    have hcur := h cur (by simp)
    have hrest : ∀ x, Q x → ∀ c ∈ x :: rest, Q c := by
      intro x hx c hc
      rcases List.mem_cons.mp hc with rfl | hc
      · exact hx
      · exact h c (by simp [hc])
    rw [compress.go] at hgo
    split at hgo
    · rename_i hto
      obtain ⟨r, hr⟩ := hQ.owned prev hprev
      obtain ⟨r', hr'⟩ := hQ.owned cur hcur
      rw [hr, hr'] at hgo
      exact ih _ (hrest _ (hQ.join prev cur r r' hprev hcur hto hr hr')) hgo
    · cases hc : compress.go cur rest with
      | error ex => rw [hc] at hgo; cases hgo
      | ok list' =>
        rw [hc] at hgo
        obtain rfl : prev :: list' = list := Except.ok.inj hgo
        have hlist' := ih cur (hrest cur hcur) hc
        intro c hc
        rcases List.mem_cons.mp hc with rfl | hc
        · exact hprev
        · exact hlist' c hc

theorem Kind.compress {Q : SubChange E → Prop} (hQ : Kind Q)
    (h : ∀ c ∈ list, Q c) (hc : ListChangeBuilder.compress list = .ok list') : ∀ c ∈ list', Q c := by
  cases list with
  | nil =>
    obtain rfl : [] = list' := Except.ok.inj hc
    simp
  | cons prev rest => exact hQ.compress_go rest prev h hc

theorem Kind.finalize {Q : SubChange E → Prop} (hQ : Kind Q) (hc : Q c) : finalizeSubChange c = c := by
  obtain ⟨r, hr⟩ := hQ.owned c hc
  unfold finalizeSubChange SubChange.getRemoved
  rw [hr]
  exact congrArg (fun removed => { c with removed := removed }) hr.symm

theorem Kind.finalizeAll {Q : SubChange E → Prop} (hQ : Kind Q)
    (h : ∀ c ∈ list, Q c) : list.map finalizeSubChange = list := by
  have hmap : list.map finalizeSubChange = list.map id :=
    map_congr_left fun c hc => hQ.finalize (h c hc)
  rw [hmap, map_id]

/-- Only records of one kind are pending. -/
structure Collects (Q : SubChange E → Prop) (b : ListChangeBuilder E) : Prop where
  records : ∀ c ∈ b.addRemoveChanges, Q c
  updates : b.updateChanges = []
  permutation : b.permutationChange = none

theorem Collects.pending {Q : SubChange E → Prop} (hQ : Kind Q)
    (h : Collects Q b) {changes : List (SubChange E)} (hp : b.pending = .ok changes) :
    ∀ c ∈ changes, Q c := by
  unfold ListChangeBuilder.pending at hp
  by_cases hone : b.updateChanges.length + b.addRemoveChanges.length + (if b.permutationChange.isSome then 1 else 0) = 1
  · simp only [if_pos hone] at hp
    rw [h.updates, h.permutation] at hp
    obtain rfl := Except.ok.inj hp
    simp only [Option.toList_none, nil_append, append_nil]
    rw [hQ.finalizeAll h.records]
    exact h.records
  · simp only [if_neg hone] at hp
    rw [h.updates, h.permutation] at hp
    cases hc : compress b.addRemoveChanges with
    | error ex => rw [hc] at hp; cases hp
    | ok list =>
      have hlist : ∀ c ∈ list, Q c := hQ.compress h.records hc
      rw [hc] at hp
      obtain rfl := Except.ok.inj hp
      simp only [Option.toList_none, nil_append, append_nil]
      rw [hQ.finalizeAll hlist]
      exact hlist

theorem Collects.nextAdd (h : Collects Adds b) (hb : b.nextAdd lo hi = .ok b') : Collects Adds b' := by
  rcases Nat.eq_zero_or_pos b.changeLock with h0 | hpos
  · obtain ⟨ex, hex⟩ := checkState_of_zero h0
    simp [ListChangeBuilder.nextAdd, hex] at hb
  · rw [nextAdd_eq lo hi hpos, h.updates] at hb
    obtain rfl := Except.ok.inj hb
    exact ⟨(addRecord_cases lo hi b.addRemoveChanges).adds h.records, rfl, h.permutation⟩

theorem Collects.nextRemove (h : Collects Removes b) (hb : b.nextRemove idx e = .ok b') : Collects Removes b' := by
  rcases Nat.eq_zero_or_pos b.changeLock with h0 | hpos
  · obtain ⟨ex, hex⟩ := checkState_of_zero h0
    simp [ListChangeBuilder.nextRemove, hex, bind, Except.bind] at hb
  · have howned : Owned b.addRemoveChanges := fun c hc => (h.records c hc).plain.removed
    obtain ⟨records, hr, hs⟩ := nextRemove_spec idx e hpos howned
    rw [hr, h.updates] at hb
    obtain rfl := Except.ok.inj hb
    exact ⟨hs.removes h.records, rfl, h.permutation⟩

theorem Collects.nextRemoveAll (h : Collects Removes b)
    {es : List E} (hb : b.nextRemoveAll idx es = .ok b') : Collects Removes b' := by
  have hfold : ∀ (es : List E) {b b' : ListChangeBuilder E}, Collects Removes b →
      es.foldlM (fun b e => b.nextRemove idx e) b = .ok b' → Collects Removes b' := by
    intro es
    induction es with
    | nil =>
      intro b b' h hb
      obtain rfl := Except.ok.inj hb
      exact h
    | cons e es ih =>
      intro b b' h hb
      rw [foldlM_cons] at hb
      cases he : b.nextRemove idx e with
      | error ex => rw [he] at hb; cases hb
      | ok b₁ => rw [he] at hb; exact ih (h.nextRemove he) hb
  unfold ListChangeBuilder.nextRemoveAll at hb
  cases hc : b.checkState with
  | error ex => rw [hc] at hb; cases hb
  | ok _ => rw [hc] at hb; exact hfold es h hb

end ListChangeBuilder

namespace ObservableListWrapper

/-! ### Calls of one kind -/

/-- The records that are pending, and those that were fired since `w₀`, are of one kind. -/
structure Tells (Q : SubChange E → Prop) (w₀ w : ObservableListWrapper E Obs) : Prop where
  collects : Collects Q w.changeBuilder
  fired : ∃ changes, w.fired = w₀.fired ++ changes ∧ ∀ c ∈ changes, ∀ r ∈ c.changes, Q r

variable {Q : SubChange E → Prop} {w₀ : ObservableListWrapper E Obs}

theorem tells_idle (Q : SubChange E → Prop) {w : ObservableListWrapper E Obs}
    (h : w.changeBuilder = {}) : Tells Q w w :=
  ⟨by rw [h]; exact ⟨by simp, rfl, rfl⟩, [], by simp, by simp⟩

variable {α : Type} {f : ListChangeBuilder E → Except JavaException (ListChangeBuilder E)}

theorem tells_write (f : List E → Except JavaException (List E × α)) : Keeps (Tells Q w₀) (write f) := by
  intro w h
  unfold write
  split
  · exact ⟨h.collects, h.fired⟩
  · split
    · exact ⟨h.collects, h.fired⟩
    · exact ⟨h.collects, h.fired⟩

theorem tells_beginChange : Keeps (Tells Q w₀) beginChange := fun _ h =>
  ⟨⟨h.collects.records, h.collects.updates, h.collects.permutation⟩, h.fired⟩

theorem tells_mirror (hf : ∀ b b', Collects Q b → f b = .ok b' → Collects Q b') : Keeps (Tells Q w₀) (mirror f) := by
  intro w h
  unfold mirror
  split
  · rename_i b hb
    exact ⟨hf _ b h.collects hb, h.fired⟩
  · exact h

theorem tells_fireChange {change : Change E} (hchange : ∀ r ∈ change.changes, Q r) :
    Keeps (Tells Q w₀) (fireChange change) := by
  intro w h
  rw [fireChange, modify_apply]
  split
  · obtain ⟨changes, hfired, hall⟩ := h.fired
    refine ⟨h.collects, changes ++ [change], ?_, ?_⟩
    · rw [hfired, append_assoc]
    · intro c hc
      rcases List.mem_append.mp hc with hc | hc
      · exact hall c hc
      · obtain rfl := List.mem_singleton.mp hc
        exact hchange
  · exact h

theorem tells_endChange (hQ : ListChangeBuilder.Kind Q) : Keeps (Tells Q w₀) endChange := by
  intro w h
  have hcollects : Collects Q { w.changeBuilder with changeLock := w.changeBuilder.changeLock - 1 } :=
    ⟨h.collects.records, h.collects.updates, h.collects.permutation⟩
  unfold endChange ListChangeBuilder.endChange
  by_cases h0 : w.changeBuilder.changeLock = 0
  · rw [if_pos h0]
    exact ⟨hcollects, h.fired⟩
  · rw [if_neg h0]
    unfold commit
    by_cases hany : ({ w.changeBuilder with changeLock := w.changeBuilder.changeLock - 1 } :
          ListChangeBuilder E).changeLock = 0 ∧ (w.changeBuilder.addRemoveChanges ≠ [] ∨
        w.changeBuilder.updateChanges ≠ [] ∨ w.changeBuilder.permutationChange.isSome)
    · rw [if_pos hany]
      cases hp : ListChangeBuilder.pending { w.changeBuilder with changeLock := w.changeBuilder.changeLock - 1 } with
      | error ex => exact ⟨hcollects, h.fired⟩
      | ok changes =>
        have hfire : ∀ r ∈ (⟨w.backingList, changes⟩ : Change E).changes, Q r :=
          hcollects.pending hQ hp
        exact tells_fireChange hfire _ ⟨⟨by simp, rfl, rfl⟩, h.fired⟩
    · rw [if_neg hany]
      exact ⟨hcollects, h.fired⟩

theorem tells_report (hQ : ListChangeBuilder.Kind Q)
    (hf : ∀ b b', Collects Q b → f b = .ok b' → Collects Q b') : Keeps (Tells Q w₀) (report f) :=
  keeps_bind tells_beginChange fun _ => keeps_bind (tells_mirror hf) fun _ => tells_endChange hQ

theorem tells_block (hQ : ListChangeBuilder.Kind Q) {x : Call E Obs α} (hx : Keeps (Tells Q w₀) x) :
    Keeps (Tells Q w₀) (do beginChange; tryFinally x endChange) :=
  keeps_bind tells_beginChange fun _ => keeps_tryFinally hx (tells_endChange hQ)

variable [DecidableEq E] [DecidableEq Obs]

omit [DecidableEq Obs] in
theorem adds_addAt (i : Int) (e : E) : Keeps (Tells Adds w₀) (addAt i e) :=
  keeps_bind (keeps_bind (fun _ h => ⟨h.collects, h.fired⟩) fun _ => tells_write _)
    fun _ => tells_report kind_adds fun _ _ h hb => h.nextAdd hb

omit [DecidableEq Obs] in
theorem adds_add (e : E) : Keeps (Tells Adds w₀) (add e) :=
  keeps_bind (keeps_read _) fun _ => keeps_bind (adds_addAt _ e) fun _ => keeps_pure true

theorem tells_detach (e : E) : Keeps (Tells Q w₀) (detachListener e) := by
  intro w h
  rw [detachListener_apply]
  split
  · exact ⟨h.collects, h.fired⟩
  · exact h

theorem removes_removeAt (i : Int) : Keeps (Tells Removes w₀) (removeAt i) :=
  keeps_bind (keeps_bind (tells_write _) fun old => keeps_bind (tells_detach old) fun _ => keeps_pure old)
    fun old => keeps_bind (tells_report kind_removes fun _ _ h hb => h.nextRemove hb) fun _ => keeps_pure old

theorem removes_removeTimes (i : Int) : ∀ n, Keeps (Tells Removes w₀) (removeTimes i n) := by
  intro n
  induction n with
  | zero => exact keeps_pure ()
  | succ n ih => exact keeps_bind (removes_removeAt i) fun _ => ih

theorem removes_removeMarked (mark : Bool) (c : Collection E) : Keeps (Tells Removes w₀) (removeMarked mark c) := by
  refine keeps_bind tells_beginChange fun _ => keeps_bind (keeps_lift _) fun size => ?_
  split
  · exact keeps_throw _
  · exact keeps_bind (keeps_read _) fun _ => keeps_bind (keeps_lift _) fun bs =>
      keeps_bind (keeps_forEach (fun i => keeps_bind (removes_removeAt _) fun _ => keeps_pure ()) _)
        fun _ => keeps_bind (tells_endChange kind_removes) fun _ => keeps_pure _

theorem removes_clear : Keeps (Tells Removes w₀) clear := by
  have hend : ∀ hasListeners : Bool, Keeps (Tells Removes w₀)
      (if hasListeners then endChange else pure () : Call E Obs Unit) := by
    intro hasListeners
    cases hasListeners with
    | true => exact tells_endChange kind_removes
    | false => exact keeps_pure ()
  refine keeps_bind (keeps_read _) fun elements => keeps_bind (keeps_forEach tells_detach _)
    fun _ => keeps_bind (keeps_read _) fun hasListeners => ?_
  cases hasListeners with
  | true =>
    exact keeps_bind tells_beginChange fun _ =>
      keeps_bind (tells_mirror fun _ _ h hb => h.nextRemoveAll hb)
        fun _ => keeps_bind (tells_write _) fun _ => keeps_bind (keeps_read _) hend
  | false => exact keeps_bind (tells_write _) fun _ => keeps_bind (keeps_read _) hend

/-- The calls that only add. -/
def ListCall.adds : ListCall E → Bool
  | .add _ | .addAt _ _ | .addAll _ | .addAllAt _ _ => true
  | _ => false

/-- The calls that only remove. -/
def ListCall.removes : ListCall E → Bool
  | .remove _ | .removeAt _ | .removeRange _ _ | .removeAll _ | .retainAll _ | .clear => true
  | _ => false

/-- **A call that adds fires records that remove nothing.** -/
theorem adds_run {c : ListCall E} (hc : c.adds = true) : Keeps (Tells Adds w₀) c.run := by
  cases c with
  | add e => exact keeps_bind (adds_add e) fun _ => keeps_pure ()
  | addAt i e => exact adds_addAt i e
  | addAll c =>
    exact keeps_bind (tells_block kind_adds (keeps_iterate c
      fun e => keeps_bind (adds_add e) fun _ => keeps_pure ())) fun _ => keeps_pure ()
  | addAllAt i c =>
    exact keeps_bind (tells_block kind_adds (keeps_addAllAt adds_addAt i c)) fun _ => keeps_pure ()
  | set i e => cases hc
  | setAll col => cases hc
  | remove equals => cases hc
  | removeAt i => cases hc
  | removeRange lo hi => cases hc
  | removeAll c => cases hc
  | retainAll c => cases hc
  | clear => cases hc
  | sort compare => cases hc

/-- **A call that removes fires records that add nothing.** -/
theorem removes_run {c : ListCall E} (hc : c.removes = true) : Keeps (Tells Removes w₀) c.run := by
  cases c with
  | add e => cases hc
  | addAt i e => cases hc
  | addAll c => cases hc
  | addAllAt i c => cases hc
  | set i e => cases hc
  | setAll col => cases hc
  | remove equals =>
    refine keeps_bind (keeps_bind (keeps_read _) fun _ => keeps_bind (keeps_lift _) fun i => ?_) fun _ => keeps_pure ()
    split
    · exact keeps_bind (removes_removeAt i) fun _ => keeps_pure true
    · exact keeps_pure false
  | removeAt i => exact keeps_bind (removes_removeAt i) fun _ => keeps_pure ()
  | removeRange lo hi =>
    exact keeps_bind tells_beginChange fun _ => keeps_bind (removes_removeTimes lo _)
      fun _ => tells_endChange kind_removes
  | removeAll c => exact keeps_bind (removes_removeMarked true c) fun _ => keeps_pure ()
  | retainAll c => exact keeps_bind (removes_removeMarked false c) fun _ => keeps_pure ()
  | clear => exact removes_clear
  | sort compare => cases hc

end ObservableListWrapper

namespace ListChangeBuilder

/-! ### One record -/

/-- A builder with a lock and some records. -/
def holding (lock : Nat) (records : List (SubChange E)) : ListChangeBuilder E :=
  { changeLock := lock, addRemoveChanges := records }

theorem nextRemove_first (k : Nat) (idx : Int) (e : E) : (holding (k + 1) []).nextRemove idx e
      = .ok (holding (k + 1) [⟨idx, idx, some [e], [], false⟩]) := rfl

theorem nextAdd_first (k : Nat) (lo hi : Int) : (holding (k + 1) ([] : List (SubChange E))).nextAdd lo hi
      = .ok (holding (k + 1) [⟨lo, hi, some [], [], false⟩]) := rfl

theorem nextAdd_again (k : Nat) (start lo hi : Int) (r : List E) :
    (holding (k + 1) [⟨start, lo, some r, [], false⟩]).nextAdd lo hi
      = .ok (holding (k + 1) [⟨start, hi, some r, [], false⟩]) := by
  simp [holding, ListChangeBuilder.nextAdd, checkState, addRecord]

theorem nextSet_first (k : Nat) (idx : Int) (e : E) : (holding (k + 1) []).nextSet idx e
      = .ok (holding (k + 1) [⟨idx, idx + 1, some [e], [], false⟩]) := by
  exact nextAdd_again k idx idx (idx + 1) [e]

/-- The records of a list that held `old`, was cleared, and has got `n` elements again. -/
def refilled (old : List E) (n : Nat) : List (SubChange E) :=
  if old = [] ∧ n = 0 then [] else [⟨0, n, some old, [], false⟩]

theorem nextRemoveAll_clear (k : Nat) (old : List E) :
    (holding (k + 1) []).nextRemoveAll 0 old = .ok (holding (k + 1) (refilled old 0)) := by
  have hmore : ∀ (es r : List E), es.foldlM (fun b e => ListChangeBuilder.nextRemove 0 e b)
      (holding (k + 1) [⟨0, 0, some r, [], false⟩]) = .ok (holding (k + 1) [⟨0, 0, some (r ++ es), [], false⟩]) := by
    intro es
    induction es with
    | nil => intro r; simp [pure, Except.pure]
    | cons e es ih =>
      intro r
      have := ih (r ++ [e])
      rw [append_assoc] at this
      exact this
  cases old with
  | nil => rfl
  | cons e es =>
    exact hmore es [e]

theorem nextAdd_refill (k : Nat) (old : List E) (n : Nat) : (holding (k + 1) (refilled old n)).nextAdd n (n + 1)
      = .ok (holding (k + 1) (refilled old (n + 1))) := by
  unfold refilled
  by_cases h : old = [] ∧ n = 0
  · obtain ⟨rfl, rfl⟩ := h
    exact nextAdd_first k 0 1
  · rw [if_neg h, if_neg (by omega)]
    exact nextAdd_again k 0 n (n + 1) old

end ListChangeBuilder

namespace ObservableListWrapper

variable {w : ObservableListWrapper E Obs}

variable {r : SubChange E} {removed old : List E} {k : Nat}

theorem endChange_one (hr : r.removed = some removed) (hb : w.changeBuilder = holding 1 [r])
    (hl : w.hasListeners = true) :
    endChange w = (.ok (), { w with
      changeBuilder := {}, fired := w.fired ++ [⟨w.backingList, [r]⟩] }) := by
  have hfinal : finalizeSubChange r = r := by
    unfold finalizeSubChange SubChange.getRemoved
    rw [hr]
    exact congrArg (fun removed => { r with removed := removed }) hr.symm
  have hpending : (holding 1 [r]).pending = .ok [r] := by
    show Except.ok [finalizeSubChange r] = _
    rw [hfinal]
  have hend := endChange_fires w.backingList rfl (Or.inl (by simp [holding])) hpending
  simp only [endChange, hb, hend]
  rw [fireChange, modify_apply, if_pos hl]

theorem report_one {f : ListChangeBuilder E → Except JavaException (ListChangeBuilder E)}
    (hr : r.removed = some removed) (hidle : w.changeBuilder = {}) (hl : w.hasListeners = true)
    (hf : f (holding 1 []) = .ok (holding 1 [r])) :
    (report f w).2.fired = w.fired ++ [⟨w.backingList, [r]⟩] := by
  have hmirror : mirror f { w with changeBuilder := w.changeBuilder.beginChange }
      = (.ok (), { w with changeBuilder := holding 1 [r] }) := by
    have hbegin : w.changeBuilder.beginChange = holding 1 [] := by
      rw [hidle]
      rfl
    simp only [mirror, hbegin, hf]
  rw [report, bind_ok (beginChange_apply w), bind_ok hmirror,
    endChange_one (w := { w with changeBuilder := holding 1 [r] }) hr rfl hl]

variable [DecidableEq E] [DecidableEq Obs]

/-- **A replaced element**, outside of any block, is told in one record. -/
theorem set_fires (h : OverArrayList w) (hidle : w.changeBuilder = {}) (hl : w.hasListeners = true)
    {n : Nat} {old : E}
    (hold : w.backingList[n]? = some old) (e : E) :
    (set n e w).2.fired = w.fired ++ [⟨w.backingList.set n e, [⟨n, n + 1, some [old], [], false⟩]⟩] := by
  have hat : At (n : Int) n old w.backingList := ⟨rfl, hold⟩
  rcases doSet_cases (n : Int) e w with ⟨m, x, ⟨hm, hx⟩, -, hcase⟩ | ⟨ex, -, hr | hnone⟩
  · obtain rfl : n = m := Int.natCast_inj.mp hm
    obtain rfl : old = x := Option.some.inj (hold.symm.trans hx)
    rcases hcase with ⟨o, -, hset⟩ | ⟨ex, hex, -⟩
    · obtain ⟨v, hv, hidle', hl', hfired, hlist⟩ : ∃ v, doSet n e w = (.ok old, v) ∧
          v.changeBuilder = {} ∧ v.hasListeners = true ∧ v.fired = w.fired ∧
          v.backingList = w.backingList.set n e := ⟨_, hset, hidle, hl, rfl, rfl⟩
      rw [set, bind_ok hv, bind_pure_snd, report_one rfl hidle' hl' (nextSet_first 0 n old), hfired, hlist]
    · rw [h.detaches] at hex
      cases hex
  · rw [h.refuses] at hr
    cases hr
  · rw [hat.lookup.1] at hnone
    cases hnone

theorem set_silent {i : Int} (hi : (if 0 ≤ i then w.backingList[i.toNat]? else none) = none) (e : E) :
    (set i e w).2.fired = w.fired := by
  rcases doSet_cases i e w with ⟨n, old, hat, -, -⟩ | ⟨ex, hset, -⟩
  · rw [hat.lookup.1] at hi
    cases hi
  · rw [set, bind_error hset]
    rfl

/-- A list that is filled again inside the block it was cleared in. -/
structure Refilling (k : Nat) (old : List E) (w₀ w : ObservableListWrapper E Obs) : Prop where
  onArrayList : OverArrayList w
  builder : w.changeBuilder = holding (k + 1) (refilled old w.backingList.length)
  silent : Silent w₀ w

theorem refilling_add {w₀ : ObservableListWrapper E Obs} (e : E) : Keeps (Refilling k old w₀) (add e) := by
  intro w h
  have hkeep := overArrayList_invariant.add e w h.onArrayList
  rcases doAdd_cases (w.backingList.length : Int) e w with ⟨m, hm, -, -, hadd⟩ | ⟨ex, -, hr | hrange⟩
  · obtain rfl : w.backingList.length = m := Int.natCast_inj.mp hm
    obtain ⟨v, hv, hbuilder, hsilent, hlist⟩ : ∃ v, doAdd w.backingList.length e w = (.ok (), v) ∧
        v.changeBuilder = w.changeBuilder ∧ Silent w v ∧ v.backingList = w.backingList ++ [e] :=
      ⟨_, hadd, rfl, ⟨rfl, rfl⟩, by
        show w.backingList.take w.backingList.length ++ e :: w.backingList.drop w.backingList.length = _
        simp⟩
    have hnext : v.changeBuilder.beginChange.nextAdd w.backingList.length (w.backingList.length + 1)
        = .ok (holding (k + 2) (refilled old (w.backingList.length + 1))) := by
      rw [hbuilder, h.builder]
      exact nextAdd_refill (k + 1) old w.backingList.length
    have hplain : ∀ c ∈ refilled old (w.backingList.length + 1), Plain c := by
      intro c hc
      rw [refilled, if_neg (by omega)] at hc
      obtain rfl := List.mem_singleton.mp hc
      exact ⟨rfl, rfl, rfl⟩
    have hrun : add e w = (.ok true, { v with
        changeBuilder := (holding (k + 2) (refilled old (w.backingList.length + 1))).unlock }) := by
      rw [add, bind_ok (read_apply _ w), addAt, Program.seq_assoc, bind_ok hv,
        bind_ok (report_inner hnext ⟨rfl, hplain⟩)]
      rfl
    rw [hrun] at hkeep ⊢
    refine ⟨hkeep, ?_, h.silent.trans ⟨hsilent.hasListeners, hsilent.fired⟩⟩
    show holding (k + 1) (refilled old (w.backingList.length + 1)) = _
    rw [hlist]
    simp
  · rw [h.onArrayList.refuses] at hr
    cases hr
  · omega

theorem refilling_addAll {w₀ : ObservableListWrapper E Obs}
    (c : Collection E) : Keeps (Refilling k old w₀) (addAll c) := by
  intro w h
  have hbegin : Refilling (k + 1) old w₀ { w with changeBuilder := w.changeBuilder.beginChange } :=
    ⟨overArrayList_invariant.beginChange w h.onArrayList, by
      rw [h.builder]
      rfl, h.silent.hasListeners, h.silent.fired⟩
  have hbody : Refilling (k + 1) old w₀ _ := keeps_iterate c
    (fun e => keeps_bind (refilling_add e) fun _ => keeps_pure ()) _ hbegin
  have hlevel : Level (k + 2) (iterate c (fun e => do let _ ← add e)
      { w with changeBuilder := w.changeBuilder.beginChange }).2.changeBuilder := by
    refine ⟨?_, hbody.onArrayList.wellFormed.plain⟩
    rw [hbody.builder]
    rfl
  rw [addAll, bind_ok (beginChange_apply w), tryFinally_snd, endChange_unlock hlevel]
  refine ⟨⟨?_, hbody.onArrayList.faults, hbody.onArrayList.elementObserver⟩, ?_, hbody.silent.hasListeners,
    hbody.silent.fired⟩
  · have := overArrayList_invariant.endChange _ hbody.onArrayList
    rw [endChange_unlock hlevel] at this
    exact this.wellFormed
  · rw [hbody.builder]
    rfl

/-- The list is cleared in a block that has just been opened. -/
theorem refilling_clear (h : OverArrayList w) (hidle : w.changeBuilder = {}) (hl : w.hasListeners = true) :
    ∃ w', clear { w with changeBuilder := w.changeBuilder.beginChange } = (.ok (), w') ∧
      w'.backingList = [] ∧ Refilling 0 w.backingList w w' := by
  have hbegin := overArrayList_invariant.beginChange w h
  rw [beginChange_apply] at hbegin
  have hb : ({ w with changeBuilder := w.changeBuilder.beginChange } :
        ObservableListWrapper E Obs).changeBuilder.beginChange.nextRemoveAll 0 w.backingList
      = .ok (holding 2 (refilled w.backingList 0)) := by
    rw [hidle]
    exact nextRemoveAll_clear 1 w.backingList
  obtain ⟨w', hw', hover, hnil⟩ := clear_returns hbegin
  refine ⟨w', hw', hnil, ?_⟩
  rcases clear_cases hb with ⟨-, ex, v, hv, -⟩ | ⟨hno, -⟩ | ⟨-, ex, v, hv, -⟩ |
    ⟨-, -, v, hv, hsilent, hbuilder, hlist, -⟩
  · rw [hv] at hw'
    cases hw'
  · rw [show w.hasListeners = false from hno] at hl
    cases hl
  · rw [hv] at hw'
    cases hw'
  · have hlevel : Level 2 v.changeBuilder := by
      rw [hbuilder]
      refine ⟨rfl, ?_⟩
      intro c hc
      have hc' : c ∈ refilled w.backingList 0 := hc
      unfold refilled at hc'
      split at hc'
      · simp at hc'
      · obtain rfl := List.mem_singleton.mp hc'
        exact ⟨rfl, rfl, rfl⟩
    rw [hv, endChange_unlock hlevel] at hw'
    obtain rfl := (Prod.mk.inj hw').2
    refine ⟨hover, ?_, hsilent.hasListeners, hsilent.fired⟩
    rw [hbuilder]
    simp only [hlist]
    rfl

/-- **A replaced content**, outside of any block, is told in one record, if there is
anything to tell. -/
theorem replaceAll_fires (h : OverArrayList w)
    (hidle : w.changeBuilder = {}) (hl : w.hasListeners = true) (col : Collection E) :
    (replaceAll col w).2.fired = w.fired ++ (refilled w.backingList (col.iterate []).1.length).map
      fun r => ⟨(col.iterate []).1, [r]⟩ := by
  obtain ⟨w₁, hclear, hnil, hrefilling⟩ := refilling_clear h hidle hl
  have hlast := refilling_addAll col w₁ hrefilling
  have hlist := addAll_contents col hrefilling.onArrayList
  rw [hnil, nil_append] at hlist
  rw [replaceAll, bind_ok (beginChange_apply w), tryFinally_snd, bind_ok hclear, bind_pure_snd]
  have hbuilder := hlast.builder
  rw [hlist] at hbuilder
  by_cases hempty : w.backingList = [] ∧ (col.iterate []).1.length = 0
  · rw [refilled, if_pos hempty] at hbuilder ⊢
    have hquiet := endChange_quiet (b := holding 1 []) (addAll col w₁).2.backingList rfl rfl rfl rfl
    simp only [endChange, hbuilder, hquiet]
    rw [hlast.silent.fired]
    simp
  · rw [refilled, if_neg hempty] at hbuilder ⊢
    rw [endChange_one rfl hbuilder (hlast.silent.hasListeners.trans hl)]
    rw [hlast.silent.fired, hlist]
    rfl

end ObservableListWrapper

namespace ObservableListWrapper

/-! ### Calls nobody hears of -/

variable [DecidableEq E] [DecidableEq Obs]

theorem unheard_invariant (fired : List (Change E)) :
    Invariant fun w : ObservableListWrapper E Obs => w.hasListeners = false ∧ w.fired = fired where
  write f w h := by
    unfold ObservableListWrapper.write
    split
    · exact h
    · split
      · exact h
      · exact h
  beginChange w h := h
  mirror f hf w h := by
    unfold ObservableListWrapper.mirror
    split
    · exact h
    · exact h
  fireChange change w h := by
    rw [ObservableListWrapper.fireChange, modify_apply, if_neg (by simp [h.1])]
    exact h
  endChange w h := by
    unfold ObservableListWrapper.endChange
    split
    · rw [fireChange, modify_apply, if_neg (by simp [h.1])]
      exact h
    · exact h
    · exact h
  attachListener e w h := h
  detachListener e w h := by
    unfold ObservableListWrapper.detachListener
    split
    · exact h
    · split
      · exact h
      · exact h

variable {w : ObservableListWrapper E Obs}

/-- A block without `finally` that stays open, or that is inside another. -/
theorem openBlock_silent {x : Call E Obs Unit}
    (h : OverArrayList w) (hx : ∀ k, Keeps (Within k w) x) (hover : Keeps OverArrayList x)
    (hquiet : 0 < w.changeBuilder.changeLock ∨ ∃ ex, ((do beginChange; x; endChange) w).1 = .error ex) :
    ((do beginChange; x; endChange : Call E Obs Unit) w).2.fired = w.fired := by
  have hbegin := overArrayList_invariant.beginChange w h
  have hwithin : Within w.changeBuilder.changeLock w { w with changeBuilder := w.changeBuilder.beginChange } :=
    ⟨⟨rfl, h.wellFormed.plain⟩, rfl, rfl⟩
  have hbody := hx _ _ hwithin
  have hbodyOver := hover _ hbegin
  rw [beginChange_apply] at hbodyOver
  rw [bind_ok (beginChange_apply w)] at hquiet ⊢
  rcases hr : x { w with changeBuilder := w.changeBuilder.beginChange } with ⟨r, w₁⟩
  rw [hr] at hbody hbodyOver
  cases r with
  | error ex =>
    rw [bind_error hr]
    exact hbody.silent.fired
  | ok u =>
    rw [bind_ok hr] at hquiet ⊢
    rcases hquiet with hpos | ⟨ex, hex⟩
    · obtain ⟨k, hk⟩ : ∃ k, w.changeBuilder.changeLock = k + 1 := ⟨_, (Nat.succ_pred (by omega)).symm⟩
      rw [hk] at hbody
      obtain ⟨hend, hin⟩ := within_end hbody
      rw [hend]
      exact hin.silent.fired
    · obtain ⟨w₂, hend⟩ := endChange_returns hbodyOver.wellFormed (by
        rw [hbody.level.lock]
        omega)
      rw [hend] at hex
      cases hex

theorem keeps_removeTimes {k : Nat} {w₀ : ObservableListWrapper E Obs} (i : Int) :
    ∀ n, Keeps (Within k w₀) (removeTimes i n) := by
  intro n
  induction n with
  | zero => exact keeps_pure ()
  | succ n ih => exact keeps_bind (keeps_removeAt i) fun _ => ih

theorem removeMarked_silent (mark : Bool) (c : Collection E) (h : OverArrayList w)
    (hquiet : 0 < w.changeBuilder.changeLock ∨ ∃ ex, (removeMarked mark c w).1 = .error ex) :
    (removeMarked mark c w).2.fired = w.fired := by
  cases hsize : c.size with
  | error ex =>
    rw [removeMarked, hsize]
    rfl
  | ok size =>
    by_cases hneg : size < 0
    · rw [removeMarked, bind_ok (beginChange_apply w), hsize, bind_ok (lift_apply _ _), if_pos hneg]
      rfl
    · cases hm : marked c mark 0 w.backingList with
      | error ex =>
        rw [removeMarked, bind_ok (beginChange_apply w), hsize, bind_ok (lift_apply _ _),
          if_neg hneg, bind_ok (read_apply _ _), hm]
        rfl
      | ok bs =>
        have hblock : (do beginChange; removeEach (bs.reverse.map Int.ofNat); endChange :
              Call E Obs Unit) w = (do removeEach (bs.reverse.map Int.ofNat); endChange :
              Call E Obs Unit) { w with changeBuilder := w.changeBuilder.beginChange } :=
          bind_ok (beginChange_apply w)
        rw [removeMarked_apply hsize hneg hm] at hquiet ⊢
        rw [bind_pure_snd]
        refine openBlock_silent h
          (fun k => keeps_forEach (fun i => keeps_bind (keeps_removeAt i) fun _ => keeps_pure ()) _)
          (keeps_forEach (fun i => keeps_bind (overArrayList_invariant.removeAt i) fun _ => keeps_pure ()) _) ?_
        rcases hquiet with hpos | ⟨ex, hex⟩
        · exact Or.inl hpos
        · refine Or.inr ⟨ex, ?_⟩
          rw [hblock]
          rcases hr : (do removeEach (bs.reverse.map Int.ofNat); endChange : Call E Obs Unit)
            { w with changeBuilder := w.changeBuilder.beginChange } with ⟨r, w₁⟩
          cases r with
          | ok u => rw [bind_ok hr] at hex; cases hex
          | error ex' =>
            rw [bind_error hr] at hex
            exact congrArg Except.error (Except.error.inj hex)

/-- The calls of an array list that can leave a block open. -/
theorem leaks_cases (h : OverArrayList w) {c : ListCall E}
    (hleak : w.leaks c = true) : (∃ lo hi, c = .removeRange lo hi) ∨ (∃ col, c = .removeAll col) ∨
      ∃ col, c = .retainAll col := by
  have hundetached : ∀ i, w.undetached i = none := by
    intro i
    rcases at_or_none i w.backingList with ⟨n, old, hat⟩ | hnone
    · exact undetached_ok hat (h.detaches [old])
    · exact undetached_stuck (Or.inr hnone)
  cases c with
  | removeRange lo hi => exact Or.inl ⟨lo, hi, rfl⟩
  | removeAll col => exact Or.inr (Or.inl ⟨col, rfl⟩)
  | retainAll col => exact Or.inr (Or.inr ⟨col, rfl⟩)
  | add e => cases hleak
  | addAt i e => cases hleak
  | addAll col => cases hleak
  | addAllAt i col => cases hleak
  | set i e => simp [leaks, hundetached] at hleak
  | setAll col => simp [leaks, clearLeaks, h.refuses] at hleak
  | remove equals =>
    cases hi : indexOf equals w.backingList with
    | ok i => simp [leaks, hi, hundetached] at hleak
    | error ex => simp [leaks, hi] at hleak
  | removeAt i => simp [leaks, hundetached] at hleak
  | clear => simp [leaks, clearLeaks, h.refuses] at hleak
  | sort compare =>
    cases hs : SortHelper.sort compare w.backingList with
    | ok r => simp [leaks, sortLeaks, hs, h.faults] at hleak
    | error ex => simp [leaks, sortLeaks, hs] at hleak

/-- **In an open block, or when it leaves one open, a call tells nobody**; sorting apart,
which does not ask. -/
theorem run_silent (h : OverArrayList w) {c : ListCall E} (hquiet : 0 < w.changeBuilder.changeLock ∨ w.leaks c = true)
    (hsort : ∀ compare, c ≠ .sort compare) : (c.run w).2.fired = w.fired := by
  have hfails : w.leaks c = true → ∃ ex, (c.run w).1 = .error ex := by
    intro hleak
    rcases run_judged h.wellFormed c with ⟨hno, -⟩ | ⟨-, hex, -⟩
    · rw [hleak] at hno
      cases hno
    · exact hex
  have hmarked : ∀ mark col, (c.run w = (do let _ ← removeMarked mark col : Call E Obs Unit) w) →
      (c.run w).2.fired = w.fired := by
    intro mark col hc
    rw [hc] at hfails ⊢
    rw [bind_pure_snd]
    refine removeMarked_silent mark col h (hquiet.imp_right fun hleak => ?_)
    obtain ⟨ex, hex⟩ := hfails hleak
    rcases hr : removeMarked mark col w with ⟨r, w₁⟩
    cases r with
    | ok b => rw [bind_ok hr] at hex; cases hex
    | error ex' => exact ⟨ex', rfl⟩
  -- The other calls do not leave a block open, and stay in the one they are made in.
  have hclosed : (∀ k, Level (k + 1) w.changeBuilder → Within k w (c.run w).2) →
      w.leaks c = false → (c.run w).2.fired = w.fired := by
    intro hwithin hno
    rcases hquiet with hpos | hleak
    · exact (hwithin (w.changeBuilder.changeLock - 1) ⟨by omega, h.wellFormed.plain⟩).silent.fired
    · rw [hno] at hleak
      cases hleak
  have hin : ∀ {α : Type} {x : Call E Obs α} {k : Nat}, Keeps (Within k w) x →
      Level (k + 1) w.changeBuilder → Within k w (x w).2 :=
    fun hx hl => hx w ⟨hl, Silent.refl w⟩
  have hclear : w.clearLeaks = false := by simp [clearLeaks, h.refuses]
  have hleaks : (∀ lo hi, c ≠ .removeRange lo hi) → (∀ col, c ≠ .removeAll col) →
      (∀ col, c ≠ .retainAll col) → w.leaks c = false := by
    intro h1 h2 h3
    cases hl : w.leaks c with
    | false => rfl
    | true =>
      rcases leaks_cases h hl with ⟨lo, hi, rfl⟩ | ⟨col, rfl⟩ | ⟨col, rfl⟩
      · exact absurd rfl (h1 lo hi)
      · exact absurd rfl (h2 col)
      · exact absurd rfl (h3 col)
  cases c with
  | add e =>
    exact hclosed (fun k => hin (keeps_bind (keeps_add e) fun _ => keeps_pure ()))
      (hleaks (by simp) (by simp) (by simp))
  | addAt i e =>
    exact hclosed (fun k => hin (keeps_addAt i e)) (hleaks (by simp) (by simp) (by simp))
  | addAll col =>
    exact hclosed (fun k => hin (keeps_bind (keeps_addAll_within col) fun _ => keeps_pure ()))
      (hleaks (by simp) (by simp) (by simp))
  | addAllAt i col =>
    exact hclosed (fun k => hin (keeps_bind (keeps_block (keeps_addAllAt keeps_addAt i col))
      fun _ => keeps_pure ())) (hleaks (by simp) (by simp) (by simp))
  | set i e =>
    exact hclosed (fun k => hin (keeps_bind (keeps_set i e) fun _ => keeps_pure ()))
      (hleaks (by simp) (by simp) (by simp))
  | setAll col =>
    refine hclosed (fun k hl => ?_) (hleaks (by simp) (by simp) (by simp))
    rw [ListCall.run, bind_pure_snd]
    rcases setAll_cases w col with ⟨-, r, hrun⟩ | ⟨-, hrun⟩
    · rw [hrun]
      exact ⟨hl, Silent.refl w⟩
    · have hbegin : Within (k + 1) w { w with changeBuilder := w.changeBuilder.beginChange } :=
        within_begin ⟨hl, Silent.refl w⟩
      obtain ⟨w₁, hcleared, -, -⟩ := clear_returns (overArrayList_invariant.beginChange w h)
      rw [beginChange_apply] at hcleared
      have hwithin : Within (k + 1) w w₁ := by
        rcases clear_in_block hbegin with ⟨hyes, -⟩ | ⟨-, hwithin⟩
        · have hyes' : w.clearLeaks = true := hyes
          rw [hclear] at hyes'
          cases hyes'
        · rwa [hcleared] at hwithin
      obtain ⟨hend, hout⟩ := within_end (keeps_addAll_within col w₁ hwithin)
      rw [hrun, replaceAll, bind_ok (beginChange_apply w), tryFinally_snd, bind_ok hcleared, bind_pure_snd, hend]
      exact hout
  | remove equals =>
    refine hclosed (fun k => hin ?_) (hleaks (by simp) (by simp) (by simp))
    refine keeps_bind (keeps_bind (keeps_read _) fun _ => keeps_bind (keeps_lift _) fun i => ?_) fun _ => keeps_pure ()
    split
    · exact keeps_bind (keeps_removeAt i) fun _ => keeps_pure true
    · exact keeps_pure false
  | removeAt i =>
    exact hclosed (fun k => hin (keeps_bind (keeps_removeAt i) fun _ => keeps_pure ()))
      (hleaks (by simp) (by simp) (by simp))
  | removeRange lo hi =>
    exact openBlock_silent h (fun k => keeps_removeTimes lo _)
      (overArrayList_invariant.removeTimes lo _) (hquiet.imp_right hfails)
  | removeAll col => exact hmarked true col rfl
  | retainAll col => exact hmarked false col rfl
  | clear =>
    refine hclosed (fun k hl => ?_) (hleaks (by simp) (by simp) (by simp))
    rcases clear_in_block ⟨hl, Silent.refl w⟩ with ⟨hyes, -⟩ | ⟨-, hwithin⟩
    · rw [hclear] at hyes
      cases hyes
    · exact hwithin
  | sort compare => exact absurd rfl (hsort compare)

end ObservableListWrapper

end JavaFX
