/-
Which calls keep the pointers of rules, declarations and selectors right.

A call changes what one list holds, and the listener changes pointers: some elements are
claimed for the owner, others are dropped.  `Effect` is what it can do, and `Effect.owned_iff`
says when that fits what the list holds now.  The rest is about which elements are claimed
and dropped.  The listener of a stylesheet looks at what a record removes only if the record
adds nothing, so a replaced rule keeps its pointer; it drops a removed rule also if the rule
is still in the list; and it hears nothing of a call that leaves a block open, or is made
while one is open.  The lists of a rule have no listener at all.
-/
import JavaFX.Proofs.ObservableListWrapper.Balance
import Mathlib.Data.Set.Basic

namespace JavaFX

open Program EditScript ListChangeBuilder ObservableListWrapper IndexTable List

variable {O E : Type}

/-! ### Pointers and what the lists hold -/

namespace TrackedLists

/-- Every element in a list points to the owner of the list, and to nobody else does any
element point. -/
def Owned (t : TrackedLists O E) : Prop := ∀ o e, t.owner e = some o ↔ e ∈ t.elements o

end TrackedLists

/-- What may happen to the pointers when the list of `o` changes from `old` to `new`: the
`claimed` elements now point to `o`, and the `dropped` ones that did so to nobody. -/
structure Effect (o : O) (old new : List E) (owner owner' : E → Option O) (claimed dropped : Set E) :
    Prop where
  claims : ∀ e ∈ claimed, owner' e = some o
  drops : ∀ e, e ∉ claimed → e ∈ dropped → owner e = some o → owner' e = none
  keeps : ∀ e, e ∉ claimed → e ∉ dropped ∨ owner e ≠ some o → owner' e = owner e
  claimed_new : ∀ e ∈ claimed, e ∈ new
  new_claimed : ∀ e ∈ new, e ∈ old ∨ e ∈ claimed

variable {old new : List E}

theorem Effect.none (o : O) (owner : E → Option O) (h : ∀ e ∈ new, e ∈ old) : Effect o old new owner owner ∅ ∅ where
  claims e he := absurd he (Set.notMem_empty e)
  drops e _ he := absurd he (Set.notMem_empty e)
  keeps _ _ _ := rfl
  claimed_new e he := absurd he (Set.notMem_empty e)
  new_claimed e he := Or.inl (h e he)

variable [DecidableEq O] [DecidableEq E]

/-- **When the pointers are right again**: no new element is in another list, and of the old
ones those are still there that were claimed or not dropped. -/
theorem Effect.owned_iff {t t' : TrackedLists O E} {o : O} {claimed dropped : Set E}
    (h : Effect o (t.elements o) (t'.elements o) t.owner t'.owner claimed dropped)
    (howned : t.Owned) (hothers : ∀ o' ≠ o, t'.elements o' = t.elements o') :
    t'.Owned ↔ (∀ e ∈ t'.elements o, e ∉ t.elements o → ∀ o' ≠ o, e ∉ t.elements o') ∧
      ∀ e ∈ t.elements o, e ∈ t'.elements o ↔ e ∈ claimed ∨ e ∉ dropped := by
  constructor
  · intro howned'
    refine ⟨?_, ?_⟩
    · intro e hnew hold o' ho' hin
      have hmine : t'.owner e = some o := (howned' o e).mpr hnew
      rw [← hothers o' ho'] at hin
      have hother : t'.owner e = some o' := (howned' o' e).mpr hin
      exact ho' (Option.some.inj (hother.symm.trans hmine))
    · intro e he
      have hpoint : t.owner e = some o := (howned o e).mpr he
      rw [← howned' o e]
      by_cases hc : e ∈ claimed
      · exact ⟨fun _ => Or.inl hc, fun _ => h.claims e hc⟩
      · by_cases hd : e ∈ dropped
        · rw [h.drops e hc hd hpoint]
          simp [hc, hd]
        · rw [h.keeps e hc (Or.inl hd)]
          exact ⟨fun _ => Or.inr hd, fun _ => hpoint⟩
  · rintro ⟨hfresh, hold⟩ o' e
    by_cases ho : o' = o
    · subst ho
      by_cases hc : e ∈ claimed
      · exact ⟨fun _ => h.claimed_new e hc, fun _ => h.claims e hc⟩
      · by_cases he : e ∈ t.elements o'
        · have hpoint : t.owner e = some o' := (howned o' e).mpr he
          rw [hold e he]
          by_cases hd : e ∈ dropped
          · rw [h.drops e hc hd hpoint]
            simp [hc, hd]
          · rw [h.keeps e hc (Or.inl hd)]
            exact ⟨fun _ => Or.inr hd, fun _ => hpoint⟩
        · have hpoint : t.owner e ≠ some o' := fun hp => he ((howned o' e).mp hp)
          rw [h.keeps e hc (Or.inr hpoint)]
          refine ⟨fun hp => absurd hp hpoint, fun hnew => ?_⟩
          rcases h.new_claimed e hnew with hin | hin
          · exact absurd hin he
          · exact absurd hin hc
    · rw [hothers o' ho, ← howned o' e]
      by_cases hc : e ∈ claimed
      · -- A claimed element was in the list before, or is in no other.
        rw [h.claims e hc]
        refine ⟨fun hp => absurd (Option.some.inj hp).symm ho, fun hp => ?_⟩
        by_cases he : e ∈ t.elements o
        · rw [(howned o e).mpr he] at hp
          exact absurd (Option.some.inj hp).symm ho
        · exact absurd ((howned o' e).mp hp) (hfresh e (h.claimed_new e hc) he o' ho)
      · by_cases hp : t.owner e = some o
        · have hne : t.owner e ≠ some o' := fun hp' => ho (Option.some.inj (hp'.symm.trans hp))
          by_cases hd : e ∈ dropped
          · rw [h.drops e hc hd hp]
            refine ⟨fun hn => ?_, fun hn => absurd hn hne⟩
            cases hn
          · rw [h.keeps e hc (Or.inl hd)]
        · rw [h.keeps e hc (Or.inr hp)]

/-! ### The listener of a stylesheet -/

omit [DecidableEq O] in
theorem assign_apply (o : O) (es : List E) (owner : E → Option O) (e : E) :
    assign o es owner e = if e ∈ es then some o else owner e := by
  induction es generalizing owner with
  | nil => rfl
  | cons x es ih =>
    show assign o es (Function.update owner x (some o)) e = _
    rw [ih]
    by_cases hx : e = x
    · subst hx
      simp
    · simp [hx]

theorem release_apply (o : O) (es : List E) (owner : E → Option O) (e : E) :
    release o es owner e = if e ∈ es ∧ owner e = some o then none else owner e := by
  induction es generalizing owner with
  | nil => simp [release]
  | cons x es ih =>
    show release o es _ e = _
    rw [ih]
    by_cases hx : e = x
    · subst hx
      by_cases hp : owner e = some o
      · simp [hp]
      · simp [hp]
    · by_cases hp : owner x = some o
      · simp [hp, hx]
      · simp [hp, hx]

namespace Stylesheet

theorem onChanged_cons (s : O) (list : List E) (r : SubChange E) (changes : List (SubChange E))
    (owner : E → Option O) :
    onChanged s ⟨list, r :: changes⟩ owner = onChanged s ⟨list, changes⟩
      (if r.wasAdded then assign s (r.getAddedSubList list) owner
      else if r.wasRemoved then release s r.getRemoved owner
      else owner) := rfl

theorem onChanged_claims (s : O) (list : List E) : ∀ (changes : List (SubChange E))
    (owner : E → Option O), (∀ r ∈ changes, r.wasAdded = true ∨ r.getRemoved = []) → ∀ e,
    onChanged s ⟨list, changes⟩ owner e = if ∃ r ∈ changes, e ∈ r.getAddedSubList list then some s else owner e := by
  intro changes
  induction changes with
  | nil => intro owner _ e; simp [onChanged]
  | cons r changes ih =>
    intro owner h e
    rw [onChanged_cons, ih _ fun x hx => h x (mem_cons_of_mem r hx)]
    by_cases hadd : r.wasAdded = true
    · rw [if_pos hadd, assign_apply]
      by_cases hr : e ∈ r.getAddedSubList list
      · simp [hr]
      · simp [hr]
    · have hnone : r.getAddedSubList list = [] := by
        rw [SubChange.getAddedSubList, if_neg hadd]
      have hremoved : r.getRemoved = [] := (h r (by simp)).resolve_left hadd
      have hwas : ¬ r.wasRemoved = true := by simp [SubChange.wasRemoved, hremoved]
      rw [if_neg hadd, if_neg hwas]
      simp [hnone]

theorem onChanged_drops (s : O) (list : List E) : ∀ (changes : List (SubChange E))
    (owner : E → Option O), (∀ r ∈ changes, r.wasAdded = false) → ∀ e,
    onChanged s ⟨list, changes⟩ owner e
      = if (∃ r ∈ changes, e ∈ r.getRemoved) ∧ owner e = some s then none else owner e := by
  intro changes
  induction changes with
  | nil => intro owner _ e; simp [onChanged]
  | cons r changes ih =>
    intro owner h e
    have hadd : ¬ r.wasAdded = true := by simp [h r (by simp)]
    rw [onChanged_cons, ih _ fun x hx => h x (mem_cons_of_mem r hx), if_neg hadd]
    by_cases hremoved : r.getRemoved = []
    · have hwas : ¬ r.wasRemoved = true := by simp [SubChange.wasRemoved, hremoved]
      rw [if_neg hwas]
      simp [hremoved]
    · have hwas : r.wasRemoved = true := by simpa [SubChange.wasRemoved] using hremoved
      rw [if_pos hwas, release_apply]
      by_cases hr : e ∈ r.getRemoved
      · by_cases hp : owner e = some s
        · simp [hr]
        · simp [hr]
      · simp [hr]

end Stylesheet

/-! ### Calls that are heard -/

/-- Nothing is replaced, and what is removed is not in the list any more. -/
def Tended (l : List E) (c : ListCall E) : Prop :=
  match c with
  | .add _ | .addAt _ _ | .addAll _ | .addAllAt _ _ | .sort _ => True
  | .set _ _ | .setAll _ => l ⊆ c.contents l ∨ c.contents l = []
  | .remove _ | .removeAt _ | .removeRange _ _ | .removeAll _ | .retainAll _ | .clear =>
    ∀ e ∈ c.contents l, l.count e ≤ (c.contents l).count e

/-- A change to `new`, with what the listener of a stylesheet makes of it, keeps the
pointers of the old elements right if and only if `P`. -/
def Answers (s : O) (old new : List E) (fired : List (Change E)) (P : Prop) : Prop :=
  ∀ owner : E → Option O, ∃ claimed dropped : Set E, Effect s old new owner
      (fired.foldl (fun owner change => Stylesheet.onChanged s change owner) owner) claimed dropped ∧
    ((∀ e ∈ old, e ∈ new ↔ e ∈ claimed ∨ e ∉ dropped) ↔ P)

theorem answers_nothing (s : O) (h : ∀ e, e ∈ new ↔ e ∈ old) {P : Prop} (hP : P) : Answers s old new [] P := by
  intro owner
  refine ⟨∅, ∅, Effect.none s owner fun e he => (h e).mp he, ?_⟩
  simp only [hP, iff_true]
  intro e he
  simp [(h e).mpr he]

theorem answers_claims (s : O) {c : Change E} (hrecords : ∀ r ∈ c.changes, r.wasAdded = true ∨ r.getRemoved = [])
    (hclaimed : ∀ e, (∃ r ∈ c.changes, e ∈ r.getAddedSubList c.list) → e ∈ new)
    (hnew : ∀ e ∈ new, e ∈ old ∨ ∃ r ∈ c.changes, e ∈ r.getAddedSubList c.list) :
    Answers s old new [c] (old ⊆ new) := by
  intro owner
  have happly := Stylesheet.onChanged_claims s c.list c.changes owner hrecords
  refine ⟨{e | ∃ r ∈ c.changes, e ∈ r.getAddedSubList c.list}, ∅, ⟨?_, ?_, ?_, hclaimed, hnew⟩, ?_⟩
  · intro e he
    have he' : ∃ r ∈ c.changes, e ∈ r.getAddedSubList c.list := he
    rw [foldl_cons, foldl_nil, happly, if_pos he']
  · intro e _ he
    exact absurd he (Set.notMem_empty e)
  · intro e he _
    have he' : ¬ ∃ r ∈ c.changes, e ∈ r.getAddedSubList c.list := he
    rw [foldl_cons, foldl_nil, happly, if_neg he']
  · constructor
    · intro h e he
      exact (h e he).mpr (Or.inr (Set.notMem_empty e))
    · intro h e he
      exact ⟨fun _ => Or.inr (Set.notMem_empty e), fun _ => h he⟩

theorem answers_drops (s : O) {c : Change E}
    (hrecords : ∀ r ∈ c.changes, r.wasAdded = false) (hnew : ∀ e ∈ new, e ∈ old) :
    Answers s old new [c] (∀ e ∈ old, e ∈ new ↔ ¬ ∃ r ∈ c.changes, e ∈ r.getRemoved) := by
  intro owner
  have happly := Stylesheet.onChanged_drops s c.list c.changes owner hrecords
  refine ⟨∅, {e | ∃ r ∈ c.changes, e ∈ r.getRemoved}, ⟨?_, ?_, ?_, ?_, ?_⟩, ?_⟩
  · intro e he
    exact absurd he (Set.notMem_empty e)
  · intro e _ he hp
    have he' : ∃ r ∈ c.changes, e ∈ r.getRemoved := he
    rw [foldl_cons, foldl_nil, happly, if_pos ⟨he', hp⟩]
  · intro e _ he
    rw [foldl_cons, foldl_nil, happly, if_neg]
    rintro ⟨hin, hp⟩
    rcases he with he | he
    · exact he hin
    · exact he hp
  · intro e he
    exact absurd he (Set.notMem_empty e)
  · intro e he
    exact Or.inl (hnew e he)
  · simp only [Set.mem_empty_iff_false, false_or]
    exact Iff.rfl

theorem Answers.congr {s : O} {fired : List (Change E)} {P Q : Prop}
    (h : Answers s old new fired P) (hPQ : P ↔ Q) : Answers s old new fired Q := by
  intro owner
  obtain ⟨claimed, dropped, heffect, hiff⟩ := h owner
  exact ⟨claimed, dropped, heffect, hiff.trans hPQ⟩

section
variable (s : O) {w : ObservableListWrapper E Unit} {c : ListCall E}

theorem answers_adds (h : OverArrayList w) (hex : w.exposed = true) (hno : w.leaks c = false)
    (hc : c.adds = true) (hidle : w.changeBuilder = {}) :
    Answers s w.backingList (c.contents w.backingList) ((c.run w).2.fired.drop w.fired.length)
      True := by
  rcases heard_cases h hex hno with ⟨hnone, hsame⟩ | ⟨change, hfired, hreplay⟩
  · rw [hnone]
    exact answers_nothing s (fun e => by rw [hsame]) trivial
  · have hrecords := tells_one (adds_run hc w (tells_idle Adds hidle)) hfired
    have hempty : ∀ r ∈ change.changes, r.getRemoved = [] := fun r hr => by
      rw [SubChange.getRemoved, (hrecords r hr).removed]
      rfl
    have hbalance := replay_balance hreplay (fun r hr => (hrecords r hr).perm) (fun r hr => (hrecords r hr).updated)
    have hzero : ∀ e, (change.changes.map fun r => r.getRemoved.count e).sum = 0 := fun e => by
      rw [sum_count_eq_zero]
      rintro ⟨r, hr, he⟩
      simp [hempty r hr] at he
    have hmem : ∀ e, e ∈ c.contents w.backingList ↔
        e ∈ w.backingList ∨ ∃ r ∈ change.changes, e ∈ r.getAddedSubList change.list := by
      intro e
      have hb := hbalance e
      have hs := sum_count_eq_zero change.changes (fun r => r.getAddedSubList change.list) e
      rw [hzero e] at hb
      rw [← count_pos_iff, ← count_pos_iff, ← not_iff_not, not_or, ← hs]
      omega
    rw [told hfired]
    refine (answers_claims s (fun r hr => Or.inr (hempty r hr))
      (fun e he => (hmem e).mpr (Or.inr he)) (fun e he => (hmem e).mp he)).congr ?_
    simp only [iff_true]
    exact fun e he => (hmem e).mpr (Or.inl he)

theorem answers_removes (h : OverArrayList w) (hex : w.exposed = true) (hno : w.leaks c = false)
    (hc : c.removes = true) (hidle : w.changeBuilder = {}) :
    Answers s w.backingList (c.contents w.backingList) ((c.run w).2.fired.drop w.fired.length)
      (∀ e ∈ c.contents w.backingList, w.backingList.count e ≤ (c.contents w.backingList).count e) := by
  rcases heard_cases h hex hno with ⟨hnone, hsame⟩ | ⟨change, hfired, hreplay⟩
  · rw [hnone]
    exact answers_nothing s (fun e => by rw [hsame]) (fun e _ => by rw [hsame])
  · have hrecords := tells_one (removes_run hc w (tells_idle Removes hidle)) hfired
    have hadded : ∀ r ∈ change.changes, r.wasAdded = false := fun r hr => by
      have := (hrecords r hr).empty
      simp [SubChange.wasAdded, this]
    have hbalance := replay_balance hreplay (fun r hr => (hrecords r hr).plain.perm)
      (fun r hr => (hrecords r hr).plain.updated)
    have hzero : ∀ e, (change.changes.map fun r => (r.getAddedSubList change.list).count e).sum = 0 :=
      fun e => by
        rw [sum_count_eq_zero]
        rintro ⟨r, hr, he⟩
        simp [SubChange.getAddedSubList, hadded r hr] at he
    have hcount : ∀ e, (c.contents w.backingList).count e
        + (change.changes.map fun r => r.getRemoved.count e).sum = w.backingList.count e := by
      intro e
      have := hbalance e
      rw [hzero e] at this
      omega
    rw [told hfired]
    refine (answers_drops s hadded fun e he => ?_).congr ⟨fun hall e he => ?_, fun hall e he => ?_⟩
    · have := hcount e
      have hpos := List.count_pos_iff.mpr he
      exact List.count_pos_iff.mp (by omega)
    · have hold : e ∈ w.backingList := by
        have := hcount e
        have hpos := List.count_pos_iff.mpr he
        exact List.count_pos_iff.mp (by omega)
      have hsum := (sum_count_eq_zero _ _ e).mpr ((hall e hold).mp he)
      have := hcount e
      omega
    · have hs := sum_count_eq_zero change.changes (fun r => r.getRemoved) e
      have := hcount e
      rw [← hs]
      constructor
      · intro hin
        have := hall e hin
        omega
      · intro hsum
        have hpos := List.count_pos_iff.mpr he
        exact List.count_pos_iff.mp (by omega)

end

section
variable (s : O) {w : ObservableListWrapper E Unit}

theorem answers_one {old new added : List E} {list : List E} {r : SubChange E}
    (hr : r.wasAdded = true) (hadded : r.getAddedSubList list = added) (hin : ∀ e ∈ added, e ∈ new)
    (hnew : ∀ e ∈ new, e ∈ old ∨ e ∈ added) (hne : new ≠ []) :
    Answers s old new [⟨list, [r]⟩] (old ⊆ new ∨ new = []) := by
  have hone : ∀ e, (∃ x ∈ [r], e ∈ x.getAddedSubList list) ↔ e ∈ added := by
    intro e
    rw [← hadded]
    simp
  refine (answers_claims s ?_ ?_ ?_).congr (by simp [hne])
  · intro x hx
    obtain rfl := List.mem_singleton.mp hx
    exact Or.inl hr
  · exact fun e he => hin e ((hone e).mp he)
  · exact fun e he => (hnew e he).imp_right (hone e).mpr

theorem answers_set (h : OverArrayList w) (hl : w.hasListeners = true) (hidle : w.changeBuilder = {})
    (i : Int) (x : E) :
    Answers s w.backingList ((ListCall.set i x).contents w.backingList)
      (((ListCall.set i x).run w).2.fired.drop w.fired.length)
      (Tended w.backingList (.set i x)) := by
  have hrun : ((ListCall.set i x).run w).2.fired = (ObservableListWrapper.set i x w).2.fired := by
    rw [ListCall.run, bind_pure_snd]
  rw [hrun]
  rcases at_or_none i w.backingList with ⟨n, old, rfl, hold⟩ | hnone
  · have hn : n < w.backingList.length := (List.getElem?_eq_some_iff.mp hold).1
    have hadded : SubChange.getAddedSubList (w.backingList.set n x) ⟨n, n + 1, some [old], [], false⟩ = [x] := by
      rw [getAddedSubList_eq rfl rfl]
      show ((w.backingList.set n x).drop n).take ((n : Int) + 1 - n).toNat = [x]
      have hn' : n < (w.backingList.set n x).length := by simpa using hn
      rw [drop_eq_getElem_cons hn']
      simp
    have hin : x ∈ w.backingList.set n x := mem_set hn x
    rw [told (set_fires h hidle hl hold x)]
    refine answers_one s ?_ hadded ?_ ?_ (ne_nil_of_mem hin)
    · simp only [SubChange.wasAdded, SubChange.wasPermutated, isEmpty_nil, Bool.not_true,
        Bool.not_false, Bool.true_and, decide_eq_true_eq]
      omega
    · intro e he
      obtain rfl := List.mem_singleton.mp he
      exact hin
    · intro e he
      rcases mem_or_eq_of_mem_set he with he | rfl
      · exact Or.inl he
      · exact Or.inr (by simp)
  · have hcontents : (ListCall.set i x).contents w.backingList = w.backingList := by
      rw [ListCall.contents]
      split
      · rename_i hi
        rw [if_pos hi, List.getElem?_eq_none_iff] at hnone
        exact set_eq_of_length_le hnone
      · rfl
    have hfired : (ObservableListWrapper.set i x w).2.fired = w.fired ++ [] := by
      rw [set_silent hnone, append_nil]
    rw [told hfired, Tended, hcontents]
    exact answers_nothing s (fun e => Iff.rfl) (Or.inl (List.Subset.refl _))

theorem answers_setAll (h : OverArrayList w) (hl : w.hasListeners = true)
    (hidle : w.changeBuilder = {}) (col : Collection E) :
    Answers s w.backingList ((ListCall.setAll col).contents w.backingList)
      (((ListCall.setAll col).run w).2.fired.drop w.fired.length)
      (Tended w.backingList (.setAll col)) := by
  have hrun : ((ListCall.setAll col).run w).2.fired = (setAll col w).2.fired := by
    rw [ListCall.run, bind_pure_snd]
  have hcontents := setAll_contents col h
  rw [hrun, Tended]
  rcases setAll_cases w col with ⟨-, r, hsame⟩ | ⟨-, hreplace⟩
  · rw [hsame] at hcontents ⊢
    rw [← hcontents, drop_length]
    exact answers_nothing s (fun e => Iff.rfl) (Or.inl (List.Subset.refl _))
  · rw [hreplace] at hcontents ⊢
    have hfired := replaceAll_fires h hidle hl col
    rw [replaceAll_contents col h] at hcontents
    rw [told hfired, ← hcontents]
    generalize (col.iterate []).1 = new
    by_cases hempty : w.backingList = [] ∧ new.length = 0
    · rw [refilled, if_pos hempty, List.length_eq_zero_iff.mp hempty.2]
      exact answers_nothing s (fun e => by rw [hempty.1]) (Or.inr rfl)
    · rw [refilled, if_neg hempty]
      by_cases hpos : 0 < new.length
      · have hadded : SubChange.getAddedSubList new ⟨0, new.length, some w.backingList, [], false⟩ = new := by
          rw [getAddedSubList_eq rfl rfl]
          show (new.drop 0).take ((new.length : Int) - 0).toNat = new
          simp
        refine answers_one s ?_ hadded (fun e he => he) (fun e he => Or.inr he) (ne_nil_of_length_pos hpos)
        simpa [SubChange.wasAdded, SubChange.wasPermutated] using hpos
      · obtain rfl : new = [] := List.length_eq_zero_iff.mp (by omega)
        refine (answers_drops s ?_ (by simp)).congr ?_
        · intro r hr
          obtain rfl := List.mem_singleton.mp hr
          rfl
        · simp [SubChange.getRemoved]

theorem answers_sort (h : OverArrayList w) (compare : E → E → Except JavaException Int) :
    Answers s w.backingList ((ListCall.sort compare).contents w.backingList)
      (((ListCall.sort compare).run w).2.fired.drop w.fired.length) True := by
  rw [ListCall.run]
  rcases sort_cases compare h with ⟨hsame, hcontents⟩ |
    ⟨perm, w', hne, hperm, hlen, hsilent, -, hlist, hcontents, hrun⟩
  · rw [hsame, hcontents, drop_length]
    exact answers_nothing s (fun e => Iff.rfl) trivial
  · have hmem : ∀ e, e ∈ permute perm w.backingList ↔ e ∈ w.backingList :=
      fun e => (permute_perm hperm hlen).mem_iff
    rw [hrun, hcontents, fireChange, modify_apply]
    split
    · have hfired : ({ w' with fired := w'.fired ++ [⟨w'.backingList,
          [⟨0, w'.backingList.length, some [], perm, false⟩]⟩] } :
          ObservableListWrapper E Unit).fired = w.fired ++ [⟨w'.backingList,
          [⟨0, w'.backingList.length, some [], perm, false⟩]⟩] := by
        rw [hsilent.fired]
      rw [told hfired]
      have hnot : (⟨0, w'.backingList.length, some [], perm, false⟩ : SubChange E).wasAdded = false := by
        simp [SubChange.wasAdded, SubChange.wasPermutated, hne]
      refine (answers_claims s ?_ ?_ ?_).congr ?_
      · intro r hr
        obtain rfl := List.mem_singleton.mp hr
        exact Or.inr rfl
      · rintro e ⟨r, hr, he⟩
        obtain rfl := List.mem_singleton.mp hr
        rw [SubChange.getAddedSubList, if_neg (by simp [hnot])] at he
        simp at he
      · exact fun e he => Or.inl ((hmem e).mp he)
      · simp only [iff_true]
        exact fun e he => (hmem e).mpr he
    · rw [hsilent.fired, drop_length]
      exact answers_nothing s hmem trivial

end

/-- **A call that is heard** keeps the pointers of the elements that were in the list right
if and only if it is tended. -/
theorem run_answers (s : O) {w : ObservableListWrapper E Unit} (h : OverArrayList w)
    {c : ListCall E} (hex : w.exposed = true) (hno : w.leaks c = false) :
    Answers s w.backingList (c.contents w.backingList) ((c.run w).2.fired.drop w.fired.length)
      (Tended w.backingList c) := by
  obtain ⟨hlock, hl⟩ : w.changeBuilder.changeLock = 0 ∧ w.hasListeners = true := by
    simpa [exposed] using hex
  have hidle : w.changeBuilder = {} := h.wellFormed.idle hlock
  cases c with
  | add e => exact answers_adds s h hex hno rfl hidle
  | addAt i e => exact answers_adds s h hex hno rfl hidle
  | addAll c => exact answers_adds s h hex hno rfl hidle
  | addAllAt i c => exact answers_adds s h hex hno rfl hidle
  | set i e => exact answers_set s h hl hidle i e
  | setAll col => exact answers_setAll s h hl hidle col
  | remove equals => exact answers_removes s h hex hno rfl hidle
  | removeAt i => exact answers_removes s h hex hno rfl hidle
  | removeRange lo hi => exact answers_removes s h hex hno rfl hidle
  | removeAll c => exact answers_removes s h hex hno rfl hidle
  | retainAll c => exact answers_removes s h hex hno rfl hidle
  | clear => exact answers_removes s h hex hno rfl hidle
  | sort compare => exact answers_sort s h compare

/-! ### One call -/

namespace TrackedLists

/-- Array lists, all with a listener or all without. -/
def Tracking (hasListeners : Bool) (t : TrackedLists O E) : Prop :=
  ∀ o, OverArrayList (t.list o) ∧ (t.list o).hasListeners = hasListeners

/-- The call fires what it does. -/
def heard (t : TrackedLists O E) (o : O) (c : ListCall E) : Bool :=
  (t.list o).exposed && !(t.list o).leaks c

/-- A call that is heard brings nothing into the list that is in another one, and is
tended.  A call that is not heard leaves the same elements in the list. -/
def Orderly (t : TrackedLists O E) (o : O) (c : ListCall E) : Prop :=
  if t.heard o c then
    (∀ e ∈ c.contents (t.elements o), e ∉ t.elements o → ∀ o' ≠ o, e ∉ t.elements o') ∧ Tended (t.elements o) c
  else ∀ e, e ∈ c.contents (t.elements o) ↔ e ∈ t.elements o

section
variable {t : TrackedLists O E} {b : Bool} {o : O} {c : ListCall E}
  (onChanged : O → Change E → (E → Option O) → E → Option O)

theorem call_list : (t.call onChanged o c).list o = (c.run (t.list o)).2 :=
  Function.update_self o _ t.list

theorem call_list_other {o' : O} (ho : o' ≠ o) : (t.call onChanged o c).list o' = t.list o' :=
  Function.update_of_ne ho _ t.list

theorem elements_call (h : t.Tracking b) : (t.call onChanged o c).elements o = c.contents (t.elements o) := by
  rw [elements, call_list]
  exact run_contents (h o).1 c

theorem elements_call_other {o' : O} (ho : o' ≠ o) : (t.call onChanged o c).elements o' = t.elements o' := by
  rw [elements, call_list_other onChanged ho]
  rfl

theorem Tracking.call (h : t.Tracking b) : (t.call onChanged o c).Tracking b := by
  intro o'
  by_cases ho : o' = o
  · subst ho
    rw [call_list]
    exact ⟨overArrayList_invariant.run c _ (h o').1, (hasListeners_invariant b).run c _ (h o').2⟩
  · rw [call_list_other onChanged ho]
    exact h o'

/-- Nobody is told, so the list has to hold the same elements. -/
theorem owned_silent_iff (h : t.Tracking b) (howned : t.Owned)
    (hsilent : (c.run (t.list o)).2.fired = (t.list o).fired) :
    (t.call onChanged o c).Owned ↔ ∀ e, e ∈ c.contents (t.elements o) ↔ e ∈ t.elements o := by
  have howner : (t.call onChanged o c).owner = t.owner := by
    rw [TrackedLists.call, hsilent, drop_length]
    rfl
  constructor
  · intro howned' e
    rw [← elements_call onChanged h, ← howned' o e, howner, howned o e]
  · intro hsame o' e
    rw [howner, howned o' e]
    by_cases ho : o' = o
    · subst ho
      rw [elements_call onChanged h, hsame e]
    · rw [elements_call_other onChanged ho]

theorem unheard_owned_iff (h : t.Tracking false) (howned : t.Owned) :
    (t.call onChanged o c).Owned ↔ t.Orderly o c := by
  have hl := (h o).2
  have hsilent := ((unheard_invariant (t.list o).fired).run c _ ⟨hl, rfl⟩).2
  have hheard : t.heard o c = false := by simp [heard, exposed, hl]
  rw [owned_silent_iff onChanged h howned hsilent, Orderly, hheard]
  rfl

end

theorem answers_owned_iff {t : TrackedLists O E} {b : Bool} {s : O} {c : ListCall E} {P : Prop}
    (h : t.Tracking b) (howned : t.Owned)
    (hanswers : Answers s (t.list s).backingList (c.contents (t.list s).backingList)
      ((c.run (t.list s)).2.fired.drop (t.list s).fired.length) P) :
    (t.call Stylesheet.onChanged s c).Owned ↔
      (∀ e ∈ c.contents (t.elements s), e ∉ t.elements s → ∀ o' ≠ s, e ∉ t.elements o') ∧ P := by
  obtain ⟨claimed, dropped, heffect, hiff⟩ := hanswers t.owner
  have hnew := elements_call Stylesheet.onChanged h (o := s) (c := c)
  have heffect' : Effect s (t.elements s) ((t.call Stylesheet.onChanged s c).elements s) t.owner
      (t.call Stylesheet.onChanged s c).owner claimed dropped := by
    rw [hnew]
    exact heffect
  rw [heffect'.owned_iff howned fun o' ho => elements_call_other Stylesheet.onChanged ho, hnew]
  exact and_congr_right fun _ => hiff

omit [DecidableEq O] [DecidableEq E] in
theorem sort_mem {w : ObservableListWrapper E Unit} (h : OverArrayList w)
    (compare : E → E → Except JavaException Int) (e : E) :
    e ∈ (ListCall.sort compare).contents w.backingList ↔ e ∈ w.backingList := by
  rcases sort_cases compare h with ⟨-, hcontents⟩ | ⟨perm, w', -, hperm, hlen, -, -, -, hcontents, -⟩
  · rw [hcontents]
  · rw [hcontents]
    exact (permute_perm hperm hlen).mem_iff

theorem rules_owned_iff {t : TrackedLists O E} {s : O} {c : ListCall E} (h : t.Tracking true)
    (howned : t.Owned) : (t.call Stylesheet.onChanged s c).Owned ↔ t.Orderly s c := by
  unfold Orderly
  cases hheard : t.heard s c with
  | true =>
    obtain ⟨hex, hno⟩ : (t.list s).exposed = true ∧ (t.list s).leaks c = false := by
      simpa [heard] using hheard
    exact answers_owned_iff h howned (run_answers s (h s).1 hex hno)
  | false =>
    by_cases hsort : ∃ compare, c = .sort compare
    · obtain ⟨compare, rfl⟩ := hsort
      have hmem := sort_mem (h s).1 compare
      rw [answers_owned_iff h howned (answers_sort s (h s).1 compare)]
      exact ⟨fun _ => hmem, fun _ => ⟨fun e he hne => absurd ((hmem e).mp he) hne, trivial⟩⟩
    · refine owned_silent_iff Stylesheet.onChanged h howned (run_silent (h s).1 ?_
        fun compare hc => hsort ⟨compare, hc⟩)
      by_cases hlock : (t.list s).changeBuilder.changeLock = 0
      · right
        simpa [heard, exposed, hlock, (h s).2] using hheard
      · exact Or.inl (Nat.pos_of_ne_zero hlock)

end TrackedLists

/-! ### Runs -/

section
variable {S R D L : Type} [DecidableEq S] [DecidableEq R] [DecidableEq D] [DecidableEq L]

namespace StyleModel

/-- All pointers are right. -/
def Owned (m : StyleModel S R D L) : Prop :=
  m.rules.Owned ∧ m.declarations.Owned ∧ m.selectors.Owned

/-- The lists are as the constructors make them. -/
structure Built (m : StyleModel S R D L) : Prop where
  rules : ∀ s, m.rules.list s = TrackableObservableList.new
  declarations : ∀ r, ∃ l, m.declarations.list r = TrackableObservableList.ofList l
  selectors : ∀ r, ∃ l, m.selectors.list r = TrackableObservableList.ofList l

/-- The condition on a call. -/
def Orderly (m : StyleModel S R D L) : StyleEdit S R D L → Prop
  | .rules s c => m.rules.Orderly s c
  | .declarations r c => m.declarations.Orderly r c
  | .selectors r c => m.selectors.Orderly r c

/-- All pointers are right at the start and after every call. -/
def OwnedThroughout : StyleModel S R D L → List (StyleEdit S R D L) → Prop
  | m, [] => m.Owned
  | m, edit :: edits => m.Owned ∧ OwnedThroughout (m.step edit) edits

/-- Every call meets its condition in the state it is made in. -/
def OrderlyThroughout : StyleModel S R D L → List (StyleEdit S R D L) → Prop
  | _, [] => True
  | m, edit :: edits => m.Orderly edit ∧ OrderlyThroughout (m.step edit) edits

/-- What the calls do not change. -/
structure Tracking (m : StyleModel S R D L) : Prop where
  rules : m.rules.Tracking true
  declarations : m.declarations.Tracking false
  selectors : m.selectors.Tracking false

variable {m : StyleModel S R D L}

omit [DecidableEq S] [DecidableEq R] [DecidableEq D] [DecidableEq L] in
theorem Built.tracking (h : m.Built) : m.Tracking := by
  refine ⟨fun s => ?_, fun r => ?_, fun r => ?_⟩
  · rw [h.rules s]
    exact ⟨⟨tidy_empty, rfl, rfl⟩, rfl⟩
  · obtain ⟨l, hl⟩ := h.declarations r
    rw [hl]
    exact ⟨⟨tidy_empty, rfl, rfl⟩, rfl⟩
  · obtain ⟨l, hl⟩ := h.selectors r
    rw [hl]
    exact ⟨⟨tidy_empty, rfl, rfl⟩, rfl⟩

theorem Tracking.step (h : m.Tracking) (edit : StyleEdit S R D L) : (m.step edit).Tracking := by
  cases edit with
  | rules s c => exact ⟨h.rules.call _, h.declarations, h.selectors⟩
  | declarations r c => exact ⟨h.rules, h.declarations.call _, h.selectors⟩
  | selectors r c => exact ⟨h.rules, h.declarations, h.selectors.call _⟩

theorem step_owned_iff (h : m.Tracking) (howned : m.Owned)
    (edit : StyleEdit S R D L) : (m.step edit).Owned ↔ m.Orderly edit := by
  obtain ⟨hrules, hdeclarations, hselectors⟩ := howned
  cases edit with
  | rules s c =>
    rw [Orderly, ← TrackedLists.rules_owned_iff h.rules hrules]
    exact ⟨fun h => h.1, fun h => ⟨h, hdeclarations, hselectors⟩⟩
  | declarations r c =>
    rw [Orderly, ← TrackedLists.unheard_owned_iff Rule.declarationsOnChanged h.declarations hdeclarations]
    exact ⟨fun h => h.2.1, fun h => ⟨hrules, h, hselectors⟩⟩
  | selectors r c =>
    rw [Orderly, ← TrackedLists.unheard_owned_iff Rule.selectorsOnChanged h.selectors hselectors]
    exact ⟨fun h => h.2.2, fun h => ⟨hrules, hdeclarations, h⟩⟩

theorem throughout_iff : ∀ (edits : List (StyleEdit S R D L)) {m : StyleModel S R D L}, m.Tracking →
    m.Owned → (m.OwnedThroughout edits ↔ m.OrderlyThroughout edits) := by
  intro edits
  induction edits with
  | nil => intro m _ howned; exact ⟨fun _ => trivial, fun _ => howned⟩
  | cons edit edits ih =>
    intro m h howned
    have hstep := step_owned_iff h howned edit
    constructor
    · rintro ⟨-, hrest⟩
      have howned' : (m.step edit).Owned := by
        cases edits with
        | nil => exact hrest
        | cons _ _ => exact hrest.1
      exact ⟨hstep.mp howned', (ih (h.step edit) howned').mp hrest⟩
    · rintro ⟨horderly, hrest⟩
      exact ⟨howned, (ih (h.step edit) (hstep.mpr horderly)).mpr hrest⟩

/-- **The pointers stay right exactly in orderly runs**: from lists as they are built, with
pointers that are right, they are right after every call of a run if and only if every call
of it is orderly. -/
theorem owned_iff_orderly (m : StyleModel S R D L) (hbuilt : m.Built) (howned : m.Owned)
    (edits : List (StyleEdit S R D L)) : m.OwnedThroughout edits ↔ m.OrderlyThroughout edits :=
  throughout_iff edits hbuilt.tracking howned

/-- One stylesheet without rules, and rules without declarations and selectors. -/
def blank : StyleModel Unit Nat Nat Nat where
  rules := ⟨fun _ => TrackableObservableList.new, fun _ => none⟩
  declarations := ⟨fun _ => TrackableObservableList.ofList [], fun _ => none⟩
  selectors := ⟨fun _ => TrackableObservableList.ofList [], fun _ => none⟩

theorem blank_built : blank.Built := ⟨fun _ => rfl, fun _ => ⟨[], rfl⟩, fun _ => ⟨[], rfl⟩⟩

theorem blank_owned : blank.Owned := by
  refine ⟨?_, ?_, ?_⟩
  · intro o e
    exact ⟨nofun, nofun⟩
  · intro o e
    exact ⟨nofun, nofun⟩
  · intro o e
    exact ⟨nofun, nofun⟩

theorem owned_iff_orderly_removed : (blank.step (.rules () (.add 1))).rules.owner 1 = some () ∧
    blank.OwnedThroughout [.rules () (.add 1), .rules () (.add 2), .rules () (.removeAt 0)] := by
  refine ⟨rfl, (owned_iff_orderly blank blank_built blank_owned _).mpr ⟨?_, ?_, ?_, trivial⟩⟩
  · exact ⟨fun _ _ _ o' ho => absurd rfl ho, trivial⟩
  · exact ⟨fun _ _ _ o' ho => absurd rfl ho, trivial⟩
  · refine ⟨fun _ _ _ o' ho => absurd rfl ho, ?_⟩
    show ∀ e ∈ [2], [1, 2].count e ≤ [2].count e
    decide

/-- A rule that is replaced by another keeps its pointer, and a declaration that is added
gets none. -/
theorem replaced_rule_keeps_pointer : blank.Built ∧ blank.Owned ∧
    ((blank.step (.rules () (.add 1))).step (.rules () (.set 0 2))).rules.elements () = [2] ∧
    ((blank.step (.rules () (.add 1))).step (.rules () (.set 0 2))).rules.owner 1 = some () ∧
    ¬ blank.OwnedThroughout [.rules () (.add 1), .rules () (.set 0 2)] ∧
    (blank.step (.declarations 0 (.add 7))).declarations.elements 0 = [7] ∧
    (blank.step (.declarations 0 (.add 7))).declarations.owner 7 = none ∧
    ¬ blank.OwnedThroughout [.declarations 0 (.add 7)] := by
  refine ⟨blank_built, blank_owned, rfl, rfl, ?_, rfl, rfl, ?_⟩
  · rintro ⟨-, -, howned, -⟩
    have hmem := (howned () 1).mp rfl
    revert hmem
    decide
  · rintro ⟨-, -, howned, -⟩
    have howner := (howned 0 7).mpr (by decide)
    cases howner

end StyleModel

end

end JavaFX
