/-
What a call on a list over an array list tells its listeners, counted.

A call that is heard fires at most one change.  The change removes and adds elements, or it
moves them: either way the elements of the old list and those it adds are those of the new
list and those it removes.
-/
import JavaFX.Css.Ownership
import JavaFX.Proofs.ObservableListWrapper.Kinds

namespace JavaFX

open Program EditScript ListChangeBuilder ObservableListWrapper IndexTable List

variable {E : Type} [DecidableEq E]

/-! ### What a fired change says -/

omit [DecidableEq E] in
theorem getAddedSubList_eq {list : List E} {r : SubChange E} (hperm : r.perm = [])
    (hupdated : r.updated = false) : r.getAddedSubList list = r.toEdit.added list := by
  unfold SubChange.getAddedSubList Edit.added SubChange.toEdit
  by_cases hlt : r.from < r.to
  · rw [if_pos (by simp [SubChange.wasAdded, SubChange.wasPermutated, hperm, hupdated, hlt])]
  · rw [if_neg (by simp [SubChange.wasAdded, hlt]),
      show (r.to - r.from).toNat = 0 by omega, take_zero]

section
variable {c : Change E} {old new : List E} (h : c.replay old = some new)
  (hperm : ∀ r ∈ c.changes, r.perm = []) (hupdated : ∀ r ∈ c.changes, r.updated = false)
include h hperm hupdated

theorem replay_records : EditScript.replay c.list (edits c.changes) old = some new := by
  have hfilter : c.changes.filter (fun r => !r.updated) = c.changes :=
    List.filter_eq_self.mpr fun r hr => by simp [hupdated r hr]
  unfold Change.replay at h
  cases hc : c.changes with
  | nil => rw [hc] at h; exact h
  | cons r rest =>
    have hr : r.wasPermutated = false := by
      simp [SubChange.wasPermutated, hperm r (by simp [hc])]
    rw [hc] at h
    simp only [hr] at h
    rw [← hc, hfilter, hc] at h
    exact h

theorem replay_balance (e : E) :
    new.count e + (c.changes.map fun r => r.getRemoved.count e).sum
      = old.count e + (c.changes.map fun r => (r.getAddedSubList c.list).count e).sum := by
  have hcount := replay_count c.list e (edits c.changes) (replay_records h hperm hupdated)
  have hadded : c.changes.map (fun r => (r.getAddedSubList c.list).count e)
      = c.changes.map (fun r => (r.toEdit.added c.list).count e) :=
    map_congr_left fun r hr => by rw [getAddedSubList_eq (hperm r hr) (hupdated r hr)]
  rw [hadded]
  simpa [edits, Function.comp_def, SubChange.toEdit] using hcount

end

theorem sum_count_eq_zero (changes : List (SubChange E)) (f : SubChange E → List E) (e : E) :
    (changes.map fun r => (f r).count e).sum = 0 ↔ ¬ ∃ r ∈ changes, e ∈ f r := by
  induction changes with
  | nil => simp
  | cons r changes ih =>
    rw [map_cons, sum_cons, Nat.add_eq_zero_iff, ih, count_eq_zero]
    simp

section
variable {w : ObservableListWrapper E Unit} {c : ListCall E}

variable {w' : ObservableListWrapper E Unit} {change : Change E}

variable {changes : List (Change E)}

omit [DecidableEq E] in
theorem told {w : ObservableListWrapper E Unit}
    (h : w'.fired = w.fired ++ changes) : w'.fired.drop w.fired.length = changes := by
  rw [h, drop_left]

/-- A call that owes its listeners a change fires one, or none if there is nothing to tell. -/
theorem heard_cases (h : OverArrayList w) (hex : w.exposed = true) (hno : w.leaks c = false) :
    ((c.run w).2.fired.drop w.fired.length = [] ∧ c.contents w.backingList = w.backingList) ∨
    ∃ change, (c.run w).2.fired = w.fired ++ [change] ∧
      change.replay w.backingList = some (c.contents w.backingList) := by
  obtain ⟨hlock, hl⟩ : w.changeBuilder.changeLock = 0 ∧ w.hasListeners = true := by
    simpa [exposed] using hex
  rw [← run_contents h c]
  rcases run_judged h.wellFormed c with ⟨-, -, hn⟩ | ⟨hyes, -⟩
  · obtain ⟨changes, hfired, hlen, hsame, hreplay⟩ := hn hlock hl
    rcases changes with _ | ⟨change, _ | ⟨_, _⟩⟩
    · exact Or.inl ⟨told hfired, hsame rfl hl⟩
    · exact Or.inr ⟨change, hfired, hreplay change (by simp)⟩
    · simp at hlen
  · rw [hno] at hyes
    cases hyes

omit [DecidableEq E] in
theorem tells_one {Q : SubChange E → Prop} {w : ObservableListWrapper E Unit}
    (h : Tells Q w w') (hfired : w'.fired = w.fired ++ [change]) : ∀ r ∈ change.changes, Q r := by
  obtain ⟨changes, hfired', hall⟩ := h.fired
  rw [hfired] at hfired'
  obtain rfl := append_cancel_left hfired'
  exact hall change (by simp)

/-- A record that adds and removes, and does nothing else. -/
def Ordinary (r : SubChange E) : Prop := r.perm = [] ∧ r.updated = false

omit [DecidableEq E] in
theorem change_eq {w : ObservableListWrapper E Unit} (h : w'.fired = w.fired ++ [change])
    (h' : w'.fired = w.fired ++ changes) : changes = [change] := by
  rw [h] at h'
  exact (append_cancel_left h').symm

/-- What a call fires: records that only add or only remove, records of the list as it is now, or a permutation. -/
theorem fired_cases (h : OverArrayList w) (hl : w.hasListeners = true) (hidle : w.changeBuilder = {})
    (hfired : (c.run w).2.fired = w.fired ++ [change]) :
    (c.adds = true ∧ ∀ r ∈ change.changes, Adds r) ∨ (∀ r ∈ change.changes, Removes r) ∨
      (change.list = c.contents w.backingList ∧ ∀ r ∈ change.changes, Ordinary r) ∨
      ∃ perm, change = ⟨c.contents w.backingList, [⟨0, w.backingList.length, some [], perm, false⟩]⟩ ∧ perm ≠ [] ∧
        (c.contents w.backingList).Perm w.backingList := by
  have hadds : c.adds = true → ∀ r ∈ change.changes, Adds r := fun hc =>
    tells_one (adds_run hc w (tells_idle Adds hidle)) hfired
  have hremoves : c.removes = true → ∀ r ∈ change.changes, Removes r := fun hc =>
    tells_one (removes_run hc w (tells_idle Removes hidle)) hfired
  cases c with
  | add e => exact .inl ⟨rfl, hadds rfl⟩
  | addAt i e => exact .inl ⟨rfl, hadds rfl⟩
  | addAll c => exact .inl ⟨rfl, hadds rfl⟩
  | addAllAt i c => exact .inl ⟨rfl, hadds rfl⟩
  | set i e =>
    rw [ListCall.run, bind_pure_snd] at hfired
    rcases at_or_none i w.backingList with ⟨n, old, rfl, hold⟩ | hnone
    · obtain rfl := List.cons.inj (change_eq hfired (set_fires h hidle hl hold e)) |>.1
      refine .inr (.inr (.inl ⟨by simp [ListCall.contents], fun r hr => ?_⟩))
      obtain rfl := List.mem_singleton.mp hr
      exact ⟨rfl, rfl⟩
    · rw [set_silent hnone] at hfired
      simp at hfired
  | setAll col =>
    rw [ListCall.run, bind_pure_snd] at hfired
    rcases setAll_cases w col with ⟨-, r, hsame⟩ | ⟨-, hreplace⟩
    · rw [hsame] at hfired
      simp at hfired
    · rw [hreplace] at hfired
      obtain ⟨r, hr, rfl⟩ := List.mem_map.mp (change_eq hfired (replaceAll_fires h hidle hl col) ▸ List.mem_singleton_self change)
      rw [refilled] at hr
      split at hr
      · cases hr
      · obtain rfl := List.mem_singleton.mp hr
        refine .inr (.inr (.inl ⟨?_, fun r hr => ?_⟩))
        · rw [← run_contents h, ListCall.run, bind_pure_snd, hreplace, replaceAll_contents col h]
        · obtain rfl := List.mem_singleton.mp hr
          exact ⟨rfl, rfl⟩
  | remove equals => exact .inr (.inl (hremoves rfl))
  | removeAt i => exact .inr (.inl (hremoves rfl))
  | removeRange lo hi => exact .inr (.inl (hremoves rfl))
  | removeAll c => exact .inr (.inl (hremoves rfl))
  | retainAll c => exact .inr (.inl (hremoves rfl))
  | clear => exact .inr (.inl (hremoves rfl))
  | sort compare =>
    rcases sort_cases compare h with ⟨hsame, -⟩ | ⟨perm, w', hne, hperm, hlen, hsilent, -, hlist, hcontents, hrun⟩
    · rw [ListCall.run, hsame] at hfired
      simp at hfired
    · rw [ListCall.run, hrun, fireChange, modify_apply, if_pos (hsilent.hasListeners.trans hl)] at hfired
      refine .inr (.inr (.inr ⟨perm, ?_, hne, hcontents ▸ permute_perm hperm hlen⟩))
      rw [hcontents, ← length_permute perm w.backingList, ← hlist]
      simpa [hsilent.fired] using hfired.symm

/-- **What a call adds and removes is what it tells**, counted. -/
theorem run_balance (h : OverArrayList w) (hex : w.exposed = true) (hno : w.leaks c = false) :
    ((c.run w).2.fired.drop w.fired.length = [] ∧ (c.run w).2.backingList = w.backingList) ∨
    ∃ change, (c.run w).2.fired = w.fired ++ [change] ∧ ∀ e,
      (c.run w).2.backingList.count e + (change.changes.flatMap (·.getRemoved)).count e = w.backingList.count e
          + (change.changes.flatMap (·.getAddedSubList change.list)).count e := by
  obtain ⟨hlock, hl⟩ : w.changeBuilder.changeLock = 0 ∧ w.hasListeners = true := by
    simpa [exposed] using hex
  have hidle : w.changeBuilder = {} := h.wellFormed.idle hlock
  rw [run_contents h c]
  rcases heard_cases h hex hno with hnone | ⟨change, hfired, hreplay⟩
  · exact .inl hnone
  · refine .inr ⟨change, hfired, ?_⟩
    have hordinary : (∀ r ∈ change.changes, Ordinary r) → ∀ e,
        (c.contents w.backingList).count e + (change.changes.flatMap (·.getRemoved)).count e = w.backingList.count e
          + (change.changes.flatMap (·.getAddedSubList change.list)).count e := by
      intro hrecords e
      have := replay_balance hreplay (fun r hr => (hrecords r hr).1) (fun r hr => (hrecords r hr).2) e
      simpa [count_flatMap, Function.comp_def] using this
    rcases fired_cases h hl hidle hfired with ⟨-, hadds⟩ | hremoves | ⟨-, hboth⟩ | ⟨perm, rfl, hne, hperm⟩
    · exact hordinary fun r hr => ⟨(hadds r hr).perm, (hadds r hr).updated⟩
    · exact hordinary fun r hr => ⟨(hremoves r hr).plain.perm, (hremoves r hr).plain.updated⟩
    · exact hordinary hboth
    · intro e
      rw [hperm.count_eq e]
      simp [SubChange.getRemoved, SubChange.getAddedSubList, SubChange.wasAdded, SubChange.wasPermutated, hne]

end

theorem hasListeners_invariant (b : Bool) : Invariant fun w : ObservableListWrapper E Unit => w.hasListeners = b where
  write f w h := by
    unfold ObservableListWrapper.write
    split
    · exact h
    · split
      · exact h
      · exact h
  beginChange w h := h
  mirror f hf w h := by
    unfold ObservableListWrapper.mirror
    split
    · exact h
    · exact h
  fireChange change w h := by
    rw [ObservableListWrapper.fireChange, modify_apply]
    split
    · exact h
    · exact h
  endChange w h := by
    unfold ObservableListWrapper.endChange
    split
    · rw [fireChange, modify_apply]
      split
      · exact h
      · exact h
    · exact h
    · exact h
  attachListener e w h := h
  detachListener e w h := by
    unfold ObservableListWrapper.detachListener
    split
    · exact h
    · split
      · exact h
      · exact h

end JavaFX
