/-
What the listener of an array list is told about new elements.

A call that adds tells of a change that replays, in order, what happened; so every element that is
new stands in an added range of it.  A call that replaces tells of the whole range it replaced, also
where an old element has come back.
-/
import JavaFX.Proofs.ObservableListWrapper.Kinds

namespace JavaFX.ObservableListWrapper

open Program EditScript ListChangeBuilder IndexTable List

variable {E Obs : Type} [DecidableEq E]

/-- The listener is told of a change that replays, or there is nothing to tell. -/
def Reports (w w' : ObservableListWrapper E Obs) : Prop :=
  ∃ changes, w'.fired = w.fired ++ changes ∧ (changes = [] → w'.backingList = w.backingList) ∧
    ∀ c ∈ changes, c.Replays w.backingList w'.backingList

section
variable {w w' : ObservableListWrapper E Obs}

theorem endChange_reports (h : Recording 0 w.backingList w w') (hl : w.hasListeners = true) :
    Reports w (endChange w').2 := by
  obtain ⟨fired, hend, -, hnone, hsome⟩ := Mirrors.endChange h.pending
  have hl' : w'.hasListeners = true := h.silent.hasListeners.trans hl
  cases fired with
  | none =>
    refine ⟨[], ?_, fun _ => ?_, by simp⟩
    · simp [endChange, hend, h.silent.fired]
    · simpa [endChange, hend] using hnone rfl
  | some c =>
    refine ⟨[c], ?_, by simp, ?_⟩
    · simp [endChange, hend, fireChange, hl', h.silent.fired]
    · rintro c' hc'
      obtain rfl := List.mem_singleton.mp hc'
      simpa [endChange, hend, fireChange, hl'] using hsome c' rfl

theorem block_reports {α : Type} {x : Call E Obs α} (hidle : w.changeBuilder = {}) (hl : w.hasListeners = true)
    (hx : Keeps (Recording 0 w.backingList w) x) : Reports w ((do beginChange; tryFinally x endChange) w).2 := by
  rw [bind_ok (beginChange_apply w), tryFinally_snd]
  exact endChange_reports (hx _ (recording_begin hidle)) hl

theorem addAt_reports (h : w.refuses = false) (hidle : w.changeBuilder = {}) (hl : w.hasListeners = true) {n : Nat}
    (hn : n ≤ w.backingList.length) (e : E) : Reports w (addAt n e w).2 := by
  rcases doAdd_cases (n : Int) e w with ⟨m, hm, -, -, hadd⟩ | ⟨ex, -, hr | hneg | hgt⟩
  · obtain rfl : n = m := Int.natCast_inj.mp hm
    have hmirrors : Mirrors 0 w.backingList (w.backingList.take n ++ w.backingList.drop n)
        w.changeBuilder.beginChange := by
      rw [take_append_drop]
      exact (recording_begin hidle).pending
    obtain ⟨b, hb, hmirrors'⟩ := hmirrors.nextAdd [e]
    rw [length_take_of_le hn] at hb
    have hmirror : mirror (fun b => b.nextAdd n (n + 1))
        { (w.attached e).written (w.backingList.take n ++ e :: w.backingList.drop n) with
          changeBuilder := w.changeBuilder.beginChange }
        = (.ok (), { (w.attached e).written (w.backingList.take n ++ e :: w.backingList.drop n) with
          changeBuilder := b }) := by
      have hb' : w.changeBuilder.beginChange.nextAdd n (n + 1) = .ok b := hb
      simp [mirror, hb']
    rw [addAt, bind_ok hadd, report, bind_ok (beginChange_apply _)]
    show Reports w ((mirror _ >>= fun _ => endChange) { (w.attached e).written
      (w.backingList.take n ++ e :: w.backingList.drop n) with changeBuilder := w.changeBuilder.beginChange }).2
    rw [bind_ok hmirror]
    exact endChange_reports ⟨hmirrors', rfl, rfl⟩ hl
  · rw [h] at hr
    cases hr
  · omega
  · omega

end

/-! ### New elements -/

/-- The element stands in an added range of a change. -/
def Announced (changes : List (Change E)) (new : List E) (e : E) : Prop :=
  ∃ change ∈ changes, ∃ r ∈ change.changes, e ∈ (new.drop r.from.toNat).take (r.to - r.from).toNat

theorem Reports.announced {w w' : ObservableListWrapper E Obs} (h : Reports w w') (hfired : w.fired = []) {e : E}
    (hnew : e ∈ w'.backingList) (hold : e ∉ w.backingList) : Announced w'.fired w'.backingList e := by
  obtain ⟨changes, hchanges, hnone, hall⟩ := h
  rw [hfired] at hchanges
  rw [hchanges]
  cases changes with
  | nil =>
    rw [hnone rfl] at hnew
    exact absurd hnew hold
  | cons change changes =>
    obtain ⟨edit, hedit, hadded⟩ := exists_added (hall change mem_cons_self).replay hnew hold
    obtain ⟨r, hr, rfl⟩ := List.mem_map.mp hedit
    exact ⟨change, mem_cons_self, r, hr, hadded⟩

theorem add_reports {w : ObservableListWrapper E Obs} (h : w.refuses = false) (hidle : w.changeBuilder = {})
    (hl : w.hasListeners = true) (e : E) : Reports w (add e w).2 := by
  unfold add
  rw [bind_ok (read_apply _ w), bind_pure_snd]
  exact addAt_reports h hidle hl (Nat.le_refl _) e

theorem addAll_reports {w : ObservableListWrapper E Obs} (hidle : w.changeBuilder = {}) (hl : w.hasListeners = true)
    (c : Collection E) : Reports w (addAll c w).2 :=
  block_reports hidle hl (keeps_iterate c fun e => keeps_bind (keeps_recording_add e) fun _ => keeps_pure ())

theorem addAllAt_reports {w : ObservableListWrapper E Obs} (hidle : w.changeBuilder = {}) (hl : w.hasListeners = true)
    (index : Int) (c : Collection E) : Reports w (addAllAt index c w).2 :=
  block_reports hidle hl (keeps_addAllAt (fun i e => keeps_recording_addAt i e) index c)

end JavaFX.ObservableListWrapper
