/-
When a failed update of a bound property is rolled back to the right value.

As long as no setter throws after it has stored a value, both properties stay valid and every update
is passed on.  After one that succeeded, `oldValue` is the common value, and it stays the common value
from then on.  Before the first success it is what `property1` was when it was bound, so everything
depends on whether that was the value of `property2` already, or whether the first update succeeds.
-/
import JavaFX.Binding.BidirectionalBinding

namespace JavaFX.BidirectionalBinding

open List

variable {T : Type} [DecidableEq T]

/-! ### What is expected of an update -/

/-- After a successful update both properties hold the same value, and after one that was rolled
back the source has the value both of them had. -/
def Correct (u : Update T) (s : Pair T) : Prop :=
  s.bound = true →
    match (s.update u).1 with
    | .done => (s.update u).2.property1.value = (s.update u).2.property2.value
    | .restored => s.property1.value = s.property2.value ∧
        ((s.update u).2.source u.side).value = (s.source u.side).value
    | .removed => True

/-- Every update of a run is correct. -/
def AllCorrect : List (Update T) → Pair T → Prop
  | [], _ => True
  | u :: us, s => Correct u s ∧ AllCorrect us (s.update u).2

/-- The first update that changes `value` succeeds, or else its rollback fails as well. -/
def FirstSucceeds (value : T) : List (Update T) → Prop
  | [] => True
  | u :: us => if u.value = value then FirstSucceeds value us else u.target = .accepts ∨ u.restore ≠ .accepts

/-! ### Single updates -/

/-- Both properties are valid and hold `value`. -/
structure Common (value : T) (s : Pair T) : Prop where
  first : s.property1 = ⟨value, true⟩
  second : s.property2 = ⟨value, true⟩

namespace Common

variable {value : T} {s : Pair T}

omit [DecidableEq T] in
theorem sides (h : Common value s) (side : Side) : s.source side = ⟨value, true⟩ ∧ s.target side = ⟨value, true⟩ := by
  cases side with
  | first => exact ⟨h.first, h.second⟩
  | second => exact ⟨h.second, h.first⟩

omit [DecidableEq T] in
theorem source_replace (s : Pair T) (side : Side) (p q : Property T) :
    (s.replace side p q).source side = p ∧ (s.replace side p q).target side = q := by
  cases side <;> exact ⟨rfl, rfl⟩

variable {u : Update T}

theorem update_same (h : Common value s) (hu : u.value = value) : s.update u = (.done, s) := by
  obtain ⟨hsource, htarget⟩ := h.sides u.side
  have hstored : s.replace u.side (s.source u.side) (s.target u.side) = s := by
    cases u.side <;> rfl
  have hstore : (s.source u.side).store u.value = s.source u.side := if_pos (by rw [hsource, hu])
  unfold Pair.update
  rw [if_pos (Or.inl (by rw [hsource, hu])), hstore, hstored]

section

variable (h : Common value s) (hbound : s.bound = true) (hu : u.value ≠ value)
include h hbound hu

theorem update_other :
    s.update u = (s.replace u.side ⟨u.value, false⟩ ⟨value, true⟩).invalidated u.side u.target u.restore := by
  obtain ⟨hsource, htarget⟩ := h.sides u.side
  have hstore : (s.source u.side).store u.value = ⟨u.value, false⟩ := if_neg (by rw [hsource]; exact Ne.symm hu)
  unfold Pair.update
  rw [hsource, htarget] at *
  rw [if_neg (by simp [Ne.symm hu, hbound]), hstore]

theorem update_accepted (htarget : u.target = .accepts) :
    s.update u = (.done, { s.replace u.side ⟨u.value, true⟩ ⟨u.value, true⟩ with oldValue := u.value }) := by
  have hstore : Property.store u.value ⟨value, true⟩ = ⟨u.value, false⟩ := if_neg (Ne.symm hu)
  obtain ⟨hsource, htarget'⟩ := source_replace s u.side ⟨u.value, false⟩ ⟨value, true⟩
  rw [h.update_other hbound hu, Pair.invalidated, hsource, htarget', htarget]
  simp only [Property.set, Property.get, hstore]
  cases u.side <;> rfl

theorem update_restored (htarget : u.target = .refuses) (hrestore : u.restore = .accepts) :
    s.update u = (.restored, s.replace u.side ⟨s.oldValue, true⟩ ⟨value, true⟩) := by
  have hstore : ((Property.store s.oldValue ⟨u.value, true⟩).get : Property T) = ⟨s.oldValue, true⟩ := by
    by_cases heq : u.value = s.oldValue
    · rw [Property.store, if_pos heq, heq]
      rfl
    · rw [Property.store, if_neg heq]
      rfl
  obtain ⟨hsource, htarget'⟩ := source_replace s u.side ⟨u.value, false⟩ ⟨value, true⟩
  have hold : (s.replace u.side ⟨u.value, false⟩ ⟨value, true⟩).oldValue = s.oldValue := by
    cases u.side <;> rfl
  rw [h.update_other hbound hu, Pair.invalidated, hsource, htarget, hrestore]
  simp only [Property.set, hold]
  rw [show (⟨u.value, false⟩ : Property T).get = ⟨u.value, true⟩ from rfl, hstore]
  cases u.side <;> rfl

theorem update_removed (htarget : u.target = .refuses) (hrestore : u.restore ≠ .accepts) :
    (s.update u).1 = .removed ∧ (s.update u).2.bound = false := by
  rw [h.update_other hbound hu, htarget]
  cases hr : u.restore with
  | accepts => exact absurd hr hrestore
  | refuses => exact ⟨rfl, rfl⟩
  | storesAndThrows => exact ⟨rfl, rfl⟩

end

end Common

/-! ### Runs -/

/-- No setter throws after it has stored a value. -/
def NeverStoresAndThrows (us : List (Update T)) : Prop := ∀ u ∈ us, u.target ≠ .storesAndThrows

theorem bound_update {s : Pair T} (hbound : s.bound = false) (u : Update T) : (s.update u).2.bound = false := by
  unfold Pair.update
  rw [if_pos (Or.inr (Or.inr hbound))]
  cases u.side <;> exact hbound

theorem allCorrect_removed (us : List (Update T)) : ∀ {s : Pair T}, s.bound = false → AllCorrect us s := by
  induction us with
  | nil => exact fun _ => trivial
  | cons u us ih =>
    intro s hbound
    refine ⟨fun h => ?_, ih (bound_update hbound u)⟩
    rw [hbound] at h
    cases h

variable {u : Update T}

omit [DecidableEq T] in
theorem setter_cases (hu : u.target ≠ .storesAndThrows) : u.target = .accepts ∨ u.target = .refuses := by
  cases h : u.target with
  | accepts => exact .inl rfl
  | refuses => exact .inr rfl
  | storesAndThrows => exact absurd h hu

omit [DecidableEq T] in
theorem common_replace {value : T} (s : Pair T) (side : Side) :
    Common value (s.replace side ⟨value, true⟩ ⟨value, true⟩) := by
  cases side <;> exact ⟨rfl, rfl⟩

variable {us : List (Update T)}

/-- After an update that succeeds `oldValue` is the common value. -/
theorem allCorrect_accepted {s : Pair T} {value : T} (h : Common value s) (hbound : s.bound = true)
    (hu : u.value ≠ value) (htarget : u.target = .accepts)
    (hrest : ∀ {s' : Pair T}, Common u.value s' → s'.bound = true → s'.oldValue = u.value → AllCorrect us s') :
    AllCorrect (u :: us) s := by
  have hcommon : Common u.value
      ({ s.replace u.side ⟨u.value, true⟩ ⟨u.value, true⟩ with oldValue := u.value } : Pair T) := by
    cases u.side <;> exact ⟨rfl, rfl⟩
  rw [AllCorrect, Correct, h.update_accepted hbound hu htarget]
  refine ⟨fun _ => ?_, hrest hcommon ?_ rfl⟩
  · cases u.side <;> rfl
  · cases u.side <;> exact hbound

/-- Nothing is expected of an update whose rollback fails, or of what comes after it. -/
theorem allCorrect_failed {s : Pair T} {value : T} (h : Common value s) (hbound : s.bound = true)
    (hu : u.value ≠ value) (htarget : u.target = .refuses) (hrestore : u.restore ≠ .accepts) :
    AllCorrect (u :: us) s := by
  obtain ⟨hremoved, hbound'⟩ := h.update_removed hbound hu htarget hrestore
  refine ⟨fun _ => ?_, allCorrect_removed us hbound'⟩
  rw [hremoved]
  trivial

theorem allCorrect_of_old (us : List (Update T)) : ∀ {s : Pair T}
    {value : T}, NeverStoresAndThrows us → Common value s →
    s.bound = true → s.oldValue = value → AllCorrect us s := by
  induction us with
  | nil => exact fun _ _ _ _ => trivial
  | cons u us ih =>
    intro s value hnever h hbound hold
    have hrest : NeverStoresAndThrows us := fun u' hu' => hnever u' (mem_cons_of_mem u hu')
    have hsides := h.sides u.side
    by_cases hu : u.value = value
    · rw [AllCorrect, Correct, h.update_same hu]
      exact ⟨fun _ => by rw [h.first, h.second], ih hrest h hbound hold⟩
    · rcases setter_cases (hnever u mem_cons_self) with htarget | htarget
      · exact allCorrect_accepted h hbound hu htarget fun hcommon hbound' hold' => ih hrest hcommon hbound' hold'
      · by_cases hrestore : u.restore = .accepts
        · have hupdate := h.update_restored hbound hu htarget hrestore
          rw [hold] at hupdate
          rw [AllCorrect, Correct, hupdate]
          refine ⟨fun _ => ⟨by rw [h.first, h.second], ?_⟩, ih hrest (common_replace s u.side) ?_ ?_⟩
          · rw [(Common.source_replace s u.side _ _).1, hsides.1]
          · cases u.side <;> exact hbound
          · cases u.side <;> exact hold
        · exact allCorrect_failed h hbound hu htarget hrestore

/-- With another `oldValue` the first update that changes something must not be rolled back. -/
theorem allCorrect_iff (us : List (Update T)) {s : Pair T} {value : T} (hnever : NeverStoresAndThrows us)
    (h : Common value s) (hbound : s.bound = true) (hold : s.oldValue ≠ value) :
    AllCorrect us s ↔ FirstSucceeds value us := by
  induction us with
  | nil => exact Iff.rfl
  | cons u us ih =>
    have hrest : NeverStoresAndThrows us := fun u' hu' => hnever u' (mem_cons_of_mem u hu')
    rw [FirstSucceeds]
    by_cases hu : u.value = value
    · rw [if_pos hu, ← ih hrest, AllCorrect, Correct, h.update_same hu]
      exact ⟨fun hall => hall.2, fun hall => ⟨fun _ => by rw [h.first, h.second], hall⟩⟩
    · rw [if_neg hu]
      rcases setter_cases (hnever u mem_cons_self) with htarget | htarget
      · refine iff_of_true (allCorrect_accepted h hbound hu htarget fun hcommon hbound' hold' => ?_) (.inl htarget)
        exact allCorrect_of_old us hrest hcommon hbound' hold'
      · by_cases hrestore : u.restore = .accepts
        · -- The source gets the old value of the first property.
          refine iff_of_false (fun hall => hold ?_) ?_
          · have hcorrect := hall.1 hbound
            rw [h.update_restored hbound hu htarget hrestore] at hcorrect
            have hvalue := hcorrect.2
            rwa [(Common.source_replace s u.side _ _).1, (h.sides u.side).1] at hvalue
          · rintro (hyes | hno)
            · rw [htarget] at hyes
              cases hyes
            · exact hno hrestore
        · exact iff_of_true (allCorrect_failed h hbound hu htarget hrestore) (.inr hrestore)

/-- `bind` leaves two properties with the value of the second, and the value of the first as the
old one. -/
theorem bind_spec (property1 property2 : Property T) : Common property2.value (bind property1 property2) ∧
    (bind property1 property2).bound = true ∧ (bind property1 property2).oldValue = property1.value := by
  refine ⟨⟨?_, rfl⟩, rfl, rfl⟩
  show (Property.store property2.value property1.get).get = _
  by_cases heq : property1.value = property2.value
  · have hstore : Property.store property2.value property1.get = property1.get := if_pos heq
    rw [hstore, ← heq]
    rfl
  · have hstore : Property.store property2.value property1.get = ⟨property2.value, false⟩ := if_neg heq
    rw [hstore]
    rfl

/-- **Rollback of a bidirectional binding.**  In a run in which no setter throws after it has stored a
value, every update is correct exactly if the properties were equal before they were bound, or the
first update that changes them is not rolled back. -/
theorem bind_allCorrect_iff (property1 property2 : Property T) (us : List (Update T))
    (hnever : NeverStoresAndThrows us) :
    AllCorrect us (bind property1 property2) ↔ property1.value = property2.value ∨
      FirstSucceeds property2.value us := by
  obtain ⟨hcommon, hbound, hold⟩ := bind_spec property1 property2
  by_cases heq : property1.value = property2.value
  · exact iff_of_true (allCorrect_of_old us hnever hcommon hbound (hold.trans heq)) (.inl heq)
  · rw [allCorrect_iff us hnever hcommon hbound (by rwa [hold]), or_iff_right heq]

/-- One update that succeeds, and then one that is refused. -/
theorem allCorrect_succeeding : AllCorrect [⟨.first, 3, .accepts, .accepts⟩, ⟨.second, 4, .refuses, .accepts⟩]
      (bind ⟨1, true⟩ (⟨2, true⟩ : Property Nat)) :=
  (bind_allCorrect_iff ⟨1, true⟩ ⟨2, true⟩ [⟨.first, 3, .accepts, .accepts⟩, ⟨.second, 4, .refuses, .accepts⟩]
    (by unfold NeverStoresAndThrows; decide)).mpr (.inr (.inl rfl))

/-- The first update is refused, and the source gets a value it had before it was bound. -/
theorem rolled_back_too_far :
    ¬ AllCorrect [⟨.first, 3, .refuses, .accepts⟩] (bind ⟨1, true⟩ (⟨2, true⟩ : Property Nat)) := by
  rintro ⟨hcorrect, -⟩
  have hvalue := (hcorrect rfl).2
  revert hvalue
  decide

end JavaFX.BidirectionalBinding
