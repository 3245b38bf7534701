/-
What stays true of the update records when a call is made.
-/
import JavaFX.Proofs.ListChangeBuilder.Permutations
import Mathlib.Data.List.InsertIdx

namespace JavaFX.ListChangeBuilder

open List

variable {E : Type} {Q : SubChange E → Prop} {list : List (SubChange E)} {o n pos : Int}

theorem forall_shiftFrom (hQ : ∀ c d, Q c → Q (c.shift d)) (h : ∀ c ∈ list, Q c) (k : Nat) (d : Int) :
    ∀ c ∈ shiftFrom k d list, Q c := by
  intro c hc
  simp only [shiftFrom, mem_append, mem_map] at hc
  rcases hc with hc | ⟨c', hc', rfl⟩
  · exact h c (mem_of_mem_take hc)
  · exact hQ c' d (h c' (mem_of_mem_drop hc'))

variable {x c : SubChange E} {i p : Int}

theorem forall_set (h : ∀ c ∈ list, Q c) (hx : Q x) (i : Nat) : ∀ c ∈ list.set i x, Q c := by
  intro c hc
  rcases mem_or_eq_of_mem_set hc with hc | rfl
  · exact h c hc
  · exact hx

theorem forall_insertIdx (h : ∀ c ∈ list, Q c) (hx : Q x) (i : Nat) : ∀ c ∈ list.insertIdx i x, Q c := by
  intro c hc
  rcases eq_or_mem_of_mem_insertIdx hc with rfl | hc
  · exact hx
  · exact h c hc

theorem Update.shift (h : Update c) (d : Int) : Update (c.shift d) :=
  ⟨h.removed, h.perm, h.updated⟩

theorem Update.span (h : Update c) (lo hi : Int) :
    Update { c with «from» := lo, «to» := hi } := ⟨h.removed, h.perm, h.updated⟩

theorem update_new (lo hi : Int) : Update (⟨lo, hi, none, [], true⟩ : SubChange E) :=
  ⟨rfl, rfl, rfl⟩

section

variable (h : ∀ c ∈ list, Update c)
include h

theorem updates_insertBefore (pos : Int)
    (idx : Nat) : ∀ c ∈ insertUpdate.insertBefore pos idx list, Update c := by
  unfold insertUpdate.insertBefore
  split
  · rename_i next hnext
    split
    · exact forall_set h ((h next (mem_of_getElem? hnext)).span pos next.to) idx
    · exact forall_insertIdx h (update_new _ _) idx
  · exact forall_insertIdx h (update_new _ _) idx

theorem updates_insertUpdate (pos : Int) : ∀ c ∈ insertUpdate pos list, Update c := by
  unfold insertUpdate
  split
  · exact h
  · rename_i idx _
    split
    · rename_i prev hprev
      have hmem : prev ∈ list := by
        split at hprev
        · exact mem_of_getElem? hprev
        · simp at hprev
      split
      · exact forall_set h ((h prev hmem).span prev.from (pos + 1)) _
      · exact updates_insertBefore h pos idx
    · exact updates_insertBefore h pos idx

theorem updates_removeUpdate (idx : Int) : ∀ c ∈ removeUpdate idx list, Update c := by
  unfold removeUpdate
  split
  · exact forall_shiftFrom (fun _ d hc => hc.shift d) h _ _
  · split
    · rename_i change hchange
      have hmem := mem_of_getElem? hchange
      split
      · exact forall_shiftFrom (fun _ d hc => hc.shift d) (fun c hc => h c (mem_of_mem_eraseIdx hc)) _ _
      · exact forall_shiftFrom (fun _ d hc => hc.shift d)
          (forall_set h ((h change hmem).span change.from (change.to - 1)) _) _ _
    · exact h

theorem updates_addUpdate (lo hi : Int) : ∀ c ∈ addUpdate lo hi list, Update c := by
  unfold addUpdate
  split
  · exact forall_shiftFrom (fun _ d hc => hc.shift d) h _ _
  · split
    · rename_i change hchange
      have hmem := mem_of_getElem? hchange
      exact forall_shiftFrom (fun _ d hc => hc.shift d)
        (forall_set (forall_insertIdx h (update_new _ _) _) ((h change hmem).span change.from lo) _) _ _
    · exact h

end

end JavaFX.ListChangeBuilder
