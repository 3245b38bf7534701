/-
What a call on the list of children comes to.

A proposal and the call it stands for agree on what goes: the ranges are the elements the call
removes, and the rest with the new elements is what the call leaves.  From that alone it follows that
`onProposedChange` lets exactly those calls pass after which no node is twice in the list, that the
set of children is right afterwards, and that it knows whether the children only changed places.
-/
import JavaFX.Scene.ChildrenList
import JavaFX.Proofs.ObservableListWrapper.Reports
import Mathlib.Data.List.Range

namespace JavaFX

variable {E : Type} [DecidableEq E]

/-! ### Proposals -/

namespace Proposal

/-- What the call removes and leaves is what was proposed. -/
structure Describes (p : Proposal E) (old new removed : List E) : Prop where
  taken : List.Forall₂ (fun j e => getAt old j = .ok e) p.positions removed
  length : (p.indexes.map fun r => r.2 - r.1).sum = removed.length
  kept : ∃ kept, old.Perm (kept ++ removed) ∧ new.Perm (kept ++ p.toBeAdded)

/-- The proposal is turned down before anything happens. -/
inductive Fails (p : Proposal E) (l : List E) : Prop
  | outside (j : Int) (js : List Int) (ex : JavaException) (hpos : p.positions = j :: js)
      (hget : getAt l j = .error ex)
  | backwards (hpos : p.positions = []) (hadd : p.toBeAdded = []) (hlength : p.newLength l ≠ l.length)

omit [DecidableEq E] in
theorem forall₂_range (l : List E) : ∀ (k a : Nat), a + k ≤ l.length →
    List.Forall₂ (fun j e => getAt l j = .ok e) ((List.range k).map fun j : Nat => (a : Int) + j)
      ((l.drop a).take k) := by
  intro k
  induction k with
  | zero => exact fun a _ => .nil
  | succ k ih =>
    intro a ha
    rw [List.range_succ_eq_map, List.drop_eq_getElem_cons (by omega)]
    refine .cons ?_ ?_
    · exact getAt_ofNat (by omega)
    · have hnext := ih (a + 1) (by omega)
      rw [List.map_map]
      have hshift : (fun j : Nat => (a : Int) + j) ∘ Nat.succ = fun j : Nat => ((a + 1 : Nat) : Int) + j := by
        funext j
        simp only [Function.comp_apply]
        omega
      rw [hshift]
      exact hnext

omit [DecidableEq E] in
theorem describes_range {old new xs : List E} {a b : Nat} (hab : a ≤ b) (hb : b ≤ old.length)
    (hnew : new.Perm (old.take a ++ (xs ++ old.drop b))) :
    Describes ⟨xs, [(a, b)]⟩ old new ((old.drop a).take (b - a)) where
  taken := by
    have hrange := forall₂_range old (b - a) a (by omega)
    have hpos : (⟨xs, [((a : Int), (b : Int))]⟩ : Proposal E).positions
        = (List.range (b - a)).map fun j : Nat => (a : Int) + j := by
      simp [positions, positionsIn]
    rw [hpos]
    exact hrange
  length := by
    simp only [List.map_cons, List.map_nil, List.sum_cons, List.sum_nil, List.length_take, List.length_drop]
    omega
  kept := by
    refine ⟨old.take a ++ old.drop b, ?_, ?_⟩
    · have hcut : old = old.take a ++ ((old.drop a).take (b - a) ++ old.drop b) := by
        have hdrop : old.drop b = (old.drop a).drop (b - a) := by
          rw [List.drop_drop]
          congr 1
          omega
        rw [hdrop, List.take_append_drop, List.take_append_drop]
      conv_lhs => rw [hcut]
      rw [List.append_assoc]
      exact List.perm_append_comm.append_left _
    · refine hnew.trans ?_
      rw [List.append_assoc]
      exact List.perm_append_comm.append_left _

end Proposal

namespace ChildrenCall

open Proposal List

/-! ### Removing a collection -/

/-- The indexes, from `i` on, of the elements that go. -/
def goingFrom (q : E → Bool) : Nat → List E → List Nat
  | _, [] => []
  | i, e :: es => if q e then i :: goingFrom q (i + 1) es else goingFrom q (i + 1) es

theorem addIndex_eq {i : Nat} {ranges : List (Int × Int)} (h : ∀ r ∈ ranges, r.1 < i) :
    addIndex i ranges = ranges ++ [((i : Int), (i : Int) + 1)] := by
  unfold addIndex
  split
  · next last hlast =>
      have := h last (mem_of_getLast? hlast)
      rw [if_neg (by omega)]
  · next hnone =>
      rw [List.getLast?_eq_none_iff.mp hnone]
      rfl

theorem removeFromList_eq (c : List E) (complement : Bool) : ∀ (es : List E) (i : Nat) {ranges : List (Int × Int)},
    (∀ r ∈ ranges, r.1 < i) →
    removeFromList c complement i es ranges
      = ranges ++ (goingFrom (fun e => decide (e ∈ c) ^^ complement) i es).map
        fun j : Nat => ((j : Int), (j : Int) + 1) := by
  intro es
  induction es with
  | nil =>
    intro i ranges _
    simp [removeFromList, goingFrom]
  | cons e es ih =>
    intro i ranges h
    have hnext : ∀ r ∈ ranges, r.1 < ((i + 1 : Nat) : Int) := fun r hr => by
      have := h r hr
      omega
    rw [removeFromList, goingFrom, show (i : Int) + 1 = ((i + 1 : Nat) : Int) by omega]
    by_cases hq : (decide (e ∈ c) ^^ complement) = true
    · rw [if_pos hq, if_pos hq, addIndex_eq h, ih (i + 1)]
      · simp
      · intro r hr
        rcases List.mem_append.mp hr with hr | hr
        · exact hnext r hr
        · rw [List.mem_singleton.mp hr]
          omega
    · rw [if_neg hq, if_neg hq, ih (i + 1) hnext]

omit [DecidableEq E] in
theorem goingFrom_taken (q : E → Bool) : ∀ (es pre : List E),
    List.Forall₂ (fun j e => getAt (pre ++ es) j = .ok e)
      ((goingFrom q pre.length es).map Int.ofNat) (es.filter q) := by
  intro es
  induction es with
  | nil => exact fun pre => .nil
  | cons e es ih =>
    intro pre
    have hnext := ih (pre ++ [e])
    rw [List.append_assoc, List.length_append] at hnext
    rw [goingFrom, filter_cons]
    split
    · exact .cons (getAt_append pre e es) hnext
    · exact hnext

omit [DecidableEq E] in
theorem goingFrom_length (q : E → Bool) : ∀ (es : List E) (i : Nat),
    (goingFrom q i es).length = (es.filter q).length := by
  intro es
  induction es with
  | nil => exact fun i => rfl
  | cons e es ih =>
    intro i
    rw [goingFrom, filter_cons]
    split
    · rw [length_cons, length_cons, ih]
    · exact ih (i + 1)

/-- The proposal for a collection describes its removal. -/
theorem proposeRemoval_cases (c : List E) (complement : Bool) (l : List E) :
    (proposeRemoval c complement l = none ∧ l.filter (fun e => !(decide (e ∈ c) ^^ complement)) = l) ∨
    ∃ p, proposeRemoval c complement l = some p ∧
      p.Describes l (l.filter fun e => !(decide (e ∈ c) ^^ complement))
        (l.filter fun e => decide (e ∈ c) ^^ complement) := by
  have heq := removeFromList_eq c complement l 0 (show ∀ r ∈ ([] : List (Int × Int)), r.1 < ((0 : Nat) : Int) by simp)
  rw [List.nil_append, show ((0 : Nat) : Int) = 0 from rfl] at heq
  have hlength := goingFrom_length (fun e => decide (e ∈ c) ^^ complement) l 0
  have htaken := goingFrom_taken (fun e => decide (e ∈ c) ^^ complement) l []
  unfold proposeRemoval
  rw [heq]
  cases hgoing : goingFrom (fun e => decide (e ∈ c) ^^ complement) 0 l with
  | nil =>
    refine .inl ⟨rfl, ?_⟩
    rw [hgoing] at hlength
    have hnone := List.eq_nil_of_length_eq_zero hlength.symm
    rw [filter_eq_nil_iff] at hnone
    rw [filter_eq_self]
    intro e he
    simpa using hnone e he
  | cons j js =>
    refine .inr ⟨_, rfl, ?_⟩
    rw [List.length_nil, hgoing] at htaken
    rw [hgoing] at hlength
    refine ⟨?_, ?_, ?_⟩
    · have hpos : ∀ js : List Nat, (⟨[], js.map fun j : Nat => ((j : Int), (j : Int) + 1)⟩ : Proposal E).positions
          = js.map Int.ofNat := by
        intro js
        induction js with
        | nil => rfl
        | cons j js ih =>
          simp only [positions, List.map_cons, flatMap_cons] at ih ⊢
          rw [ih]
          simp [positionsIn]
      rw [hpos]
      exact htaken
    · have hsum : ∀ js : List Nat, ((js.map fun j : Nat => ((j : Int), (j : Int) + 1)).map fun r => r.2 - r.1).sum
          = js.length := by
        intro js
        induction js with
        | nil => rfl
        | cons j js ih =>
          simp only [List.map_cons, List.sum_cons, length_cons]
          omega
      rw [hsum, hlength]
    · refine ⟨l.filter fun e => !(decide (e ∈ c) ^^ complement), ?_, by simp⟩
      refine (filter_append_perm (fun e => !(decide (e ∈ c) ^^ complement)) l).symm.trans ?_
      refine List.Perm.append_left _ ?_
      simp

end ChildrenCall

namespace ChildrenCall

open Proposal

/-! ### All the calls -/

/-- The call names no index that the list turns down only after the change was proposed. -/
def InRange (l : List E) : ChildrenCall E → Prop
  | .addAt index _ | .addAllAt index _ => 0 ≤ index ∧ index ≤ l.length
  | .removeRange lo hi => 0 ≤ lo → lo < l.length → hi ≤ l.length
  | .setAllItself => l = []
  | _ => True

variable {l : List E}

omit [DecidableEq E] in
theorem perm_set {i : Nat} (hi : i < l.length) (e : E) : (l.set i e).Perm (l.take i ++ ([e] ++ l.drop (i + 1))) := by
  rw [List.set_eq_take_append_cons_drop, if_pos hi]
  exact List.Perm.refl _

omit [DecidableEq E] in
theorem fails_outside {xs : List E} {index : Int} (h : ¬ (0 ≤ index ∧ index < l.length)) :
    Fails ⟨xs, [(index, index + 1)]⟩ l := by
  refine .outside index [] .indexOutOfBounds ?_ ?_
  · simp [positions, positionsIn]
  · unfold getAt
    by_cases hi : 0 ≤ index
    · rw [if_pos hi, List.getElem?_eq_none (by omega)]
    · rw [if_neg hi]

/-- **A call that proposes something** does what it proposes, or fails before anything happens. -/
theorem proposal_cases {c : ChildrenCall E} (hc : c.InRange l) : (c.proposal l = none ∧ c.perform l = .ok l) ∨
    ∃ p, c.proposal l = some p ∧ ((∃ new removed, c.perform l = .ok new ∧
      p.Describes l new removed) ∨ p.Fails l) := by
  cases c with
  | add e => exact .inr ⟨_, rfl, .inl ⟨_, _, rfl, describes_range (Nat.le_refl _) (Nat.le_refl _) (by simp)⟩⟩
  | addAt index e =>
    obtain ⟨hi, hle⟩ := hc
    obtain ⟨i, rfl⟩ := Int.eq_ofNat_of_zero_le hi
    refine .inr ⟨_, rfl, .inl ⟨_, _, if_pos ⟨hi, hle⟩, describes_range (Nat.le_refl i) (by omega) ?_⟩⟩
    exact List.Perm.refl _
  | addAll c => exact .inr ⟨_, rfl, .inl ⟨_, _, rfl, describes_range (Nat.le_refl _) (Nat.le_refl _) (by simp)⟩⟩
  | addAllAt index c =>
    obtain ⟨hi, hle⟩ := hc
    obtain ⟨i, rfl⟩ := Int.eq_ofNat_of_zero_le hi
    refine .inr ⟨_, rfl, .inl ⟨_, _, if_pos ⟨hi, hle⟩, describes_range (Nat.le_refl i) (by omega) ?_⟩⟩
    exact List.Perm.refl _
  | set index e =>
    by_cases h : 0 ≤ index ∧ index < l.length
    · obtain ⟨i, rfl⟩ := Int.eq_ofNat_of_zero_le h.1
      refine .inr ⟨_, rfl, .inl ⟨_, _, if_pos h, describes_range (b := i + 1) (by omega) (by omega) ?_⟩⟩
      exact perm_set (by omega) e
    · exact .inr ⟨_, rfl, .inr (fails_outside h)⟩
  | setAll col => exact .inr ⟨_, rfl, .inl ⟨_, _, rfl, describes_range (Nat.zero_le _) (Nat.le_refl _) (by simp)⟩⟩
  | setAllItself =>
    obtain rfl : l = [] := hc
    exact .inr ⟨_, rfl, .inl ⟨_, _, rfl, describes_range (Nat.zero_le _) (Nat.le_refl _) (by simp)⟩⟩
  | remove o =>
    rw [proposal]
    by_cases ho : o ∈ l
    · rw [if_pos ho]
      have hi := List.idxOf_lt_length_iff.mpr ho
      refine .inr ⟨_, rfl, .inl ⟨_, _, rfl, describes_range (b := l.idxOf o + 1) (by omega) (by omega) ?_⟩⟩
      rw [List.nil_append, ← List.eraseIdx_eq_take_drop_succ, List.erase_eq_eraseIdx_of_idxOf rfl]
    · rw [if_neg ho]
      exact .inl ⟨rfl, by rw [perform, List.erase_of_not_mem ho]⟩
  | removeAt index =>
    by_cases h : 0 ≤ index ∧ index < l.length
    · obtain ⟨i, rfl⟩ := Int.eq_ofNat_of_zero_le h.1
      refine .inr ⟨_, rfl, .inl ⟨_, _, if_pos h, describes_range (b := i + 1) (by omega) (by omega) ?_⟩⟩
      rw [List.nil_append, ← List.eraseIdx_eq_take_drop_succ]
      exact List.Perm.refl _
    · exact .inr ⟨_, rfl, .inr (fails_outside h)⟩
  | removeRange lo hi =>
    refine .inr ⟨_, rfl, ?_⟩
    rcases lt_trichotomy lo hi with hlt | heq | hgt
    · by_cases hlo : 0 ≤ lo ∧ lo < l.length
      · have hhi := hc hlo.1 hlo.2
        obtain ⟨a, rfl⟩ := Int.eq_ofNat_of_zero_le hlo.1
        obtain ⟨b, rfl⟩ := Int.eq_ofNat_of_zero_le (show 0 ≤ hi by omega)
        refine .inl ⟨_, _, rfl, describes_range (by omega) (by omega) ?_⟩
        rw [List.nil_append, Int.toNat_natCast, show a + ((b : Int) - a).toNat = b by omega]
      · refine .inr (.outside lo ((List.range ((hi - lo).toNat - 1)).map fun j : Nat => lo + (j + 1 : Nat))
          .indexOutOfBounds ?_ ?_)
        · obtain ⟨k, hk⟩ : ∃ k, (hi - lo).toNat = k + 1 := ⟨(hi - lo).toNat - 1, by omega⟩
          simp [positions, positionsIn, hk, List.range_succ_eq_map]
        · unfold getAt
          by_cases hi : 0 ≤ lo
          · rw [if_pos hi, List.getElem?_eq_none (by omega)]
          · rw [if_neg hi]
    · subst heq
      refine .inl ⟨l, [], ?_, ?_⟩
      · simp [perform]
      · exact ⟨by simp [positions, positionsIn], by simp, ⟨l, by simp, by simp⟩⟩
    · refine .inr (.backwards ?_ rfl ?_)
      · simp [positions, positionsIn, show (hi - lo).toNat = 0 by omega]
      · simp only [newLength, List.map_cons, List.map_nil, List.sum_cons, List.sum_nil]
        omega
  | removeAll c =>
    rcases proposeRemoval_cases c false l with ⟨hnone, hsame⟩ | ⟨p, hp, hdescribes⟩
    · exact .inl ⟨hnone, by simpa [perform] using hsame⟩
    · exact .inr ⟨p, hp, .inl ⟨_, _, by simp [perform], hdescribes⟩⟩
  | retainAll c =>
    rcases proposeRemoval_cases c true l with ⟨hnone, hsame⟩ | ⟨p, hp, hdescribes⟩
    · exact .inl ⟨hnone, by simpa [perform] using hsame⟩
    · exact .inr ⟨p, hp, .inl ⟨_, _, by simp [perform], hdescribes⟩⟩
  | clear => exact .inr ⟨_, rfl, .inl ⟨_, _, rfl, describes_range (Nat.zero_le _) (Nat.le_refl _) (by simp)⟩⟩

end ChildrenCall

/-! ### The proposed change -/

namespace Children

/-- The set is the set of the children, none of which is there twice. -/
structure Consistent (s : Children E) : Prop where
  nodup : s.children.Nodup
  childSet : s.childSet = s.children.toFinset

variable {removed new : List E} {c : ChildrenCall E} {o : E}

theorem removeEach_ok {l : List E} {js : List Int}
    (h : List.Forall₂ (fun j e => getAt l j = .ok e) js removed) (childSet : Finset E) :
    removeEach l js childSet = (.ok (), childSet \ removed.toFinset) := by
  induction h generalizing childSet with
  | nil => simp [removeEach]
  | @cons j e js removed hget _ ih =>
    rw [removeEach, hget]
    simp only
    rw [ih]
    congr 1
    ext x
    simp only [Finset.mem_sdiff, Finset.mem_erase, List.toFinset_cons, Finset.mem_insert]
    grind

variable {s : Children E} {p : Proposal E} (check : E → Except JavaException Unit)

theorem onProposedChange_fails (h : Consistent s) (hidle : s.childrenTriggerPermutation = false)
    (hp : p.Fails s.children) :
    ∃ ex b, onProposedChange check p s = (.error ex, { s with childSetModified := b }) := by
  rw [onProposedChange, if_neg (by simp [hidle])]
  cases hp with
  | outside j js ex hpos hget =>
    refine ⟨ex, s.modifies p, ?_⟩
    simp only [hpos, removeEach, hget]
  | backwards hpos hadd hlength =>
    refine ⟨.illegalArgument, s.modifies p, ?_⟩
    have hcard : (s.childSet.card : Int) ≠ p.newLength s.children := by
      rw [h.childSet, List.toFinset_card_of_nodup h.nodup]
      omega
    simp only [hpos, hadd, removeEach, checkEach, ite_self, List.toFinset_nil, Finset.union_empty, if_neg hcard,
      ← h.childSet]

theorem childSet_after {old : List E} (hnodup : old.Nodup) (h : p.Describes old new removed) :
    old.toFinset \ removed.toFinset ∪ p.toBeAdded.toFinset = new.toFinset ∧ p.newLength old = new.length := by
  obtain ⟨kept, hold, hnew⟩ := h.kept
  have hdisjoint : kept.Disjoint removed := List.disjoint_of_nodup_append (hold.nodup_iff.mp hnodup)
  constructor
  · ext x
    simp only [Finset.mem_union, Finset.mem_sdiff, List.mem_toFinset, hold.mem_iff, hnew.mem_iff, List.mem_append]
    constructor
    · rintro (⟨hx | hx, hnot⟩ | hx)
      · exact .inl hx
      · exact absurd hx hnot
      · exact .inr hx
    · rintro (hx | hx)
      · exact .inl ⟨.inl hx, fun hx' => hdisjoint hx hx'⟩
      · exact .inr hx
  · have hlold := hold.length_eq
    have hlnew := hnew.length_eq
    rw [List.length_append] at hlold hlnew
    rw [Proposal.newLength, h.length]
    omega

/-- What is said to a proposal that describes a change. -/
theorem onProposedChange_eq (h : Consistent s) (hidle : s.childrenTriggerPermutation = false)
    (hp : p.Describes s.children new removed) :
    onProposedChange check p s = match (if s.modifies p then checkEach check p.toBeAdded else .ok ()) with
      | .error ex => (.error ex, { s with childSetModified := s.modifies p })
      | .ok () =>
        if (new.toFinset.card : Int) = new.length then
          (.ok (), { s with childSet := new.toFinset, childSetModified := s.modifies p })
        else (.error .illegalArgument, { s with childSetModified := s.modifies p }) := by
  obtain ⟨hset, hlength⟩ := childSet_after h.nodup hp
  have hremove := removeEach_ok hp.taken s.childSet
  rw [h.childSet] at hremove
  rw [onProposedChange, if_neg (by simp [hidle]), h.childSet]
  cases hcheck : (if s.modifies p then checkEach check p.toBeAdded else .ok ()) with
  | error ex => simp only [hremove, hcheck]
  | ok _ => simp only [hremove, hset, hlength, hcheck]

theorem nodup_of_card {l : List E} (h : (l.toFinset.card : Int) = l.length) : l.Nodup := by
  rw [List.card_toFinset] at h
  exact List.dedup_eq_self.mp ((List.dedup_sublist l).eq_of_length (by omega))

theorem modifies_eq_false_iff (h : Consistent s) (hp : p.Describes s.children new removed)
    (hnodup : new.Nodup) : s.modifies p = false ↔ new.Perm s.children := by
  obtain ⟨-, hlength⟩ := childSet_after h.nodup hp
  obtain ⟨kept, hold, hnew⟩ := hp.kept
  simp only [modifies, hlength, h.childSet, List.toFinset_card_of_nodup h.nodup, Bool.not_eq_false',
    Bool.and_eq_true, beq_iff_eq, List.all_eq_true, decide_eq_true_eq, List.mem_toFinset]
  constructor
  · rintro ⟨hlen, hsub⟩
    refine (List.subperm_of_subset hnodup fun e he => ?_).perm_of_length_le (by omega)
    rcases List.mem_append.mp (hnew.mem_iff.mp he) with he | he
    · exact hold.mem_iff.mpr (List.mem_append_left _ he)
    · exact hsub e he
  · intro hperm
    exact ⟨by rw [hperm.length_eq], fun e he => hperm.mem_iff.mp (hnew.mem_iff.mpr (List.mem_append_right _ he))⟩

/-- **A proposal is accepted** only if no node is twice in the new list; then the set is the set of
the new list, and it is known whether the children just change places. -/
theorem onProposedChange_describes (h : Consistent s)
    (hidle : s.childrenTriggerPermutation = false) (hp : p.Describes s.children new removed) :
    (∃ ex, onProposedChange check p s = (.error ex, { s with childSetModified := s.modifies p })) ∨
    (onProposedChange check p s = (.ok (), { s with childSet := new.toFinset, childSetModified := s.modifies p }) ∧
      new.Nodup ∧ (s.modifies p = false ↔ new.Perm s.children) ∧
      (s.modifies p = true → checkEach check p.toBeAdded = .ok ())) := by
  rw [onProposedChange_eq check h hidle hp]
  split
  · next ex hcheck => exact .inl ⟨ex, rfl⟩
  · next hcheck =>
      by_cases hcard : (new.toFinset.card : Int) = new.length
      · have hnodup := nodup_of_card hcard
        refine .inr ⟨if_pos hcard, hnodup, modifies_eq_false_iff h hp hnodup, fun hmodifies => ?_⟩
        rwa [if_pos hmodifies] at hcheck
      · exact .inl ⟨_, if_neg hcard⟩

/-- **A call** is refused and changes nothing, has nothing to do, or goes through. -/
theorem call_cases (h : Consistent s) (hidle : s.childrenTriggerPermutation = false) (hc : c.InRange s.children) :
    (∃ ex b, call check c s = (.error ex, { s with childSetModified := b })) ∨
    (c.proposal s.children = none ∧ c.perform s.children = .ok s.children ∧ call check c s = (.ok (), s)) ∨
    ∃ p new removed, c.proposal s.children = some p ∧ c.perform s.children = .ok new ∧
      p.Describes s.children new removed ∧ new.Nodup ∧ (s.modifies p = false ↔ new.Perm s.children) ∧
      (s.modifies p = true → checkEach check p.toBeAdded = .ok ()) ∧
      call check c s = (.ok (), { s with children := new, childSet := new.toFinset, childSetModified := s.modifies p }) := by
  rcases ChildrenCall.proposal_cases hc with ⟨hnone, hperform⟩ | ⟨p, hp, ⟨new, removed, hperform, hdescribes⟩ | hfails⟩
  · exact .inr (.inl ⟨hnone, hperform, by rw [call, hnone]⟩)
  · rcases onProposedChange_describes check h hidle hdescribes with ⟨ex, hex⟩ | ⟨hok, hnodup, hperm, hchecked⟩
    · exact .inl ⟨ex, s.modifies p, by rw [call, hp]; simp only [hex]⟩
    · refine .inr (.inr ⟨p, new, removed, hp, hperform, hdescribes, hnodup, hperm, hchecked, ?_⟩)
      rw [call, hp]
      simp only [hok, hperform]
  · obtain ⟨ex, b, hex⟩ := onProposedChange_fails check h hidle hfails
    exact .inl ⟨ex, b, by rw [call, hp]; simp only [hex]⟩

theorem call_ok {s' : Children E} (hp : c.proposal s.children = some p)
    (hpropose : onProposedChange check p s = (.ok (), s')) (hperform : c.perform s'.children = .ok new) :
    call check c s = (.ok (), { s' with children := new }) := by
  rw [call, hp]
  simp only [hpropose, hperform]

/-- The children after the removal of one of them. -/
def without (o : E) (s : Children E) : Children E :=
  { s with children := s.children.erase o, childSet := (s.children.erase o).toFinset, childSetModified := true }

theorem Consistent.without (h : Consistent s) (o : E) : Consistent (s.without o) := ⟨h.nodup.erase o, rfl⟩

theorem Consistent.mem_without (h : Consistent s) {e : E} : e ∈ (s.without o).children ↔ e ≠ o ∧ e ∈ s.children :=
  h.nodup.mem_erase_iff

theorem perm_without (ho : o ∈ s.children) : (o :: (s.without o).children).Perm s.children :=
  (List.perm_cons_erase ho).symm

/-- **A child is removed**: nothing can go wrong. -/
theorem call_remove (h : Consistent s) (hidle : s.childrenTriggerPermutation = false) (ho : o ∈ s.children) :
    call check (.remove o) s = (.ok (), s.without o) := by
  have hi := List.idxOf_lt_length_iff.mpr ho
  have hp : Proposal.Describes ⟨[], [((s.children.idxOf o : Nat), ((s.children.idxOf o + 1 : Nat) : Int))]⟩ s.children
      (s.children.erase o) _ := Proposal.describes_range (Nat.le_succ _) hi (by
        rw [List.nil_append, ← List.eraseIdx_eq_take_drop_succ, List.erase_eq_eraseIdx_of_idxOf rfl])
  have hnodup : (s.children.erase o).Nodup := h.nodup.erase o
  have hmodifies : s.modifies ⟨[], [((s.children.idxOf o : Nat), ((s.children.idxOf o + 1 : Nat) : Int))]⟩ = true := by
    rw [← Bool.not_eq_false, modifies_eq_false_iff h hp hnodup]
    intro hperm
    have := hperm.length_eq
    rw [List.length_erase_of_mem ho] at this
    omega
  have hpropose := onProposedChange_eq check h hidle hp
  simp only [hmodifies, List.toFinset_card_of_nodup hnodup] at hpropose
  have hproposal : (ChildrenCall.remove o).proposal s.children
      = some ⟨[], [((s.children.idxOf o : Nat), ((s.children.idxOf o + 1 : Nat) : Int))]⟩ := if_pos ho
  exact call_ok check hproposal hpropose rfl

theorem call_triggered (htrigger : s.childrenTriggerPermutation = true)
    (hp : c.proposal s.children = some p) (hperform : c.perform s.children = .ok new) :
    call check c s = (.ok (), { s with children := new, childSetModified := false }) := by
  have hpropose : onProposedChange check p s = (.ok (), { s with childSetModified := false }) := by
    rw [onProposedChange, if_pos htrigger]
  rw [call, hp]
  simp only [hpropose, hperform]

end Children

/-! ### What the listener is told -/

namespace Proposal

variable {removed : List E}

omit [DecidableEq E] in
theorem removed_eq {l : List E} {p : Proposal E}
    (h : List.Forall₂ (fun j e => getAt l j = .ok e) p.positions removed) :
    p.removed l = removed := by
  unfold Proposal.removed
  generalize p.positions = js at h
  induction h with
  | nil => rfl
  | cons hget _ ih => rw [List.filterMap_cons, hget, ← ih]; rfl

theorem removed_remove {l : List E} {o : E} {p : Proposal E} (hp : (ChildrenCall.remove o).proposal l = some p) :
    p.removed l = [o] := by
  rw [ChildrenCall.proposal] at hp
  split at hp
  · next ho =>
      obtain rfl := Option.some.inj hp
      have hpos : (⟨[], [((l.idxOf o : Nat), (l.idxOf o : Nat) + 1)]⟩ : Proposal E).positions
          = [((l.idxOf o : Nat) : Int)] := by
        simp [positions, positionsIn]
      refine removed_eq ?_
      rw [hpos]
      refine .cons ?_ .nil
      rw [getAt_ofNat (List.idxOf_lt_length_iff.mpr ho), List.getElem_idxOf]
  · cases hp

omit [DecidableEq E] in
/-- What is added where nothing is removed was not there before. -/
theorem Describes.fresh {p : Proposal E} {old new : List E} (h : p.Describes old new removed)
    (hsum : (p.indexes.map fun r => r.2 - r.1).sum = 0) (hnew : new.Nodup) {e : E}
    (he : e ∈ p.toBeAdded) : e ∉ old := by
  have hnil : removed = [] := List.eq_nil_of_length_eq_zero (by have := h.length; omega)
  obtain ⟨kept, hold, hperm⟩ := h.kept
  rw [hnil, List.append_nil] at hold
  intro hmem
  exact List.disjoint_of_nodup_append (hperm.nodup_iff.mp hnew) (hold.mem_iff.mp hmem) he

omit [DecidableEq E] in
theorem Describes.mem_new {p : Proposal E} {old new : List E} (h : p.Describes old new removed) {e : E}
    (he : e ∈ p.toBeAdded) : e ∈ new := by
  obtain ⟨kept, -, hperm⟩ := h.kept
  exact hperm.mem_iff.mpr (List.mem_append_right _ he)

end Proposal

namespace ChildrenCall

open Proposal ObservableListWrapper Program ListChangeBuilder

omit [DecidableEq E] in
theorem overArrayList_listened (l : List E) : OverArrayList (listened l) := ⟨tidy_empty, rfl, rfl⟩

theorem announced_of_reports (call : ObservableListWrapper.ListCall E) {l new : List E} {e : E}
    (hreports : Reports (listened l) (call.run (listened l)).2) (hcontents : call.contents l = new) (hnew : e ∈ new)
    (hold : e ∉ l) : Announced (call.run (listened l)).2.fired new e := by
  have hlist : (call.run (listened l)).2.backingList = new :=
    (run_contents (overArrayList_listened l) call).trans hcontents
  rw [← hlist] at hnew ⊢
  exact hreports.announced rfl hnew hold

/-- **Every added node is announced** to the listener, also one that was there before. -/
theorem announced {c : ChildrenCall E} {l new removed : List E} {p : Proposal E} (hc : c.InRange l)
    (hp : c.proposal l = some p) (hperform : c.perform l = .ok new) (h : p.Describes l new removed) (hnew : new.Nodup)
    {e : E} (he : e ∈ p.toBeAdded) : Announced (c.fired l) new e := by
  have hin := h.mem_new he
  cases c with
  | add x =>
    obtain rfl := Option.some.inj hp
    obtain rfl := Except.ok.inj hperform
    have hreports : Reports (listened l) ((ObservableListWrapper.ListCall.add x).run (listened l)).2 := by
      rw [ObservableListWrapper.ListCall.run, bind_pure_snd]
      exact add_reports rfl rfl rfl x
    exact announced_of_reports _ hreports rfl hin (h.fresh (by simp) hnew he)
  | addAt index x =>
    obtain rfl := Option.some.inj hp
    replace hc : 0 ≤ index ∧ index ≤ l.length := hc
    obtain ⟨i, rfl⟩ := Int.eq_ofNat_of_zero_le hc.1
    rw [perform, if_pos hc] at hperform
    obtain rfl := Except.ok.inj hperform
    refine announced_of_reports (.addAt i x) (addAt_reports rfl rfl rfl (by show i ≤ l.length; omega) x) ?_ hin
      (h.fresh (by simp) hnew he)
    exact if_pos hc
  | addAll xs =>
    obtain rfl := Option.some.inj hp
    obtain rfl := Except.ok.inj hperform
    have hreports : Reports (listened l)
        ((ObservableListWrapper.ListCall.addAll (collection xs)).run (listened l)).2 := by
      rw [ObservableListWrapper.ListCall.run, bind_pure_snd]
      exact addAll_reports rfl rfl _
    exact announced_of_reports _ hreports rfl hin (h.fresh (by simp) hnew he)
  | addAllAt index xs =>
    obtain rfl := Option.some.inj hp
    replace hc : 0 ≤ index ∧ index ≤ l.length := hc
    rw [perform, if_pos hc] at hperform
    obtain rfl := Except.ok.inj hperform
    have hreports : Reports (listened l)
        ((ObservableListWrapper.ListCall.addAllAt index (collection xs)).run (listened l)).2 := by
      rw [ObservableListWrapper.ListCall.run, bind_pure_snd]
      exact addAllAt_reports rfl rfl _ _
    exact announced_of_reports _ hreports (if_pos hc) hin (h.fresh (by simp) hnew he)
  | set index x =>
    obtain rfl := Option.some.inj hp
    obtain rfl := List.mem_singleton.mp he
    rw [perform] at hperform
    split at hperform
    · next hi =>
        obtain rfl := Except.ok.inj hperform
        obtain ⟨i, rfl⟩ := Int.eq_ofNat_of_zero_le hi.1
        have hlt : i < l.length := by omega
        have hfires := set_fires (overArrayList_listened l) rfl rfl (List.getElem?_eq_getElem hlt) e
        have hfired : (ChildrenCall.set (i : Int) e).fired l = [⟨l.set i e, [⟨i, i + 1, some [l[i]], [], false⟩]⟩] := by
          show ((ObservableListWrapper.ListCall.set (i : Int) e).run (listened l)).2.fired = _
          rw [ObservableListWrapper.ListCall.run, bind_pure_snd]
          exact hfires
        rw [hfired]
        refine ⟨_, List.mem_singleton_self _, _, List.mem_singleton_self _, ?_⟩
        simp only [show ((i : Int) + 1 - i).toNat = 1 by omega]
        rw [List.drop_eq_getElem_cons (by simpa using hlt), List.getElem_set_self]
        exact List.mem_cons_self
    · cases hperform
  | setAll col =>
    obtain rfl := Option.some.inj hp
    obtain rfl := Except.ok.inj hperform
    have hfired : (ChildrenCall.setAll col).fired l = (refilled l col.length).map fun r => ⟨col, [r]⟩ := by
      show ((ObservableListWrapper.ListCall.setAll (collection col)).run (listened l)).2.fired = _
      rw [ObservableListWrapper.ListCall.run, bind_pure_snd]
      rcases setAll_cases (listened l) (collection col) with ⟨hno, -⟩ | ⟨-, hreplace⟩
      · -- an empty list is replaced by an empty collection
        have hne : col ≠ [] := List.ne_nil_of_mem he
        cases l with
        | nil => simp [replaces, listened, collection, hne] at hno
        | cons x l => simp [replaces, listened] at hno
      · rw [hreplace]
        exact replaceAll_fires (overArrayList_listened l) rfl rfl (collection col)
    have hpos : 0 < col.length := List.length_pos_of_mem he
    rw [hfired, refilled, if_neg (by omega)]
    refine ⟨_, List.mem_singleton_self _, _, List.mem_singleton_self _, ?_⟩
    simpa using he
  | setAllItself =>
    obtain rfl : l = [] := hc
    obtain rfl := Option.some.inj hp
    cases he
  | remove o =>
    rw [proposal] at hp
    split at hp
    · obtain rfl := Option.some.inj hp
      cases he
    · cases hp
  | removeAt index | removeRange lo hi | clear =>
    obtain rfl := Option.some.inj hp
    cases he
  | removeAll xs | retainAll xs =>
    rw [proposal, proposeRemoval] at hp
    split at hp
    · cases hp
    · obtain rfl := Option.some.inj hp
      cases he

end ChildrenCall

end JavaFX
