/-
Which listeners are registered.

Whatever form the helper has, a listener that is added comes behind the others of its kind, one that
is removed leaves the others in their order, and neither affects the other kind.
-/
import JavaFX.Proofs.ListenerHelper.Runs

namespace JavaFX.Property

open List

variable {L V : Type} {s s' : Property L V}

/-! ### The registered listeners -/

/-- The listeners of one kind. -/
def ofKind (ls : List L × List L) : Kind → List L
  | .invalidation => ls.1
  | .change => ls.2

theorem registered_generic {ref : Nat} {g : Generic V} (hh : s.helper = .generic ref) (hg : s.generics[ref]? = some g)
    (kind : Kind) : ofKind s.registered kind = (g.listeners kind).content s.heap := by
  unfold registered
  simp only [hh, hg]
  cases kind <;> rfl

theorem registered_single {listener : Option L} {kind : Kind} (hh : s'.helper = s.single kind listener) :
    ofKind s'.registered kind = listener.toList ∧ ofKind s'.registered kind.other = [] := by
  unfold registered
  rw [hh]
  cases kind <;> exact ⟨rfl, rfl⟩

theorem content_pair (heap : Heap L) (x y : Option L) :
    (⟨some heap.length, 2⟩ : Listeners).content (heap ++ [[x, y]]) = x.toList ++ y.toList := by
  unfold Listeners.content Listeners.slots
  dsimp only
  rw [Listeners.getD_append_last]
  cases x <;> cases y <;> rfl

theorem genericOfSame_registered (s : Property L V) (kind : Kind) (l0 : Option L) (l1 : L) :
    ofKind (s.genericOfSame kind l0 l1).registered kind = l0.toList ++ [l1] ∧
      ofKind (s.genericOfSame kind l0 l1).registered kind.other = [] := by
  have hg : (s.genericOfSame kind l0 l1).generics[s.generics.length]? = some (({ currentValue := match kind with
      | .invalidation => none
      | .change => s.value } : Generic V).setListeners kind ⟨some s.heap.length, 2⟩) :=
    getElem?_concat_length
  constructor
  · rw [registered_generic rfl hg, listeners_setListeners, if_pos rfl]
    exact content_pair s.heap l0 (some l1)
  · rw [registered_generic rfl hg]
    cases kind <;> rfl

theorem genericOfBoth_registered (s : Property L V) (l0 l1 : Option L) :
    (s.genericOfBoth l0 l1).registered = (l0.toList, l1.toList) := by
  unfold registered genericOfBoth
  unfold Listeners.content Listeners.slots
  cases l0 <;> cases l1 <;> simp

theorem content_other (hs : HelperValid s) {g : Generic V} (hg : s.Current g) {kind : Kind} {shifts : Bool}
    {heap' : Heap L} {a' : Listeners} (hedit : Listeners.Edited shifts s.heap (g.listeners kind) heap' a') :
    (g.listeners kind.other).content heap' = (g.listeners kind.other).content s.heap := by
  unfold Listeners.content Listeners.slots
  cases harr : (g.listeners kind.other).array with
  | none => rfl
  | some r =>
    have hlt := (hs.valid g hg kind.other).exists_array r harr
    have hne : (g.listeners kind).array ≠ some r := by
      have := hs.apart g hg kind.other r harr
      rwa [Kind.other_other] at this
    dsimp only
    rw [hedit.others r hlt hne]

/-- **Adding** puts the listener behind those that are there, perhaps without some that were collected. -/
theorem addListener_registered (hs : HelperValid s) (kind : Kind) (l : L) (collected : L → Bool) :
    (ofKind (s.addListener kind l collected).registered kind = ofKind s.registered kind ++ [l] ∨
      ofKind (s.addListener kind l collected).registered kind =
        (ofKind s.registered kind).filter (fun l => !collected l) ++ [l]) ∧
      ofKind (s.addListener kind l collected).registered kind.other = ofKind s.registered kind.other := by
  unfold addListener
  cases hh : s.helper with
  | null =>
    have hreg : s.registered = ([], []) := by unfold registered; rw [hh]
    obtain ⟨h, ho⟩ := @registered_single _ _ s { s with helper := s.single kind (some l) } (some l) kind rfl
    rw [hreg]
    exact ⟨.inl (h.trans (by cases kind <;> rfl)), ho.trans (by cases kind <;> rfl)⟩
  | singleInvalidation l' =>
    have hreg : s.registered = (l'.toList, []) := by unfold registered; rw [hh]
    rw [hreg]
    cases kind with
    | invalidation => exact (genericOfSame_registered s .invalidation l' l).imp_left .inl
    | change =>
      rw [genericOfBoth_registered]
      exact ⟨.inl rfl, rfl⟩
  | singleChange l' v =>
    have hreg : s.registered = ([], l'.toList) := by unfold registered; rw [hh]
    rw [hreg]
    cases kind with
    | invalidation =>
      rw [genericOfBoth_registered]
      exact ⟨.inl rfl, rfl⟩
    | change => exact (genericOfSame_registered s .change l' l).imp_left .inl
  | generic ref =>
    obtain ⟨g, hg⟩ := hs.generic ref hh
    obtain ⟨hedit, hcontent⟩ := Listeners.add_spec (hs.valid g ⟨ref, hh, hg⟩ kind) collected g.locked l
    have hlt := (List.getElem?_eq_some_iff.mp hg).1
    simp only [hg]
    generalize hg' : (if kind = .change ∧ ((g.listeners kind).add collected g.locked l s.heap).2.size = 1 then
        ({ g.setListeners kind ((g.listeners kind).add collected g.locked l s.heap).2 with currentValue := s.value } : Generic V)
      else g.setListeners kind ((g.listeners kind).add collected g.locked l s.heap).2) = g'
    have hlisteners : ∀ k, g'.listeners k = if k = kind then ((g.listeners kind).add collected g.locked l s.heap).2
        else g.listeners k := fun k => by
      rw [← hg', ← listeners_setListeners]
      split <;> cases k <;> rfl
    have hafter : ∀ k, ofKind (registered { s with
        heap := ((g.listeners kind).add collected g.locked l s.heap).1
        generics := s.generics.set ref g'
        helper := Helper.generic ref }) k = (g'.listeners k).content ((g.listeners kind).add collected g.locked l s.heap).1 :=
      fun k => registered_generic rfl (getElem?_set_self hlt) k
    rw [hafter, hafter, hlisteners, hlisteners, if_pos rfl, if_neg (Kind.other_ne kind), registered_generic hh hg,
      registered_generic hh hg]
    refine ⟨?_, content_other hs ⟨ref, hh, hg⟩ hedit⟩
    rw [hcontent]
    split
    · exact .inr rfl
    · exact .inl rfl

theorem content_single {heap : Heap L} {a : Listeners} (hv : a.Valid heap) (h1 : a.size = 1) :
    a.content heap = ((a.slots heap)[0]?).join.toList := by
  have htake := hv.slots_eq
  have hlen := hv.length_content
  rw [h1] at htake hlen
  obtain ⟨x, hx⟩ := length_eq_one_iff.1 hlen
  rw [hx] at htake ⊢
  have h0 : (a.slots heap)[0]? = some (some x) := by
    have := congrArg (·[0]?) htake
    simpa using this
  rw [h0]
  rfl

variable [DecidableEq L]

theorem content_pair_erase {heap : Heap L} {a : Listeners} (hv : a.Valid heap) (h2 : a.size = 2) {l : L} {index : Nat}
    (hidx : a.indexOf l heap = some index) :
    (a.content heap).erase l = ((a.slots heap)[1 - index]?).join.toList := by
  obtain ⟨herase, hlt, -⟩ := hv.erase_eq hidx
  have htake := hv.slots_eq
  have hlen := hv.length_content
  rw [h2] at htake hlen hlt
  obtain ⟨x, y, hxy⟩ := length_eq_two.1 hlen
  rw [herase]
  rw [hxy] at htake ⊢
  have hat : ∀ i < 2, (a.slots heap)[i]? = ([x, y].map some)[i]? := fun i hi => by
    rw [← htake, getElem?_take, if_pos hi]
  rw [hat (1 - index) (by omega)]
  obtain rfl | rfl : index = 0 ∨ index = 1 := by omega
  · rfl
  · rfl

/-- **Removing** takes the first listener out that is equal. -/
theorem removeListener_registered (hs : HelperValid s) (kind : Kind) (l : L) :
    ofKind (s.removeListener kind l).registered kind = (ofKind s.registered kind).erase l ∧
      ofKind (s.removeListener kind l).registered kind.other = ofKind s.registered kind.other := by
  have hsingle : ∀ {kind' : Kind} {l' : Option L}, l'.isSome → ofKind s.registered kind' = l'.toList →
      ofKind s.registered kind'.other = [] → ∀ (p : Prop) [Decidable p], (p ↔ kind = kind' ∧ l' = some l) →
      ofKind (if p then { s with helper := Helper.null } else s).registered kind = (ofKind s.registered kind).erase l ∧
        ofKind (if p then { s with helper := Helper.null } else s).registered kind.other =
          ofKind s.registered kind.other := by
    intro kind' l' hl' hone hnone p _ hp
    obtain ⟨x, rfl⟩ := Option.isSome_iff_exists.1 hl'
    by_cases hc : p
    · rw [if_pos hc]
      obtain ⟨rfl, he⟩ := hp.1 hc
      obtain rfl := Option.some.inj he
      rw [hone, hnone]
      exact ⟨by cases kind <;> simp [registered, ofKind], by cases kind <;> rfl⟩
    · rw [if_neg hc]
      refine ⟨?_, rfl⟩
      rcases Kind.eq_or_other kind' kind with rfl | rfl
      · have hne : x ≠ l := fun e => hc (hp.2 ⟨rfl, by rw [e]⟩)
        rw [hone]
        exact (erase_of_not_mem (by simpa using hne.symm)).symm
      · rw [hnone]
        rfl
  unfold removeListener
  cases hh : s.helper with
  | null =>
    have hreg : s.registered = ([], []) := by unfold registered; rw [hh]
    rw [hreg]
    cases kind <;> exact ⟨rfl, rfl⟩
  | singleInvalidation l' =>
    have hreg : s.registered = (l'.toList, []) := by unfold registered; rw [hh]
    exact @hsingle .invalidation l' (hs.invalidation l' hh) (by rw [hreg]; rfl) (by rw [hreg]; rfl) _ _ Iff.rfl
  | singleChange l' v =>
    have hreg : s.registered = ([], l'.toList) := by unfold registered; rw [hh]
    exact @hsingle .change l' (hs.change l' v hh) (by rw [hreg]; rfl) (by rw [hreg]; rfl) _ _ Iff.rfl
  | generic ref =>
    obtain ⟨g, hg⟩ := hs.generic ref hh
    have hcur : s.Current g := ⟨ref, hh, hg⟩
    have hv := hs.valid g hcur
    have hlt := (List.getElem?_eq_some_iff.mp hg).1
    have hbefore := registered_generic hh hg
    have hafter : ∀ (heap' : Heap L) (g' : Generic V) k, ofKind (registered { s with
        heap := heap', generics := s.generics.set ref g', helper := Helper.generic ref }) k =
          (g'.listeners k).content heap' := fun heap' g' k => registered_generic rfl (getElem?_set_self hlt) k
    simp only [hg]
    cases hidx : (g.listeners kind).indexOf l s.heap with
    | none =>
      refine ⟨?_, rfl⟩
      rw [(hv kind).indexOf_eq] at hidx
      rw [hbefore, erase_of_not_mem (by simpa using hidx)]
    | some index =>
      obtain ⟨herase, hilt, -⟩ := (hv kind).erase_eq hidx
      simp only
      rw [hbefore, hbefore]
      by_cases h1 : (g.listeners kind).size = 1
      · rw [if_pos h1]
        have hnil : ((g.listeners kind).content s.heap).erase l = [] := by
          rw [herase]
          refine length_eq_zero_iff.1 ?_
          rw [length_eraseIdx_of_lt (by rw [(hv kind).length_content]; exact hilt), (hv kind).length_content, h1]
        rw [hnil]
        by_cases h2 : (g.listeners kind.other).size = 1
        · rw [if_pos h2]
          obtain ⟨h, ho⟩ := @registered_single _ _ s { s with
            helper := s.single kind.other (((g.listeners kind.other).slots s.heap)[0]?).join } _ kind.other rfl
          rw [Kind.other_other] at ho
          exact ⟨ho, h.trans (content_single (hv kind.other) h2).symm⟩
        · rw [if_neg h2]
          have h := hafter s.heap (g.setListeners kind {})
          refine ⟨(h kind).trans ?_, (h kind.other).trans ?_⟩
          · rw [listeners_setListeners, if_pos rfl]
            rfl
          · rw [listeners_setListeners, if_neg (Kind.other_ne kind)]
      · rw [if_neg h1]
        by_cases h2 : (g.listeners kind).size = 2 ∧ (g.listeners kind.other).size = 0
        · rw [if_pos h2]
          obtain ⟨h, ho⟩ := @registered_single _ _ s { s with
            helper := s.single kind (((g.listeners kind).slots s.heap)[1 - index]?).join } _ kind rfl
          refine ⟨h.trans (content_pair_erase (hv kind) h2.1 hidx).symm, ho.trans ?_⟩
          exact (length_eq_zero_iff.1 ((hv kind.other).length_content.trans h2.2)).symm
        · rw [if_neg h2]
          obtain ⟨hedit, hcontent⟩ := Listeners.removeAt_spec (hv kind) g.locked hilt
          have h := hafter ((g.listeners kind).removeAt g.locked index s.heap).1
            (g.setListeners kind ((g.listeners kind).removeAt g.locked index s.heap).2)
          refine ⟨(h kind).trans ?_, (h kind.other).trans ?_⟩
          · rw [listeners_setListeners, if_pos rfl, hcontent, herase]
          · rw [listeners_setListeners, if_neg (Kind.other_ne kind)]
            exact content_other hs hcur hedit

end JavaFX.Property
