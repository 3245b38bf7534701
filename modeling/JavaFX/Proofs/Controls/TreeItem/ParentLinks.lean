/-
Whether an item knows whose child it is.

An item that is in one list of children at a time, but in several places of it, has a link that counts more than zero.
Such a link is never lowered, so the item keeps its parent when it leaves the list.  That is all that can go wrong.
-/
import JavaFX.Proofs.Controls.TreeItem.Runs

namespace JavaFX

open Program EditScript ListChangeBuilder ObservableListWrapper IndexTable

/-! ### What a call adds -/

section
variable {E : Type} [DecidableEq E] {w : ObservableListWrapper E Unit} {c : ListCall E} {change : Change E} {e : E}

omit [DecidableEq E] in
theorem mem_of_mem_getAddedSubList {r : SubChange E} {list : List E} (h : e ∈ r.getAddedSubList list) :
    e ∈ list ∧ r.wasAdded = true := by
  unfold SubChange.getAddedSubList at h
  split at h
  · next hadded => exact ⟨List.mem_of_mem_drop (List.mem_of_mem_take h), hadded⟩
  · cases h

theorem mem_of_added (h : OverArrayList w) (hex : w.exposed = true) (hno : w.leaks c = false)
    (hfired : (c.run w).2.fired = w.fired ++ [change])
    (he : e ∈ change.changes.flatMap (·.getAddedSubList change.list)) : e ∈ (c.run w).2.backingList := by
  obtain ⟨hlock, hl⟩ : w.changeBuilder.changeLock = 0 ∧ w.hasListeners = true := by
    simpa [exposed] using hex
  have hidle : w.changeBuilder = {} := h.wellFormed.idle hlock
  obtain ⟨r, hr, hmem⟩ := List.mem_flatMap.mp he
  obtain ⟨hlist, hwas⟩ := mem_of_mem_getAddedSubList hmem
  rcases fired_cases h hl hidle hfired with ⟨-, hadds⟩ | hremoves | ⟨hresult, -⟩ | ⟨perm, rfl, hne, -⟩
  · rcases run_balance h hex hno with ⟨hnone, -⟩ | ⟨change', hfired', hbalance⟩
    · rw [told hfired] at hnone
      cases hnone
    · obtain rfl : change' = change := by simpa using hfired'.symm.trans hfired
      have hremoved : change'.changes.flatMap (·.getRemoved) = [] := by
        rw [List.flatMap_eq_nil_iff]
        intro r hr
        simp [SubChange.getRemoved, (hadds r hr).removed]
      have := hbalance e
      have hpos := List.count_pos_iff.mpr he
      rw [hremoved, List.count_nil] at this
      exact List.count_pos_iff.mp (by omega)
  · simp [SubChange.wasAdded, (hremoves r hr).empty] at hwas
  · rw [run_contents h, ← hresult]
    exact hlist
  · obtain rfl := List.mem_singleton.mp hr
    simp [SubChange.wasAdded, SubChange.wasPermutated, hne] at hwas

end

namespace TreeItems

variable {I : Type} [DecidableEq I] {s s' : TreeItems I} {p i : I} {removed added : List I} {fuel : Nat}

/-! ### One edit -/

/-- Every item knows whose child it is, and the items that are no children know that. -/
def Agrees (s : TreeItems I) : Prop :=
  ∀ i, (∀ p, (s.item i).parent = some p ↔ i ∈ s.children p) ∧ ((s.item i).parent = none ↔ ∀ p, i ∉ s.children p)

/-- No item is in two lists of children. -/
def Alone (s : TreeItems I) : Prop := ∀ i p q, i ∈ s.children p → i ∈ s.children q → p = q

/-- The link of an item counts nothing if the item leaves the list of children of `p`. -/
def Released (s : TreeItems I) (p : I) (c : ListCall I) : Prop :=
  ∀ i ∈ s.children p, i ∉ (c.run (s.item p).children).2.backingList → (s.item i).parentLinkCount = 0

omit [DecidableEq I] in
theorem agrees_iff : s.Agrees ↔ ∀ i p, (s.item i).parent = some p ↔ i ∈ s.children p := by
  refine ⟨fun h i => (h i).1, fun h i => ⟨h i, ?_⟩⟩
  rw [Option.eq_none_iff_forall_ne_some]
  exact forall_congr' fun p => not_congr (h i p)

/-- What holds as long as the items know their parents. -/
structure Knowing (s : TreeItems I) : Prop where
  agrees : s.Agrees
  lists : ∀ i, OverArrayList (s.item i).children ∧ (s.item i).children.exposed = true
  counted : ∀ i, 0 ≤ (s.item i).parentLinkCount ∧ ∀ p, ((s.children p).count i : Int) ≤ (s.item i).parentLinkCount + 1
  free : ∀ i, (s.item i).parent = none → (s.item i).parentLinkCount = 0

theorem fireEvent_item (fuel : Nat) (i : I) (s : TreeItems I) : (fireEvent fuel i s).2.item = s.item := by
  rw [fireEvent, bind_ok (read_apply _ s)]
  cases hchain : buildEventDispatchChain fuel i s with
  | error ex => rfl
  | ok chain =>
    rw [bind_ok (lift_apply _ s)]
    obtain ⟨s', hs', hsoiled⟩ := itemListener_soils chain.reverse s
    rw [hs']
    exact hsoiled.item

/-- What an edit does to items that know their parents, once its links are changed. -/
theorem Relinked.agrees_iff (h : Relinked s s' p removed added) (hs : s.Knowing) (halone : s'.Alone)
    (hstays : ∀ a ∈ added, a ∈ s'.children p) :
    (s'.Agrees ↔ ∀ i ∈ s.children p, i ∉ s'.children p → (s.item i).parentLinkCount = 0) ∧
      (∀ i, 0 ≤ (s'.item i).parentLinkCount ∧ ∀ q,
        ((s'.children q).count i : Int) ≤ (s'.item i).parentLinkCount + 1) ∧
      ∀ i, (s'.item i).parent = none → (s'.item i).parentLinkCount = 0 := by
  have hagrees := TreeItems.agrees_iff.mp hs.agrees
  have hlinked : ∀ q, ∀ c ∈ s.children q, (s.item c).parent = some q := fun q c hc => (hagrees c q).mpr hc
  have hunlisted : ∀ a ∈ added, ∀ q ≠ p, a ∉ s.children q := by
    intro a ha q hq hmem
    rw [← (h.others q hq).1] at hmem
    exact hq (halone a q p hmem (hstays a ha))
  have hfree : ∀ a ∈ added, (s.item a).parentLinkCount = 0 ∨ (s.item a).parent = some p := by
    intro a ha
    cases hparent : (s.item a).parent with
    | none => exact .inl (hs.free a hparent)
    | some q =>
      by_cases hq : q = p
      · exact .inr (by rw [hq])
      · exact absurd ((hagrees a q).mp hparent) (hunlisted a ha q hq)
  refine ⟨?_, h.counted hlinked hs.counted hfree, fun i hnone => ?_⟩
  · rw [TreeItems.agrees_iff]
    constructor
    · intro hagrees' i hi hgone
      by_contra hcount
      have hout : i ∉ added := fun ha => hgone (hstays i ha)
      have hkept := (h.not_added hout).2
      rw [if_pos (.inr hcount), hlinked p i hi] at hkept
      exact hgone ((hagrees' i p).mp hkept)
    · intro hreleased i q
      refine ⟨fun hparent => ?_, h.linked hlinked hs.counted hfree hunlisted q i⟩
      by_cases hi : i ∈ added
      · rw [(h.of_added hi (hfree i hi)).1, Option.some.injEq] at hparent
        exact hparent ▸ hstays i hi
      · rw [(h.not_added hi).2] at hparent
        split at hparent
        · next hkept =>
          have hold := (hagrees i q).mp hparent
          by_cases hq : q = p
          · subst hq
            by_contra hgone
            -- it is gone, so it is removed
            have hbalance := h.balance i
            rw [List.count_eq_zero.mpr hgone] at hbalance
            have hpos := List.count_pos_iff.mpr hold
            have hremoved : i ∈ removed := List.count_pos_iff.mp (by omega)
            exact hkept.elim (fun hnot => hnot hremoved) fun hcount => hcount (hreleased i hold hgone)
          · rwa [(h.others q hq).1]
        · cases hparent
  · by_cases hi : i ∈ added
    · rw [(h.of_added hi (hfree i hi)).1] at hnone
      cases hnone
    · obtain ⟨hcount, hparent⟩ := h.not_added hi
      rw [hcount]
      rw [hparent] at hnone
      split at hnone
      · exact hs.free i hnone
      · next hkept => exact not_not.mp fun hcount => hkept (.inr hcount)

/-- An edit of the children of `p` leaves the items knowing their parents, or not. -/
theorem edit_agrees_iff (hs : s.Knowing) {c : ListCall I} (hleaks : (s.item p).children.leaks c = false)
    (halone : (edit fuel p c s).2.Alone) :
    ((edit fuel p c s).2.Agrees ↔ s.Released p c) ∧ ((edit fuel p c s).2.Agrees → (edit fuel p c s).2.Knowing) := by
  obtain ⟨hover, hexposed⟩ := hs.lists p
  rcases run_balance hover hexposed hleaks with ⟨hnone, hsame⟩ | ⟨change, hfired, hbalance⟩
  · have hedit : (edit fuel p c s).2 = s.setItem p fun t => { t with children := (c.run (s.item p).children).2 } := by
      rw [edit, hnone]
      rfl
    rw [hedit]
    generalize hs' : (s.setItem p fun t => { t with children := (c.run (s.item p).children).2 }) = s'
    have hlists : ∀ i, (s'.item i).children = if i = p then (c.run (s.item p).children).2 else (s.item i).children := by
      intro i
      by_cases hi : i = p
      · rw [← hs', hi, setItem_self, if_pos rfl]
      · rw [← hs', setItem_ne s hi, if_neg hi]
    have hlinks : ∀ i, (s'.item i).parent = (s.item i).parent ∧ (s'.item i).parentLinkCount = (s.item i).parentLinkCount := by
      intro i
      by_cases hi : i = p
      · rw [← hs', hi, setItem_self]
        exact ⟨rfl, rfl⟩
      · rw [← hs', setItem_ne s hi]
        exact ⟨rfl, rfl⟩
    have hchildren : s'.children = s.children := by
      funext i
      unfold children
      rw [hlists]
      by_cases hi : i = p
      · rw [if_pos hi, hsame, hi]
      · rw [if_neg hi]
    have hagrees : s'.Agrees := by
      intro i
      rw [(hlinks i).1, hchildren]
      exact hs.agrees i
    refine ⟨⟨fun _ i hi hgone => absurd (hsame ▸ hi) hgone, fun _ => hagrees⟩, fun _ => ⟨hagrees, ?_, ?_, ?_⟩⟩
    · exact lists_run hs.lists hleaks hlists
    · intro i
      rw [(hlinks i).2, hchildren]
      exact hs.counted i
    · intro i
      rw [(hlinks i).1, (hlinks i).2]
      exact hs.free i
  · have hitem : (edit fuel p c s).2.item = (s.edited p (c.run (s.item p).children).2 change).item := by
      rw [edit, told hfired]
      show (forEach (childrenListener fuel p) [change] _).2.item = _
      rw [forEach, forEach, bind_pure_snd, childrenListener_apply, fireEvent_item]
    generalize (edit fuel p c s).2 = s' at *
    obtain ⟨item, count⟩ := s'
    obtain rfl : item = _ := hitem
    have hlist : (s.edited p (c.run (s.item p).children).2 change).children p = (c.run (s.item p).children).2.backingList := by
      rw [children, edited_children, if_pos rfl]
    have hstays : ∀ a ∈ added change, a ∈ (s.edited p (c.run (s.item p).children).2 change).children p := by
      intro a ha
      rw [hlist]
      exact mem_of_added hover hexposed hleaks hfired ha
    obtain ⟨hiff, hcounted, hfree⟩ := (relinked_edited hbalance).agrees_iff hs halone hstays
    rw [hlist] at hiff
    exact ⟨hiff, fun hagrees => ⟨hagrees, lists_run hs.lists hleaks (edited_children p _ change s), hcounted, hfree⟩⟩

/-! ### Runs -/

def step (fuel : Nat) (s : TreeItems I) (c : I × ListCall I) : TreeItems I := (edit fuel c.1 c.2 s).2

/-- Something holds of each call of a run, and of the state it is made in. -/
def Each (fuel : Nat) (P : TreeItems I → I × ListCall I → Prop) : List (I × ListCall I) → TreeItems I → Prop
  | [], _ => True
  | c :: calls, s => P s c ∧ Each fuel P calls (step fuel s c)

theorem each_agrees_iff : ∀ (calls : List (I × ListCall I)) (s : TreeItems I), s.Knowing →
    Each fuel (fun s c => (s.item c.1).children.leaks c.2 = false ∧ (step fuel s c).Alone) calls s →
    (Each fuel (fun s c => (step fuel s c).Agrees) calls s ↔ Each fuel (fun s c => s.Released c.1 c.2) calls s) := by
  intro calls
  induction calls with
  | nil => exact fun _ _ _ => Iff.rfl
  | cons c calls ih =>
    rintro s hs ⟨⟨hleaks, halone⟩, hrun⟩
    obtain ⟨hiff, hknowing⟩ := edit_agrees_iff hs hleaks halone
    constructor
    · exact fun h => ⟨hiff.mp h.1, (ih _ (hknowing h.1) hrun).mp h.2⟩
    · intro h
      have hagrees := hiff.mpr h.1
      exact ⟨hagrees, (ih _ (hknowing hagrees) hrun).mpr h.2⟩

theorem new_knowing : (new : TreeItems I).Knowing where
  agrees i := by simp [new, children]
  lists := fun _ => ⟨⟨(Reachable.new _ rfl).wellFormed, rfl, rfl⟩, rfl⟩
  counted i := by simp [new, children]
  free i _ := rfl

/-- **When items know their parents.**  In a run of calls that report what they do and never put an item into two lists,
every item knows its parent after each call, if and only if the link of an item that leaves its list counts nothing. -/
theorem parents_agree_iff (fuel : Nat) (calls : List (I × ListCall I))
    (hrun : Each fuel (fun s c => (s.item c.1).children.leaks c.2 = false ∧ (step fuel s c).Alone) calls new) :
    Each fuel (fun s c => (step fuel s c).Agrees) calls new ↔ Each fuel (fun s c => s.Released c.1 c.2) calls new :=
  each_agrees_iff calls new new_knowing hrun

theorem parents_agree_iff_removed : Each 2 (fun s c => (step 2 s c).Agrees)
    [((0 : Fin 2), .add 1), (0, .removeAt 0)] (new : TreeItems (Fin 2)) := by
  refine (parents_agree_iff 2 _ ?_).mpr ?_
  · refine ⟨⟨rfl, ?_⟩, ⟨rfl, ?_⟩, trivial⟩
    all_goals
      unfold Alone
      decide +kernel
  · refine ⟨?_, ?_, trivial⟩
    all_goals
      unfold Released
      decide +kernel

/-- An item that was twice in a list keeps its parent when the list is cleared. -/
theorem not_agrees_twice : ¬∀ calls : List (Fin 2 × ListCall (Fin 2)),
    Each 2 (fun s c => (s.item c.1).children.leaks c.2 = false ∧ (step 2 s c).Alone) calls new →
      Each 2 (fun s c => (step 2 s c).Agrees) calls new := by
  intro h
  have hagrees := h [(0, .add 1), (0, .add 1), (0, .clear)] (by
    refine ⟨⟨rfl, ?_⟩, ⟨rfl, ?_⟩, ⟨rfl, ?_⟩, trivial⟩
    all_goals
      unfold Alone
      decide +kernel)
  have := (hagrees.2.2.1 1).1 0
  revert this
  decide +kernel

end TreeItems

end JavaFX
