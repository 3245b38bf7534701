/-
The counts stay right in every run that keeps the links in order.

The handlers an event reaches are found through the parents.  So everything depends on every
child knowing its parent, which an item that is listed in two places does not: it knows one
of them, and leaving either place may cut the link to the other.  `parentLinkCount` is there
to prevent that for two places in one list; it is never lowered, and an item for which it
has been raised stays with its parent for good.
-/
import JavaFX.Proofs.Controls.TreeUtil
import JavaFX.Proofs.ObservableListWrapper.Balance

namespace JavaFX.TreeItems

open Program Outline ObservableListWrapper List Function

variable {I : Type} [DecidableEq I]

variable {j : I} {fuel : Nat}

@[simp] theorem setItem_count (s : TreeItems I) (i : I) (f : TreeItem I → TreeItem I) :
    (s.setItem i f).count = s.count := rfl

@[simp] theorem setItem_self (s : TreeItems I) (i : I) (f : TreeItem I → TreeItem I) :
    (s.setItem i f).item i = f (s.item i) :=
  update_self i _ _

theorem setItem_ne (s : TreeItems I) {i : I} (h : j ≠ i) (f : TreeItem I → TreeItem I) :
    (s.setItem i f).item j = s.item j :=
  update_of_ne h _ _

/-! ### Events -/

omit [DecidableEq I] in
theorem buildEventDispatchChain_eq (s : TreeItems I) : ∀ (fuel : Nat) (i : I), buildEventDispatchChain fuel i s =
      match lineage s.outline.parent fuel i with
      | some l => .ok l.reverse
      | none => .error .endless := by
  intro fuel
  induction fuel with
  | zero => intro i; rfl
  | succ fuel ih =>
    intro i
    rw [lineage]
    cases hparent : s.outline.parent i with
    | none =>
      rw [buildEventDispatchChain, show (s.item i).parent = none from hparent]
      rfl
    | some p =>
      rw [buildEventDispatchChain, show (s.item i).parent = some p from hparent]
      simp only [ih p]
      cases lineage s.outline.parent fuel p with
      | none => rfl
      | some l => simp [Except.map]

/-- The counts of some items are dirty now. -/
structure Soiled (s s' : TreeItems I) (P : I → Prop) : Prop where
  item : s'.item = s.item
  dirty : ∀ j, P j → (s'.count j).expandedDescendentCountDirty = true
  same : ∀ j, ¬ P j → s'.count j = s.count j
  valid : ∀ j, (s'.count j).expandedValid = (s.count j).expandedValid

theorem itemListener_soils : ∀ (l : List I) (s : TreeItems I),
    ∃ s', forEach itemListener l s = (.ok (), s') ∧ Soiled s s' (· ∈ l) := by
  intro l
  induction l with
  | nil => intro s; exact ⟨s, rfl, rfl, by simp, fun _ _ => rfl, fun _ => rfl⟩
  | cons i l ih =>
    intro s
    obtain ⟨s', hs', hsoiled⟩ :=
      ih (s.setCount i fun c => { c with expandedDescendentCountDirty := true })
    refine ⟨s', by rw [forEach]; exact (bind_ok (modify_apply _ s)).trans hs', hsoiled.item, ?_, ?_, ?_⟩
    · intro j hj
      by_cases hl : j ∈ l
      · exact hsoiled.dirty j hl
      · obtain rfl := (List.mem_cons.mp hj).resolve_right hl
        rw [hsoiled.same j hl, setCount_self]
    · intro j hj
      rw [mem_cons, not_or] at hj
      rw [hsoiled.same j hj.2, setCount_ne s hj.1]
    · intro j
      rw [hsoiled.valid j]
      by_cases hj : j = i
      · rw [hj, setCount_self]
      · rw [setCount_ne s hj]

variable [Fintype I]

/-- **An event reaches the item and everybody above it.** -/
theorem fireEvent_soils {s : TreeItems I} (h : Rooted s.outline.parent)
    (hfuel : Fintype.card I ≤ fuel) (i : I) : ∃ s', fireEvent fuel i s = (.ok (), s') ∧
      Soiled s s' fun j => j = i ∨ Ancestor s.outline.parent j i := by
  have hdepth := h.depth_lt_card i
  obtain ⟨l, hl, hmem⟩ := h.lineage_eq_some fuel i (by omega)
  obtain ⟨s', hs', hsoiled⟩ := itemListener_soils l s
  refine ⟨s', ?_, hsoiled.item, ?_, ?_, hsoiled.valid⟩
  · have hchain : buildEventDispatchChain fuel i s = .ok l.reverse := by
      rw [buildEventDispatchChain_eq, hl]
    rw [fireEvent, bind_ok (read_apply _ s), hchain, bind_ok (lift_apply _ s), reverse_reverse]
    exact hs'
  · exact fun j hj => hsoiled.dirty j ((hmem j).mpr hj)
  · exact fun j hj => hsoiled.same j fun hjl => hj ((hmem j).mp hjl)

/-! ### Changes of one item -/

/-- What a change of one item may do to the outline. -/
structure Touched (s s' : TreeItems I) (p : I) : Prop where
  sound : s'.outline.Sound
  same : ∀ j ≠ p, s'.children j = s.children j ∧ s'.outline.shown j = s.outline.shown j

omit [DecidableEq I] in
theorem Touched.visible_eq {s s' : TreeItems I} {p : I} (h : Touched s s' p)
    (hj : p ∉ s'.outline.visible j) : s.outline.visible j = s'.outline.visible j := by
  refine visible_congr j fun x hx => ?_
  obtain ⟨hchildren, hshown⟩ := h.same x fun heq => hj (heq ▸ hx)
  exact ⟨hchildren.symm, hshown.symm⟩

omit [DecidableEq I] in
theorem Touched.fresh {s s' : TreeItems I} {p : I} (h : Touched s s' p)
    (hj : p ∉ s'.outline.visible j) (hfresh : s.Fresh j) (hcount : s'.count j = s.count j)
    (hvalid : ∀ x ≠ p, (s'.count x).expandedValid = (s.count x).expandedValid) : s'.Fresh j := by
  intro hclean
  rw [hcount] at hclean
  obtain ⟨hright, hread⟩ := hfresh hclean
  have hrows := h.visible_eq hj
  refine ⟨by rw [hcount, hright, hrows], ?_⟩
  intro x hx hne
  have hxp : x ≠ p := fun heq => hj (heq ▸ hx)
  rw [hvalid x hxp]
  refine hread x (by rw [hrows]; exact hx) ?_
  rwa [← (h.same x hxp).1]

theorem Touched.fresh_soiled {s s₁ s₂ : TreeItems I} {p : I} (h : Touched s s₁ p)
    (hsoiled : Soiled s₁ s₂ fun j => j = p ∨ Ancestor s₁.outline.parent j p)
    (hcount : ∀ j ≠ p, s₁.count j = s.count j) (hfresh : ∀ j, s.Fresh j) : ∀ j, s₂.Fresh j := by
  intro j
  have ho₂ := outline_congr hsoiled.item
  by_cases hj : j = p ∨ Ancestor s₁.outline.parent j p
  · intro hclean
    rw [hsoiled.dirty j hj] at hclean
    cases hclean
  · have h₂ : Touched s s₂ p := by
      refine ⟨by rw [ho₂]; exact h.sound, ?_⟩
      rw [ho₂, children_congr hsoiled.item]
      exact h.same
    refine h₂.fresh ?_ (hfresh j) ?_ ?_
    · intro hmem
      rw [ho₂] at hmem
      rcases h.sound.mem_visible hmem with heq | ha
      · exact hj (.inl heq.symm)
      · exact hj (.inr ha)
    · rw [hsoiled.same j hj]
      exact hcount j fun heq => hj (.inl heq)
    · intro x hx
      rw [hsoiled.valid x, hcount x hx]

/-! ### Links -/

section
omit [Fintype I]

/-- One round of `updateChildrenParent`, seen from the item. -/
def linkStep (newParent : Option I) (t : TreeItem I) : TreeItem I :=
  { t with
    parent := if t.parentLinkCount = 0 then newParent else t.parent
    parentLinkCount :=
      if t.parent.isSome && t.parent == newParent then
        if newParent.isNone then t.parentLinkCount - 1 else t.parentLinkCount + 1
      else t.parentLinkCount }

theorem setItem_setItem (s : TreeItems I) (i : I) (f g : TreeItem I → TreeItem I) :
    (s.setItem i f).setItem i g = s.setItem i (g ∘ f) := by
  simp [setItem]

theorem setItem_id (s : TreeItems I) (i : I) : s.setItem i (fun t => t) = s := by
  simp [setItem]

theorem setItem_congr (s : TreeItems I) {i : I} {f g : TreeItem I → TreeItem I}
    (h : f (s.item i) = g (s.item i)) : s.setItem i f = s.setItem i g := by
  unfold setItem
  rw [h]

theorem updateChildParent_eq (newParent : Option I) (s : TreeItems I) (i : I) :
    updateChildParent newParent s i = s.setItem i (linkStep newParent) := by
  unfold updateChildParent
  by_cases hzero : (s.item i).parentLinkCount = 0
  · by_cases hmatch : ((s.item i).parent.isSome && (s.item i).parent == newParent) = true
    · by_cases hnone : newParent.isNone = true
      · simp only [if_pos hzero, if_pos hmatch, if_pos hnone, setItem_setItem]
        exact setItem_congr s (by simp [linkStep, hzero, hmatch, hnone])
      · simp only [if_pos hzero, if_pos hmatch, if_neg hnone, setItem_setItem]
        exact setItem_congr s (by simp [linkStep, hzero, hmatch, hnone])
    · simp only [if_pos hzero, if_neg hmatch]
      exact setItem_congr s (by simp [linkStep, hzero, hmatch])
  · by_cases hmatch : ((s.item i).parent.isSome && (s.item i).parent == newParent) = true
    · by_cases hnone : newParent.isNone = true
      · simp only [if_neg hzero, if_pos hmatch, if_pos hnone]
        exact setItem_congr s (by simp [linkStep, hzero, hmatch, hnone])
      · simp only [if_neg hzero, if_pos hmatch, if_neg hnone]
        exact setItem_congr s (by simp [linkStep, hzero, hmatch, hnone])
    · simp only [if_neg hzero, if_neg hmatch]
      exact (setItem_id s i).symm.trans (setItem_congr s (by simp [linkStep, hzero, hmatch]))

/-- Every item goes through as many rounds as it is listed. -/
theorem updateChildrenParent_item (newParent : Option I) : ∀ (l : List I) (s : TreeItems I) (j : I),
    (updateChildrenParent l newParent s).item j = (linkStep newParent)^[l.count j] (s.item j) := by
  intro l
  induction l with
  | nil => intro s j; rfl
  | cons i l ih =>
    intro s j
    rw [updateChildrenParent, foldl_cons, ← updateChildrenParent, ih, updateChildParent_eq]
    by_cases hj : i = j
    · rw [hj, setItem_self, count_cons_self, iterate_succ_apply]
    · rw [setItem_ne s (Ne.symm hj), count_cons_of_ne hj]

theorem updateChildrenParent_count (newParent : Option I) : ∀ (l : List I) (s : TreeItems I),
    (updateChildrenParent l newParent s).count = s.count := by
  intro l
  induction l with
  | nil => intro s; rfl
  | cons i l ih =>
    intro s
    rw [updateChildrenParent, foldl_cons, ← updateChildrenParent, ih, updateChildParent_eq]
    rfl

theorem linkStep_rest (newParent : Option I) (t : TreeItem I) : ∀ n,
    ((linkStep newParent)^[n] t).children = t.children ∧ ((linkStep newParent)^[n] t).leaf = t.leaf ∧
      ((linkStep newParent)^[n] t).expanded = t.expanded := by
  intro n
  induction n with
  | zero => exact ⟨rfl, rfl, rfl⟩
  | succ n ih =>
    rw [iterate_succ_apply']
    exact ih

theorem linkStep_removed (t : TreeItem I) : ∀ n, ((linkStep none)^[n] t).parentLinkCount = t.parentLinkCount ∧
      ((linkStep none)^[n] t).parent = if n = 0 ∨ t.parentLinkCount ≠ 0 then t.parent else none := by
  intro n
  induction n with
  | zero => exact ⟨rfl, by simp⟩
  | succ n ih =>
    obtain ⟨hcount, hparent⟩ := ih
    rw [iterate_succ_apply']
    have hmatch : ∀ u : TreeItem I, (u.parent.isSome && u.parent == none) = false := by
      intro u
      cases u.parent <;> rfl
    refine ⟨?_, ?_⟩
    · simp only [linkStep, hmatch]
      exact hcount
    · simp only [linkStep, hcount, hparent]
      by_cases hzero : t.parentLinkCount = 0
      · simp [hzero]
      · simp [hzero]

theorem linkStep_added {t : TreeItem I} {p : I} (h : t.parentLinkCount = 0 ∨ t.parent = some p) :
    ∀ n, ((linkStep (some p))^[n + 1] t).parent = some p ∧ ((linkStep (some p))^[n + 1] t).parentLinkCount
        = t.parentLinkCount + n + if t.parent = some p then 1 else 0 := by
  intro n
  induction n with
  | zero =>
    show (linkStep (some p) t).parent = some p ∧ (linkStep (some p) t).parentLinkCount = _
    by_cases hp : t.parent = some p
    · simp [linkStep, hp]
    · have hzero := h.resolve_right hp
      have hmatch : (t.parent.isSome && t.parent == some p) = false := by simp [hp]
      simp only [linkStep, hmatch, hp, hzero]
      simp
  | succ n ih =>
    obtain ⟨hparent, hcount⟩ := ih
    rw [iterate_succ_apply']
    generalize (linkStep (some p))^[n + 1] t = u at hparent hcount ⊢
    have hmatch : (u.parent.isSome && u.parent == some p) = true := by simp [hparent]
    refine ⟨by simp [linkStep, hparent], ?_⟩
    simp only [linkStep, hmatch, Option.isNone_some]
    push_cast
    omega

end

/-! ### Edits -/

/-- The links agree, the caches are right, the lists report what is done to them, and an
item is listed in one place more often only as its link counts. -/
structure Consistent (s : TreeItems I) : Prop extends s.Ready where
  lists : ∀ i, OverArrayList (s.item i).children ∧ (s.item i).children.exposed = true
  counted : ∀ i, 0 ≤ (s.item i).parentLinkCount ∧ ∀ p, ((s.children p).count i : Int) ≤ (s.item i).parentLinkCount + 1

/-- `a` can be put below `p`: it is not above it, it is in no other list, and it is free to
take a new parent or has this one. -/
structure Placeable (s : TreeItems I) (p a : I) : Prop where
  ne : a ≠ p
  not_above : ¬ Ancestor s.outline.parent a p
  unlisted : ∀ q ≠ p, a ∉ s.children q
  free : (s.item a).parentLinkCount = 0 ∨ (s.item a).parent = some p

/-- What an edit of the children of `p` does to the items: `removed` and `added` are what it
reports. -/
structure Relinked (s s' : TreeItems I) (p : I) (removed added : List I) : Prop where
  others : ∀ q ≠ p, s'.children q = s.children q ∧ (s'.item q).leaf = (s.item q).leaf
  leaf : (s'.item p).leaf = (s'.children p).isEmpty
  expanded : ∀ q, (s'.item q).expanded = (s.item q).expanded
  balance : ∀ i, (s'.children p).count i + removed.count i = (s.children p).count i + added.count i
  link : ∀ i, ∃ t : TreeItem I, t.parent = (s.item i).parent ∧ t.parentLinkCount = (s.item i).parentLinkCount ∧
    (s'.item i).parent = ((linkStep (some p))^[added.count i] ((linkStep none)^[removed.count i] t)).parent ∧
    (s'.item i).parentLinkCount
      = ((linkStep (some p))^[added.count i] ((linkStep none)^[removed.count i] t)).parentLinkCount

section
variable {s s' : TreeItems I} {p : I} {removed added : List I}

omit [Fintype I] in
theorem Relinked.not_added (h : Relinked s s' p removed added) {i : I} (hi : i ∉ added) :
    (s'.item i).parentLinkCount = (s.item i).parentLinkCount ∧ (s'.item i).parent
        = if i ∉ removed ∨ (s.item i).parentLinkCount ≠ 0 then (s.item i).parent else none := by
  obtain ⟨t, htparent, htcount, hparent, hcount⟩ := h.link i
  rw [List.count_eq_zero.mpr hi] at hparent hcount
  obtain ⟨hcount', hparent'⟩ := linkStep_removed t (removed.count i)
  refine ⟨by rw [hcount]; exact hcount'.trans htcount, ?_⟩
  rw [hparent]
  refine hparent'.trans ?_
  rw [htparent, htcount]
  simp only [count_eq_zero]

omit [Fintype I] in
theorem Relinked.of_added (h : Relinked s s' p removed added) {i : I} (hi : i ∈ added)
    (hfree : (s.item i).parentLinkCount = 0 ∨ (s.item i).parent = some p) :
    (s'.item i).parent = some p ∧ (s'.item i).parentLinkCount = (s.item i).parentLinkCount + added.count i
        - (if (s.item i).parent = some p ∧ (i ∉ removed ∨ (s.item i).parentLinkCount ≠ 0) then 0
            else 1) := by
  obtain ⟨t, htparent, htcount, hparent, hcount⟩ := h.link i
  obtain ⟨n, hn⟩ : ∃ n, added.count i = n + 1 :=
    ⟨added.count i - 1, by have := List.count_pos_iff.mpr hi; omega⟩
  obtain ⟨hcount', hparent'⟩ := linkStep_removed t (removed.count i)
  rw [hn] at hparent hcount
  have hstart : ((linkStep none)^[removed.count i] t).parentLinkCount = 0 ∨
      ((linkStep none)^[removed.count i] t).parent = some p := by
    rw [hcount', htcount]
    rcases hfree with hzero | hp
    · exact .inl hzero
    · by_cases hzero : (s.item i).parentLinkCount = 0
      · exact .inl hzero
      · exact .inr (by rw [hparent', htcount, htparent, if_pos (.inr hzero), hp])
  obtain ⟨hadded, hlinks⟩ := linkStep_added hstart n
  refine ⟨hparent.trans hadded, ?_⟩
  rw [hcount, hlinks, hcount', hparent', htcount, htparent]
  simp only [count_eq_zero]
  by_cases hkept : i ∉ removed ∨ (s.item i).parentLinkCount ≠ 0
  · rw [if_pos hkept]
    by_cases hp : (s.item i).parent = some p
    · rw [if_pos hp, if_pos ⟨hp, hkept⟩]
      omega
    · rw [if_neg hp, if_neg fun h => hp h.1]
      omega
  · rw [if_neg hkept, if_neg (by simp), if_neg fun h => hkept h.2]
    omega

omit [Fintype I] in
theorem Relinked.linked (h : Relinked s s' p removed added)
    (hlinked : ∀ q, ∀ c ∈ s.children q, (s.item c).parent = some q) (hcounted : ∀ i, 0 ≤ (s.item i).parentLinkCount ∧
      ∀ q, ((s.children q).count i : Int) ≤ (s.item i).parentLinkCount + 1)
    (hfree : ∀ a ∈ added, (s.item a).parentLinkCount = 0 ∨ (s.item a).parent = some p)
    (hunlisted : ∀ a ∈ added, ∀ q ≠ p, a ∉ s.children q) :
    ∀ q, ∀ c ∈ s'.children q, (s'.item c).parent = some q := by
  intro q c hc
  by_cases hcadded : c ∈ added
  · have hc' := h.of_added hcadded (hfree c hcadded)
    by_cases hq : q = p
    · rw [hq]
      exact hc'.1
    · rw [(h.others q hq).1] at hc
      exact absurd hc (hunlisted c hcadded q hq)
  · have hbalance := h.balance c
    rw [List.count_eq_zero.mpr hcadded] at hbalance
    rw [(h.not_added hcadded).2, if_pos]
    · by_cases hq : q = p
      · -- It was listed under `p` before.
        subst hq
        have hpos := List.count_pos_iff.mpr hc
        exact hlinked q c (List.count_pos_iff.mp (by omega : 0 < (s.children q).count c))
      · rw [(h.others q hq).1] at hc
        exact hlinked q c hc
    · by_contra hnot
      rw [not_or, not_not] at hnot
      obtain ⟨hremoved, hzero⟩ := hnot
      have hr := List.count_pos_iff.mpr hremoved
      have hold : c ∈ s.children p := List.count_pos_iff.mp (by omega)
      have hle := (hcounted c).2 p
      by_cases hq : q = p
      · subst hq
        have hpos := List.count_pos_iff.mpr hc
        omega
      · rw [(h.others q hq).1] at hc
        have h₁ := hlinked q c hc
        have h₂ := hlinked p c hold
        rw [h₁, Option.some.injEq] at h₂
        exact hq h₂

omit [Fintype I] in
theorem Relinked.counted (h : Relinked s s' p removed added)
    (hlinked : ∀ q, ∀ c ∈ s.children q, (s.item c).parent = some q) (hcounted : ∀ i, 0 ≤ (s.item i).parentLinkCount ∧
      ∀ q, ((s.children q).count i : Int) ≤ (s.item i).parentLinkCount + 1)
    (hfree : ∀ a ∈ added, (s.item a).parentLinkCount = 0 ∨ (s.item a).parent = some p) :
    ∀ i, 0 ≤ (s'.item i).parentLinkCount ∧
      ∀ q, ((s'.children q).count i : Int) ≤ (s'.item i).parentLinkCount + 1 := by
  intro i
  obtain ⟨hnonneg, hle⟩ := hcounted i
  have hbalance := h.balance i
  by_cases hi : i ∈ added
  · obtain ⟨-, hcount⟩ := h.of_added hi (hfree i hi)
    have hpos := List.count_pos_iff.mpr hi
    refine ⟨by omega, fun q => ?_⟩
    by_cases hq : q = p
    · subst hq
      have hold := hle q
      rw [hcount]
      split
      · omega
      · -- The link does not count this time: the item was not listed, or it is removed.
        rename_i hnot
        by_cases hlisted : i ∈ s.children q
        · have hparent : (s.item i).parent = some q := hlinked q i hlisted
          have hremoved : i ∈ removed := by
            by_contra hout
            exact hnot ⟨hparent, .inl hout⟩
          have := List.count_pos_iff.mpr hremoved
          omega
        · rw [List.count_eq_zero.mpr hlisted] at hbalance
          omega
    · rw [(h.others q hq).1]
      have := hle q
      omega
  · rw [(h.not_added hi).1]
    rw [List.count_eq_zero.mpr hi] at hbalance
    refine ⟨hnonneg, fun q => ?_⟩
    by_cases hq : q = p
    · subst hq
      have := hle q
      omega
    · rw [(h.others q hq).1]
      exact hle q

omit [Fintype I] in
theorem Relinked.rooted (h : Relinked s s' p removed added) (ho : s.outline.Sound)
    (hplace : ∀ a ∈ added, Placeable s p a) : Rooted s'.outline.parent := by
  refine ho.rooted.relink (p := p) fun i => ?_
  by_cases hi : i ∈ added
  · have hplaced := hplace i hi
    exact .inr (.inr ⟨(h.of_added hi hplaced.free).1, hplaced.ne, hplaced.not_above⟩)
  · have hparent := (h.not_added hi).2
    split at hparent
    · exact .inl hparent
    · exact .inr (.inl hparent)

end

/-- The items between the call on the children of `p` and the event it ends with. -/
def edited (p : I) (w : ObservableListWrapper I Unit) (c : Change I) (s : TreeItems I) :
    TreeItems I :=
  updateChildrenParent (added c) (some p) (updateChildrenParent (removed c) none
    (((s.setItem p fun t => { t with children := w }).setCount p fun n =>
      { n with expandedDescendentCountDirty := true }).setItem p
        fun t => { t with leaf := t.children.backingList.isEmpty }))

omit [Fintype I] in
theorem childrenListener_apply (fuel : Nat) (p : I) (w : ObservableListWrapper I Unit)
    (c : Change I) (s : TreeItems I) :
    childrenListener fuel p c (s.setItem p fun t => { t with children := w }) =
      fireEvent fuel p (s.edited p w c) := rfl

omit [Fintype I] in
theorem edited_item (p : I) (w : ObservableListWrapper I Unit) (c : Change I) (s : TreeItems I)
    (i : I) : ∃ t : TreeItem I, t.parent = (s.item i).parent ∧
      t.parentLinkCount = (s.item i).parentLinkCount ∧ t.expanded = (s.item i).expanded ∧
      t.children = (if i = p then w else (s.item i).children) ∧
      t.leaf = (if i = p then w.backingList.isEmpty else (s.item i).leaf) ∧
      (s.edited p w c).item i = (linkStep (some p))^[(added c).count i]
      ((linkStep none)^[(removed c).count i] t) := by
  unfold edited
  simp only [updateChildrenParent_item]
  refine ⟨_, ?_, ?_, ?_, ?_, ?_, rfl⟩
  all_goals
    by_cases hi : i = p
    · subst hi
      simp
    · simp [setItem_ne, hi]

omit [Fintype I] in
theorem edited_count {p i : I} (hi : i ≠ p) (w : ObservableListWrapper I Unit) (c : Change I)
    (s : TreeItems I) : (s.edited p w c).count i = s.count i := by
  unfold edited
  rw [updateChildrenParent_count, updateChildrenParent_count, setItem_count, setCount_ne _ hi]
  rfl

omit [Fintype I] in
theorem edited_children (p : I) (w : ObservableListWrapper I Unit) (c : Change I) (s : TreeItems I)
    (i : I) : ((s.edited p w c).item i).children = if i = p then w else (s.item i).children := by
  obtain ⟨t, -, -, -, hchildren, -, heq⟩ := edited_item p w c s i
  rw [heq, (linkStep_rest _ _ _).1, (linkStep_rest _ _ _).1, hchildren]

omit [Fintype I] in
theorem relinked_edited {p : I} {w : ObservableListWrapper I Unit} {c : Change I} {s : TreeItems I}
    (hbalance : ∀ i, w.backingList.count i + (removed c).count i = (s.children p).count i + (added c).count i) :
    Relinked s (s.edited p w c) p (removed c) (added c) where
  others q hq := by
    obtain ⟨t, -, -, -, hchildren, hleaf, heq⟩ := edited_item p w c s q
    rw [if_neg hq] at hchildren hleaf
    refine ⟨?_, ?_⟩
    · unfold children
      rw [edited_children, if_neg hq]
    · rw [heq, (linkStep_rest _ _ _).2.1, (linkStep_rest _ _ _).2.1, hleaf]
  leaf := by
    obtain ⟨t, -, -, -, hchildren, hleaf, heq⟩ := edited_item p w c s p
    rw [if_pos rfl] at hleaf
    rw [children, edited_children, if_pos rfl, heq, (linkStep_rest _ _ _).2.1, (linkStep_rest _ _ _).2.1, hleaf]
  expanded q := by
    obtain ⟨t, -, -, hexpanded, -, -, heq⟩ := edited_item p w c s q
    rw [heq, (linkStep_rest _ _ _).2.2, (linkStep_rest _ _ _).2.2, hexpanded]
  balance i := by
    rw [children, edited_children, if_pos rfl]
    exact hbalance i
  link i := by
    obtain ⟨t, hparent, hcount, -, -, -, heq⟩ := edited_item p w c s i
    exact ⟨t, hparent, hcount, by rw [heq], by rw [heq]⟩

/-- A call that may be made: an edit tells what it does, and puts items only where they
can be. -/
def Admissible (s : TreeItems I) : TreeCall I → Prop
  | .edit p c => (s.item p).children.leaks c = false ∧
    ∀ change ∈ (c.run (s.item p).children).2.fired.drop (s.item p).children.fired.length,
      ∀ a ∈ added change, Placeable s p a
  | _ => True

omit [DecidableEq I] in
theorem Ready.same {s s' : TreeItems I} (h : s.Ready) (ho : s'.outline = s.outline)
    (hcount : s'.count = s.count) (hleaf : ∀ i, (s'.item i).leaf = (s.item i).leaf) : s'.Ready where
  sound := by
    rw [ho]
    exact h.sound
  leaves i := by
    have hchildren : s'.children = s.children := congrArg Outline.children ho
    rw [hleaf, hchildren]
    exact h.leaves i
  fresh i hclean := by
    rw [hcount] at hclean ⊢
    obtain ⟨hright, hread⟩ := h.fresh i hclean
    rw [ho]
    refine ⟨hright, fun j hj hne => ?_⟩
    rw [ho] at hj
    have hchildren : s'.children = s.children := congrArg Outline.children ho
    rw [hchildren] at hne
    rw [hcount]
    exact hread j hj hne

omit [Fintype I] in
theorem lists_run {s s' : TreeItems I} {p : I} {c : ListCall I}
    (h : ∀ i, OverArrayList (s.item i).children ∧ (s.item i).children.exposed = true)
    (hleaks : (s.item p).children.leaks c = false)
    (hs' : ∀ i, (s'.item i).children = if i = p then (c.run (s.item p).children).2 else (s.item i).children) :
    ∀ i, OverArrayList (s'.item i).children ∧ (s'.item i).children.exposed = true := by
  obtain ⟨hover, hexposed⟩ := h p
  obtain ⟨hlock, hl⟩ : (s.item p).children.changeBuilder.changeLock = 0 ∧ (s.item p).children.hasListeners = true := by
    simpa [exposed] using hexposed
  have hl' := (hasListeners_invariant true).run c _ hl
  intro i
  rw [hs' i]
  by_cases hi : i = p
  · rw [if_pos hi]
    refine ⟨overArrayList_invariant.run c _ hover, ?_⟩
    rcases run_judged hover.wellFormed c with ⟨-, hkept⟩ | ⟨hyes, -⟩
    · have hlock' := hkept.1.trans hlock
      simp [exposed, hlock', hl']
    · rw [hleaks] at hyes
      cases hyes
  · rw [if_neg hi]
    exact h i

theorem edit_consistent {s : TreeItems I} (h : s.Consistent)
    (hfuel : Fintype.card I ≤ fuel) {p : I} {c : ListCall I} (hc : s.Admissible (.edit p c)) :
    ∃ s', edit fuel p c s = (.ok (), s') ∧ s'.Consistent := by
  obtain ⟨hleaks, hplace⟩ := hc
  obtain ⟨hover, hexposed⟩ := h.lists p
  rcases run_balance hover hexposed hleaks with ⟨hnone, hsame⟩ | ⟨change, hfired, hbalance⟩
  · -- Nothing has happened, and nobody is told.
    refine ⟨_, by rw [edit, hnone]; rfl, ?_⟩
    have hchildren : ∀ i, ((s.setItem p fun t =>
        { t with children := (c.run (s.item p).children).2 }).item i).children
          = if i = p then (c.run (s.item p).children).2 else (s.item i).children := by
      intro i
      by_cases hi : i = p
      · rw [hi, setItem_self, if_pos rfl]
      · rw [setItem_ne s hi, if_neg hi]
    have hrest : ∀ i, ((s.setItem p fun t =>
        { t with children := (c.run (s.item p).children).2 }).item i).parent = (s.item i).parent ∧
        ((s.setItem p fun t => { t with children := (c.run (s.item p).children).2 }).item i).leaf = (s.item i).leaf ∧
        ((s.setItem p fun t => { t with children := (c.run (s.item p).children).2 }).item i).expanded
          = (s.item i).expanded ∧
        ((s.setItem p fun t =>
          { t with children := (c.run (s.item p).children).2 }).item i).parentLinkCount
          = (s.item i).parentLinkCount := by
      intro i
      by_cases hi : i = p
      · rw [hi, setItem_self]
        exact ⟨rfl, rfl, rfl, rfl⟩
      · rw [setItem_ne s hi]
        exact ⟨rfl, rfl, rfl, rfl⟩
    have hlist : (s.setItem p fun t =>
        { t with children := (c.run (s.item p).children).2 }).children = s.children := by
      funext i
      unfold children
      rw [hchildren]
      by_cases hi : i = p
      · rw [if_pos hi, hsame, hi]
      · rw [if_neg hi]
    have ho : (s.setItem p fun t =>
        { t with children := (c.run (s.item p).children).2 }).outline = s.outline := by
      unfold outline
      rw [hlist]
      simp only [(hrest _).1, (hrest _).2.2.1]
    refine ⟨h.toReady.same ho rfl fun i => (hrest i).2.1, lists_run h.lists hleaks hchildren, fun i => ?_⟩
    rw [(hrest i).2.2.2, hlist]
    exact h.counted i
  · have htold := told hfired
    have hrelinked : Relinked s (s.edited p (c.run (s.item p).children).2 change) p
        (removed change) (added change) := relinked_edited hbalance
    have hplaced : ∀ a ∈ added change, Placeable s p a := fun a ha =>
      hplace change (by rw [htold]; simp) a ha
    have hsound : (s.edited p (c.run (s.item p).children).2 change).outline.Sound :=
      ⟨hrelinked.linked h.sound.linked h.counted (fun a ha => (hplaced a ha).free) fun a ha => (hplaced a ha).unlisted,
        hrelinked.rooted h.sound hplaced⟩
    have htouched : Touched s (s.edited p (c.run (s.item p).children).2 change) p := by
      refine ⟨hsound, fun j hj => ⟨(hrelinked.others j hj).1, ?_⟩⟩
      simp only [outline, (hrelinked.others j hj).1, hrelinked.expanded j]
    obtain ⟨s', hs', hsoiled⟩ := fireEvent_soils hsound.rooted hfuel p
    have ho' := outline_congr hsoiled.item
    have hchildren' := children_congr hsoiled.item
    refine ⟨s', ?_, ⟨by rw [ho']; exact hsound, ?_, ?_⟩, ?_, ?_⟩
    · rw [edit, htold]
      rw [forEach, bind_ok (by rw [childrenListener_apply]; exact hs')]
      rfl
    · intro i
      rw [hchildren', hsoiled.item]
      by_cases hi : i = p
      · rw [hi]
        exact hrelinked.leaf
      · rw [(hrelinked.others i hi).1, (hrelinked.others i hi).2]
        exact h.leaves i
    · exact htouched.fresh_soiled hsoiled (fun j hj => edited_count hj _ change s) h.fresh
    · refine lists_run h.lists hleaks fun i => ?_
      rw [hsoiled.item]
      exact edited_children p _ change s i
    · rw [hsoiled.item, hchildren']
      exact hrelinked.counted h.sound.linked h.counted fun a ha => (hplaced a ha).free

/-! ### Expanding and collapsing -/

section
variable {s s' : TreeItems I} {i : I}

/-- Only the property of `i` is set. -/
structure Toggled (s s' : TreeItems I) (i : I) : Prop where
  parent : ∀ j, (s'.item j).parent = (s.item j).parent
  links : ∀ j, (s'.item j).parentLinkCount = (s.item j).parentLinkCount
  children : ∀ j, (s'.item j).children = (s.item j).children
  leaf : ∀ j, (s'.item j).leaf = (s.item j).leaf
  expanded : ∀ j ≠ i, (s'.item j).expanded = (s.item j).expanded

omit [Fintype I] in
theorem toggled_setExpanded (s : TreeItems I) (i : I) (value : Bool) :
    Toggled s (s.setItem i fun t => { t with expanded := value }) i := by
  have hall : ∀ j, ((s.setItem i fun t => { t with expanded := value }).item j).parent = (s.item j).parent ∧
      ((s.setItem i fun t => { t with expanded := value }).item j).parentLinkCount = (s.item j).parentLinkCount ∧
      ((s.setItem i fun t => { t with expanded := value }).item j).children = (s.item j).children ∧
      ((s.setItem i fun t => { t with expanded := value }).item j).leaf = (s.item j).leaf := by
    intro j
    by_cases hj : j = i
    · rw [hj, setItem_self]
      exact ⟨rfl, rfl, rfl, rfl⟩
    · rw [setItem_ne s hj]
      exact ⟨rfl, rfl, rfl, rfl⟩
  refine ⟨fun j => (hall j).1, fun j => (hall j).2.1, fun j => (hall j).2.2.1, fun j => (hall j).2.2.2, fun j hj => ?_⟩
  rw [setItem_ne s hj]

omit [Fintype I] [DecidableEq I] in
theorem Toggled.lists (h : Toggled s s' i) : s'.children = s.children := by
  funext j
  rw [TreeItems.children, h.children]
  rfl

omit [Fintype I] [DecidableEq I] in
theorem Toggled.sound (h : Toggled s s' i) (ho : s.outline.Sound) : s'.outline.Sound := by
  have hparent : s'.outline.parent = s.outline.parent := funext h.parent
  have hchildren : s'.outline.children = s.outline.children := h.lists
  exact ⟨by rw [hparent, hchildren]; exact ho.linked, by rw [hparent]; exact ho.rooted⟩

omit [Fintype I] [DecidableEq I] in
theorem Toggled.touched (h : Toggled s s' i) (ho : s.outline.Sound) : Touched s s' i := by
  refine ⟨h.sound ho, fun j hj => ⟨by rw [h.lists], ?_⟩⟩
  simp only [outline, h.lists, h.expanded j hj]

omit [Fintype I] [DecidableEq I] in
theorem Toggled.leavesMarked (h : Toggled s s' i) (hleaf : s.LeavesMarked) : s'.LeavesMarked := by
  intro j
  rw [h.leaf, h.lists]
  exact hleaf j

theorem Toggled.consistent (h : Toggled s s' i) (hs : s.Consistent) (hready : s'.Ready) : s'.Consistent := by
  refine ⟨hready, fun j => ?_, fun j => ?_⟩
  · rw [h.children]
    exact hs.lists j
  · rw [h.links, h.lists]
    exact hs.counted j

omit [DecidableEq I] in
theorem Toggled.ready_leaf (h : Toggled s s' i) (hs : s.Ready) (hempty : s.children i = [])
    (hcount : ∀ j ≠ i, s'.count j = s.count j)
    (hdirty : (s'.count i).expandedDescendentCountDirty = (s.count i).expandedDescendentCountDirty)
    (hkept : (s'.count i).expandedDescendentCount = (s.count i).expandedDescendentCount) :
    s'.Ready := by
  refine ⟨h.sound hs.sound, h.leavesMarked hs.leaves, fun j => ?_⟩
  have ho : s'.outline = s.outline := by
    have hshown : s'.outline.shown = s.outline.shown := by
      funext k
      by_cases hk : k = i
      · simp only [outline, h.lists, hk, hempty]
        simp
      · exact ((h.touched hs.sound).same k hk).2
    have hparent : s'.outline.parent = s.outline.parent := funext h.parent
    have hchildren : s'.outline.children = s.outline.children := h.lists
    calc s'.outline = ⟨s'.outline.parent, s'.outline.children, s'.outline.shown⟩ := rfl
      _ = ⟨s.outline.parent, s.outline.children, s.outline.shown⟩ := by
        rw [hparent, hchildren, hshown]
      _ = s.outline := rfl
  have hsame : (s'.count j).expandedDescendentCountDirty = (s.count j).expandedDescendentCountDirty ∧
      (s'.count j).expandedDescendentCount = (s.count j).expandedDescendentCount := by
    by_cases hj : j = i
    · rw [hj]
      exact ⟨hdirty, hkept⟩
    · rw [hcount j hj]
      exact ⟨rfl, rfl⟩
  intro hclean
  rw [hsame.1] at hclean
  obtain ⟨hright, hread⟩ := hs.fresh j hclean
  rw [hsame.2, ho]
  refine ⟨hright, fun x hx hne => ?_⟩
  rw [ho] at hx
  rw [h.lists] at hne
  rw [hcount x fun hxi => hne (by rw [hxi]; exact hempty)]
  exact hread x hx hne

omit [DecidableEq I] in
/-- Nobody is told, but nobody who has counted was shown the item either: counting would
have read its property. -/
theorem Toggled.ready_unread (h : Toggled s s' i) (hs : s.Ready) (hne : s.children i ≠ [])
    (hvalid : (s.count i).expandedValid = false) (hcount : s'.count = s.count) : s'.Ready := by
  refine ⟨h.sound hs.sound, h.leavesMarked hs.leaves, fun j hclean => ?_⟩
  rw [hcount] at hclean ⊢
  obtain ⟨hright, hread⟩ := hs.fresh j hclean
  have hout : i ∉ s.outline.visible j := by
    intro hmem
    rw [hread i hmem hne] at hvalid
    cases hvalid
  have hback : Touched s' s i := by
    refine ⟨hs.sound, fun k hk => ?_⟩
    obtain ⟨hchildren, hshown⟩ := (h.touched hs.sound).same k hk
    exact ⟨hchildren.symm, hshown.symm⟩
  have hrows := hback.visible_eq hout
  refine ⟨by rw [hright, hrows], fun x hx hxne => ?_⟩
  rw [hrows] at hx
  rw [h.lists] at hxne
  rw [hcount]
  exact hread x hx hxne

end

theorem setExpanded_consistent {s : TreeItems I} (h : s.Consistent)
    (hfuel : Fintype.card I ≤ fuel) (i : I) (value : Bool) :
    ∃ s', setExpanded fuel i value s = (.ok (), s') ∧ s'.Consistent := by
  have ht := toggled_setExpanded s i value
  unfold setExpanded
  by_cases hsame : (s.item i).expanded = value
  · rw [if_pos hsame]
    exact ⟨s, rfl, h⟩
  · rw [if_neg hsame]
    by_cases hvalid : (s.count i).expandedValid = true
    · rw [if_pos hvalid]
      generalize hs₁ : (s.setItem i fun t => { t with expanded := value }).setCount i
        (fun c => { c with expandedValid := false }) = s₁
      have ht₁ : Toggled s s₁ i := by
        subst hs₁
        exact ⟨ht.parent, ht.links, ht.children, ht.leaf, ht.expanded⟩
      have hcount₁ : ∀ j ≠ i, s₁.count j = s.count j := by
        subst hs₁
        exact fun j hj => setCount_ne _ hj _
      have hleaf : (s₁.item i).leaf = (s.children i).isEmpty := by rw [ht₁.leaf, h.leaves]
      rw [expandedInvalidated, isLeaf, bind_ok (read_apply _ s₁)]
      by_cases hempty : s.children i = []
      · rw [if_pos (by rw [hleaf, hempty]; rfl)]
        refine ⟨s₁, rfl, ht₁.consistent h (ht₁.ready_leaf h.toReady hempty hcount₁ ?_ ?_)⟩
        · subst hs₁
          rw [setCount_self]
          rfl
        · subst hs₁
          rw [setCount_self]
          rfl
      · rw [if_neg (by rw [hleaf]; simpa using hempty)]
        have ht₂ : Toggled s (s₁.expandedRead i) i :=
          ⟨ht₁.parent, ht₁.links, ht₁.children, ht₁.leaf, ht₁.expanded⟩
        have hcount₂ : ∀ j ≠ i, (s₁.expandedRead i).count j = s.count j := fun j hj => by
          rw [expandedRead, setCount_ne _ hj, hcount₁ j hj]
        obtain ⟨s', hs', hsoiled⟩ := fireEvent_soils (ht₂.sound h.sound).rooted hfuel i
        have ht' : Toggled s s' i := by
          refine ⟨?_, ?_, ?_, ?_, ?_⟩ <;> rw [hsoiled.item]
          · exact ht₂.parent
          · exact ht₂.links
          · exact ht₂.children
          · exact ht₂.leaf
          · exact ht₂.expanded
        refine ⟨s', hs', ht'.consistent h ⟨ht'.sound h.sound, ht'.leavesMarked h.leaves, ?_⟩⟩
        exact (ht₂.touched h.sound).fresh_soiled hsoiled hcount₂ h.fresh
    · rw [if_neg hvalid]
      refine ⟨_, rfl, ht.consistent h ?_⟩
      by_cases hempty : s.children i = []
      · exact ht.ready_leaf h.toReady hempty (fun j _ => rfl) rfl rfl
      · exact ht.ready_unread h.toReady hempty (Bool.eq_false_iff.mpr hvalid) rfl

/-! ### Runs -/

theorem Consistent.looked {s s' : TreeItems I} {i : I} (h : s.Consistent) (hl : Looked s s' i) : s'.Consistent := by
  refine ⟨h.toReady.looked hl, fun j => ?_, fun j => ?_⟩
  · rw [hl.item]
    exact h.lists j
  · rw [hl.item, children_congr hl.item]
    exact h.counted j

theorem call_consistent {s : TreeItems I} (h : s.Consistent)
    (hfuel : Fintype.card I ≤ fuel) {call : TreeCall I} (hcall : s.Admissible call) :
    ∃ s', call.run fuel s = (.ok (), s') ∧ s'.Consistent := by
  cases call with
  | edit p c => exact edit_consistent h hfuel hcall
  | setExpanded i value => exact setExpanded_consistent h hfuel i value
  | isExpanded i =>
    exact ⟨s.expandedRead i, bind_ok (isExpanded_apply i s), h.looked (looked_expandedRead h.sound i)⟩
  | getExpandedDescendentCount i reset =>
    have hheight := h.sound.rooted.height_lt_card i
    obtain ⟨s', hs', hlook, -⟩ := getExpandedDescendentCount_counts reset fuel i s h.sound
      h.leaves (fun j _ => h.fresh j) (by omega)
    exact ⟨s', bind_ok hs', h.looked hlook⟩

/-- A state that calls lead to, each of them admissible where it is made. -/
inductive Reached (fuel : Nat) : TreeItems I → Prop
  | new : Reached fuel new
  | call {s : TreeItems I} (h : Reached fuel s) (call : TreeCall I) (hcall : s.Admissible call) :
      Reached fuel (call.run fuel s).2

theorem new_consistent : (new : TreeItems I).Consistent where
  sound := ⟨by simp [new, outline, children], rooted_of_rank (fun _ => 0) (by simp [new, outline])⟩
  leaves i := rfl
  fresh i hclean := by simp [new] at hclean
  lists i := ⟨⟨(Reachable.new _ rfl).wellFormed, rfl, rfl⟩, rfl⟩
  counted i := by simp [new, children]

theorem Reached.consistent (hfuel : Fintype.card I ≤ fuel) {s : TreeItems I} (h : Reached fuel s) : s.Consistent := by
  induction h with
  | new => exact new_consistent
  | call h call hcall ih =>
    obtain ⟨s', hs', hconsistent⟩ := call_consistent ih hfuel hcall
    rw [hs']
    exact hconsistent

/-- The number of items that are visible in the subtree of an item. -/
def visibleCount (s : TreeItems I) (i : I) : Nat := (s.outline.visible i).length

/-- **The counts are right in every state that admissible calls lead to**: the call returns the
number of visible items, which is 1 for a leaf or a collapsed item, and else 1 more than
the sum over the children. -/
theorem count_of_reached (fuel : Nat) (hfuel : Fintype.card I ≤ fuel) (s : TreeItems I) (h : Reached fuel s) (i : I) :
    (getExpandedDescendentCount false fuel i s).1 = .ok (s.visibleCount i) ∧
      s.visibleCount i = if s.children i = [] ∨ (s.item i).expanded = false then 1
        else 1 + ((s.children i).map s.visibleCount).sum := by
  have hs := h.consistent hfuel
  have hheight := hs.sound.rooted.height_lt_card i
  refine ⟨(yields_count hs.toReady false (by omega)).value, ?_⟩
  unfold visibleCount
  by_cases hclosed : s.children i = [] ∨ (s.item i).expanded = false
  · rw [if_pos hclosed, visible_closed hs.sound hclosed]
    rfl
  · rw [if_neg hclosed]
    rw [not_or, Bool.not_eq_false] at hclosed
    rw [visible_open hs.sound hclosed.1 hclosed.2, length_cons, length_flatMap, Nat.add_comm]

/-- Calls one after the other. -/
def runAll (fuel : Nat) (calls : List (TreeCall I)) (s : TreeItems I) : TreeItems I :=
  calls.foldl (fun s call => (call.run fuel s).2) s

theorem admissible_add : (new : TreeItems (Fin 2)).Admissible (.edit 0 (.add 1)) := by
  refine ⟨rfl, ?_⟩
  have hfired : ((ListCall.add 1).run ((new : TreeItems (Fin 2)).item 0).children).2.fired.drop
      ((new : TreeItems (Fin 2)).item 0).children.fired.length
        = [⟨[1], [⟨0, 1, some [], [], false⟩]⟩] := by decide +kernel
  have hadded : added (⟨[1], [⟨0, 1, some [], [], false⟩]⟩ : Change (Fin 2)) = [1] := by decide +kernel
  intro change hchange a ha
  rw [hfired, mem_singleton] at hchange
  rw [hchange, hadded, mem_singleton] at ha
  rw [ha]
  refine ⟨by decide, ?_, by decide, .inl rfl⟩
  intro habove
  obtain ⟨p, hp, -⟩ := ancestor_iff.mp habove
  cases hp

theorem count_of_reached_child :
    let s := runAll 2 [.edit 0 (.add 1), .setExpanded 0 true] (new : TreeItems (Fin 2))
    Fintype.card (Fin 2) ≤ 2 ∧ Reached 2 s ∧ s.visibleCount 0 = 2 ∧
      (getExpandedDescendentCount false 2 0 s).1 = .ok 2 := by
  intro s
  have hreached : Reached 2 s := .call (.call .new _ admissible_add) (.setExpanded 0 true) trivial
  have htwo : s.visibleCount 0 = 2 := by decide +kernel
  refine ⟨by decide, hreached, htwo, ?_⟩
  rw [(count_of_reached 2 (by decide) s hreached 0).1, htwo]

/-- **The rows of a view correspond to its items at any moment of a run**, whatever has been counted: the caches need
not be brought up to date first.  The links to the parents have to lead both ways, and no item is listed twice. -/
theorem rows_of_reached (fuel : Nat) (hfuel : Fintype.card I < fuel) (s : TreeItems I) (h : Reached fuel s)
    (hlisted : ∀ p i, (s.item i).parent = some p → i ∈ s.children p) (hnodup : ∀ p, (s.children p).Nodup) (root : I)
    (dirty isShowRoot : Bool) (hroot : TreeUtil.WellRooted s root isShowRoot) :
    TreeUtil.Corresponds s fuel root dirty isShowRoot := by
  have hs := h.consistent hfuel.le
  exact TreeUtil.corresponds_of_wellRooted ⟨hs.toReady, hlisted, hnodup⟩ hfuel hroot

theorem rows_of_reached_child :
    let s := runAll 3 [.edit 0 (.add 1), .setExpanded 0 true] (new : TreeItems (Fin 2))
    TreeUtil.Corresponds s 3 0 false true := by
  intro s
  have hreached : Reached 3 s := .call (.call .new _ admissible_add) (.setExpanded 0 true) trivial
  exact rows_of_reached 3 (by decide) s hreached (by decide +kernel) (by decide +kernel) 0 false true
    ⟨by decide +kernel, by unfold TreeUtil.Unmet; decide +kernel⟩

/-- Item 2, with item 3 below it, is moved from item 0 to item 1, which is expanded: it is
added to the new list and then removed from the old one.  When it is expanded, item 1 does
not hear of it. -/
theorem moved_subtree_is_not_counted :
    let s := runAll 4 [.edit 0 (.add 2), .edit 2 (.add 3), .setExpanded 1 true, .edit 1 (.add 2),
      .edit 0 (.removeAt 0), .getExpandedDescendentCount 1 false, .setExpanded 2 true]
      (new : TreeItems (Fin 4))
    s.children 0 = [] ∧ s.children 1 = [2] ∧ s.children 2 = [3] ∧ s.children 3 = [] ∧
      s.visibleCount 1 = 3 ∧ (getExpandedDescendentCount false 4 1 s).1 = .ok 2 :=
  ⟨by decide +kernel, by decide +kernel, by decide +kernel, by decide +kernel, by decide +kernel, by decide +kernel⟩

end JavaFX.TreeItems
