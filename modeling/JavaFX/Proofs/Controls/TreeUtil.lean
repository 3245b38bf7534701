/-
Rows and items correspond.

`getItem` finds the item at a place of the outline below the root, and `getRow` finds the
place of an item, whatever the caches hold as long as they are right.  For an item that has
no place `getRow` is -1, with one exception: if the root has siblings and is shown, and a
walk up comes to a sibling behind the root, the rows between the two are taken for a place.
-/
import JavaFX.Controls.TreeUtil
import JavaFX.Proofs.Controls.TreeItem.Counts

namespace JavaFX

open Program Outline

namespace TreeItems

variable {I : Type} [Fintype I]

/-- The links agree, and all the caches are as they should be. -/
structure Ready (s : TreeItems I) : Prop where
  sound : s.outline.Sound
  leaves : s.LeavesMarked
  fresh : ∀ i, s.Fresh i

theorem Ready.looked {s s' : TreeItems I} {i : I} (h : s.Ready) (hl : Looked s s' i) : s'.Ready where
  sound := by
    rw [outline_congr hl.item]
    exact h.sound
  leaves j := by
    rw [hl.item, children_congr hl.item]
    exact h.leaves j
  fresh j := hl.fresh j (h.fresh j)

/-- The call returns `a`, and writes to caches only. -/
def Yields {α : Type} (call : Call I α) (s : TreeItems I) (a : α) : Prop :=
  ∃ s', call s = (.ok a, s') ∧ s'.item = s.item ∧ s'.Ready

section
variable {α β : Type} {s : TreeItems I}

theorem yields_pure (h : s.Ready) (a : α) : Yields (pure a) s a :=
  ⟨s, rfl, rfl, h⟩

theorem yields_read (h : s.Ready) (f : TreeItems I → α) : Yields (read f) s (f s) :=
  ⟨s, rfl, rfl, h⟩

variable {x : Call I α} {a : α}

theorem Yields.bind {f : α → Call I β} {b : β} (hx : Yields x s a)
    (hf : ∀ s', s'.item = s.item → s'.Ready → Yields (f a) s' b) : Yields (x >>= f) s b := by
  obtain ⟨s₁, hs₁, hitem, hready⟩ := hx
  obtain ⟨s₂, hs₂, hitem₂, hready₂⟩ := hf s₁ hitem hready
  exact ⟨s₂, by rw [bind_ok hs₁, hs₂], hitem₂.trans hitem, hready₂⟩

theorem Yields.value (hx : Yields x s a) : (x s).1 = .ok a := by
  obtain ⟨s', hs', -⟩ := hx
  rw [hs']

end

variable [DecidableEq I] {s : TreeItems I}

theorem yields_isLeaf (h : s.Ready) (i : I) : Yields (isLeaf i) s (s.children i).isEmpty := by
  rw [← h.leaves i]
  exact yields_read h _

theorem yields_isExpanded (h : s.Ready) (i : I) : Yields (isExpanded i) s (s.item i).expanded :=
  ⟨_, rfl, rfl, h.looked (looked_expandedRead h.sound i)⟩

theorem yields_count (h : s.Ready) (reset : Bool) {fuel : Nat} {i : I} (hfuel : height s.outline.parent i < fuel) :
    Yields (getExpandedDescendentCount reset fuel i) s (s.outline.visible i).length := by
  obtain ⟨s', hs', hlook, -⟩ := getExpandedDescendentCount_counts reset fuel i s h.sound h.leaves
    (fun j _ => h.fresh j) hfuel
  exact ⟨s', hs', hlook.item, h.looked hlook⟩

end TreeItems

namespace TreeUtil

open TreeItems

variable {I : Type} [Fintype I] [DecidableEq I] {s : TreeItems I}

/-! ### Counts -/

theorem yields_descendantCount (h : s.Ready) (dirty : Bool) {fuel : Nat} {i : I}
    (hfuel : height s.outline.parent i < fuel) :
    Yields (getExpandedDescendantCount fuel (some i) dirty) s (s.outline.visible i).length := by
  refine (yields_isLeaf h i).bind fun s' hitem hready => ?_
  by_cases hempty : s.children i = []
  · rw [if_pos (by simp [hempty]), visible_closed h.sound (.inl hempty)]
    exact yields_pure hready 1
  · rw [if_neg (by simp [hempty]), ← outline_congr hitem]
    rw [← outline_congr hitem] at hfuel
    exact yields_count hready dirty hfuel

/-- The number of rows of a view, as `TreeView` keeps it. -/
def rowCount (s : TreeItems I) (root : I) (isShowRoot : Bool) : Int :=
  if (s.item root).expanded then
    if isShowRoot then (s.outline.visible root).length else (s.outline.visible root).length - 1
  else 1

theorem yields_updateExpandedItemCount (h : s.Ready) (dirty isShowRoot : Bool) {fuel : Nat}
    {root : I} (hfuel : height s.outline.parent root < fuel) :
    Yields (updateExpandedItemCount fuel (some root) dirty isShowRoot) s (rowCount s root isShowRoot) := by
  unfold rowCount
  refine (yields_isExpanded h root).bind fun s' hitem hready => ?_
  by_cases hexpanded : (s.item root).expanded = true
  · rw [if_pos hexpanded, if_pos hexpanded]
    rw [← outline_congr hitem] at hfuel ⊢
    exact (yields_descendantCount hready dirty hfuel).bind fun s' _ hready => yields_pure hready _
  · rw [if_neg hexpanded, if_neg hexpanded]
    exact yields_pure hready _

/-! ### From rows to items -/

theorem yields_isSingle (h : s.Ready) (i : I) : Yields (isSingle i) s (!s.outline.shown i) := by
  refine (yields_isLeaf h i).bind fun s' hitem hready => ?_
  by_cases hempty : s.children i = []
  · rw [if_pos (by simp [hempty])]
    have : (!s.outline.shown i) = true := by simp [outline, hempty]
    rw [this]
    exact yields_pure hready true
  · rw [if_neg (by simp [hempty])]
    have : (!s.outline.shown i) = !(s'.item i).expanded := by simp [outline, hempty, hitem]
    rw [this]
    exact (yields_isExpanded hready i).bind fun s'' _ hready => yields_pure hready _

theorem yields_searchChildren {dirty : Bool} {fuel : Nat} {getItem : I → Int → Call I (Option I)} :
    ∀ (l : List I) (idx : Int) {s : TreeItems I}, s.Ready → 0 ≤ idx →
    (∀ c ∈ l, height s.outline.parent c < fuel) →
    (∀ c ∈ l, ∀ (k : Int) (t : TreeItems I), t.Ready → t.item = s.item → 0 ≤ k →
      Yields (getItem c k) t (t.outline.visible c)[k.toNat]?) →
    Yields (searchChildren fuel dirty getItem l idx) s (l.flatMap s.outline.visible)[idx.toNat]? := by
  intro l
  induction l with
  | nil => intro idx s h _ _ _; exact yields_pure h none
  | cons c l ih =>
    intro idx s h hidx hfuel hgetItem
    have ho := h.sound
    rw [searchChildren, List.flatMap_cons]
    by_cases hzero : idx = 0
    · rw [hzero, ho.visible_eq]
      exact yields_pure h (some c)
    · rw [if_neg hzero]
      have hrest : ∀ (k : Int) (t : TreeItems I), t.item = s.item → t.Ready → 0 ≤ k →
          Yields (searchChildren fuel dirty getItem l k) t (l.flatMap s.outline.visible)[k.toNat]? := by
        intro k t ht htready hk
        rw [← outline_congr ht]
        exact ih k htready hk (fun d hd => by rw [outline_congr ht]; exact hfuel d (by simp [hd]))
          (fun d hd k' t' ht' hitem hk' =>
            hgetItem d (by simp [hd]) k' t' ht' (hitem.trans ht) hk')
      refine (yields_isSingle h c).bind fun s₁ hs₁ hready₁ => ?_
      by_cases hshown : s.outline.shown c = true
      · rw [if_neg (by simp [hshown])]
        refine Yields.bind (yields_descendantCount hready₁ dirty
          (by rw [outline_congr hs₁]; exact hfuel c (by simp))) fun s₂ hs₂ hready₂ => ?_
        have hitem₂ := hs₂.trans hs₁
        rw [outline_congr hs₁]
        by_cases hge : idx ≥ (s.outline.visible c).length
        · rw [if_pos hge, List.getElem?_append_right (by omega)]
          have := hrest (idx - (s.outline.visible c).length) s₂ hitem₂ hready₂ (by omega)
          rwa [show (idx - ((s.outline.visible c).length : Int)).toNat
            = idx.toNat - (s.outline.visible c).length by omega] at this
        · rw [if_neg hge, List.getElem?_append_left (by omega)]
          have hget := hgetItem c (by simp) idx s₂ hready₂ hitem₂ hidx
          have hlt : idx.toNat < (s.outline.visible c).length := by omega
          rw [outline_congr hitem₂] at hget
          rw [List.getElem?_eq_getElem hlt] at hget ⊢
          exact hget.bind fun s₃ _ hready₃ => yields_pure hready₃ _
      · have hone : s.outline.visible c = [c] := by rw [ho.visible_eq, if_neg hshown]
        rw [if_pos (by simpa using hshown), hone]
        have := hrest (idx - 1) s₁ hs₁ hready₁ (by omega)
        rw [List.getElem?_append_right (by simp only [List.length_singleton]; omega)]
        rwa [show (idx - 1).toNat = idx.toNat - [c].length by
          simp only [List.length_singleton]; omega] at this

/-- **`getItem` finds what is shown at a place.** -/
theorem yields_getItem (dirty : Bool) : ∀ (fuel : Nat) (p : I) (idx : Int) {s : TreeItems I},
    s.Ready → 0 ≤ idx → height s.outline.parent p + 1 < fuel →
    Yields (getItem dirty fuel (some p) idx) s (s.outline.visible p)[idx.toNat]? := by
  intro fuel
  induction fuel with
  | zero => intro p idx s _ _ hfuel; omega
  | succ fuel ih =>
    intro p idx s h hidx hfuel
    have ho := h.sound
    rw [getItem]
    by_cases hzero : idx = 0
    · rw [hzero, ho.visible_eq]
      exact yields_pure h (some p)
    · rw [if_neg hzero]
      refine Yields.bind (yields_descendantCount h dirty (by omega)) fun s₁ hs₁ hready₁ => ?_
      by_cases hge : idx ≥ (s.outline.visible p).length
      · rw [if_pos hge, List.getElem?_eq_none (by omega)]
        exact yields_pure hready₁ none
      · rw [if_neg hge]
        refine (yields_read hready₁ _).bind fun s₂ hs₂ hready₂ => ?_
        have hitem := hs₂.trans hs₁
        rw [children_congr hs₁]
        have hshown : s.outline.shown p = true := by
          by_contra hnot
          rw [ho.visible_eq, if_neg hnot, List.length_singleton] at hge
          omega
        have hrows : (s.outline.visible p)[idx.toNat]?
            = ((s.children p).flatMap s₂.outline.visible)[(idx - 1).toNat]? := by
          rw [outline_congr hitem, ho.visible_eq p, if_pos hshown,
            show idx.toNat = (idx - 1).toNat + 1 by omega]
          rfl
        rw [hrows]
        have hlt : ∀ c ∈ s.children p, height s.outline.parent c < height s.outline.parent p :=
          fun c hc => ho.rooted.height_lt (ho.linked p c hc)
        refine yields_searchChildren (s.children p) (idx - 1) hready₂ (by omega) ?_ ?_
        · intro c hc
          have := hlt c hc
          rw [outline_congr hitem]
          omega
        · intro c hc k t ht htitem hk
          refine ih c k ht hk ?_
          have := hlt c hc
          rw [outline_congr (htitem.trans hitem)]
          omega

/-! ### From items to rows -/

/-- What the loop over the siblings comes to. -/
def siblingRows (o : Outline I) (root : I) (isShowRoot : Bool) : List I → Int → Int ⊕ Int
  | [], row => .inr row
  | c :: l, row =>
    if c = root then .inl (if isShowRoot then row + (o.visible c).length else -1)
    else siblingRows o root isShowRoot l (row + (o.visible c).length)

theorem siblingRows_of_not_mem {o : Outline I} {root : I} {isShowRoot : Bool} : ∀ (l : List I) (row : Int), root ∉ l →
    siblingRows o root isShowRoot l row = .inr (row + (l.flatMap o.visible).length) := by
  intro l
  induction l with
  | nil => intro row _; simp [siblingRows]
  | cons c l ih =>
    intro row hroot
    rw [List.mem_cons, not_or] at hroot
    rw [siblingRows, if_neg (Ne.symm hroot.1), ih _ hroot.2]
    simp [Int.add_assoc]

theorem siblingRows_of_mem (o : Outline I) {root : I} (isShowRoot : Bool) : ∀ (l : List I)
    (row : Int), root ∈ l → ∃ v, siblingRows o root isShowRoot l row = .inl v ∧ (isShowRoot = false → v = -1) := by
  intro l
  induction l with
  | nil => intro row h; simp at h
  | cons c l ih =>
    intro row hroot
    rw [siblingRows]
    by_cases hc : c = root
    · rw [if_pos hc]
      exact ⟨_, rfl, fun h => by simp [h]⟩
    · rw [if_neg hc]
      exact ih _ ((List.mem_cons.mp hroot).resolve_left (Ne.symm hc))

theorem yields_addSiblings {dirty isShowRoot : Bool} {fuel : Nat} {root : I} : ∀ (l : List I)
    (row : Int) {s : TreeItems I}, s.Ready → (∀ c ∈ l, height s.outline.parent c < fuel) →
    Yields (addSiblings fuel (some root) dirty isShowRoot l row) s (siblingRows s.outline root isShowRoot l row) := by
  intro l
  induction l with
  | nil => intro row s h _; exact yields_pure h _
  | cons c l ih =>
    intro row s h hfuel
    rw [siblingRows]
    refine Yields.bind (yields_descendantCount h dirty (hfuel c (by simp))) fun s₁ hs₁ hready₁ => ?_
    by_cases hc : c = root
    · rw [if_pos hc, if_pos (by rw [hc])]
      exact yields_pure hready₁ _
    · rw [if_neg hc, if_neg (by simpa using hc)]
      have := ih (row + (s.outline.visible c).length) hready₁
        (fun d hd => by rw [outline_congr hs₁]; exact hfuel d (by simp [hd]))
      rwa [outline_congr hs₁] at this

theorem inFront_append {before after : List I} {i : I} (h : (before ++ i :: after).Nodup) :
    inFront (before ++ i :: after) i = before.reverse := by
  have hi : i ∉ before := by
    intro hi
    have := List.disjoint_of_nodup_append h
    exact this hi (by simp)
  have hidx : (before ++ i :: after).idxOf? i = some before.length := by
    rw [List.idxOf?_eq_some_iff]
    refine ⟨by simp, by simp, ?_⟩
    intro j hj
    rw [List.getElem_append_left hj]
    have hne : before[j] ≠ i := fun heq => hi (heq ▸ List.getElem_mem hj)
    simpa using hne
  rw [inFront, hidx]
  simp

/-- The items are a tree: the links agree in both directions, and no item is listed twice. -/
structure Tree (s : TreeItems I) : Prop extends s.Ready where
  listed : ∀ p c, (s.item c).parent = some p → c ∈ s.children p
  nodup : ∀ p, (s.children p).Nodup

omit [DecidableEq I] in
theorem Tree.of_item {s s' : TreeItems I} (h : Tree s) (hitem : s'.item = s.item) (hready : s'.Ready) : Tree s' where
  toReady := hready
  listed p c := by
    rw [hitem, children_congr hitem]
    exact h.listed p c
  nodup p := by
    rw [children_congr hitem]
    exact h.nodup p

/-- The result of a climb that has come to the root. -/
def rowAt (isShowRoot : Bool) (row : Int) : Int := if isShowRoot then row else row - 1

section
variable {dirty isShowRoot : Bool} {fuel : Nat} {root : I}

variable {i : I}

variable {p : I} {k : Nat}

theorem yields_round {rounds : Nat} {row v : Int} (h : Tree s) (hi : i ≠ root)
    (hp : (s.item i).parent = some p) (hexpanded : (s.item p).expanded = true)
    (hfuel : Fintype.card I < fuel)
    (hnext : ∀ t, t.item = s.item → Tree t → Yields (
      match siblingRows s.outline root isShowRoot (inFront (s.children p) i) row with
      | .inl result => pure result
      | .inr row =>
        if ((s.item p).parent).isNone && some p != some root then pure (-1)
        else climb fuel (some root) dirty isShowRoot rounds p (row + 1)) t v) :
    Yields (climb fuel (some root) dirty isShowRoot (rounds + 1) i row) s v := by
  refine (yields_read h.toReady _).bind fun s₁ hs₁ hready₁ => ?_
  rw [hp]
  simp only
  rw [if_neg (by simpa using hi)]
  refine (yields_isExpanded hready₁ p).bind fun s₂ hs₂ hready₂ => ?_
  rw [hs₁, if_pos hexpanded]
  refine (yields_read hready₂ _).bind fun s₃ hs₃ hready₃ => ?_
  have hitem₃ := hs₃.trans (hs₂.trans hs₁)
  have hheight : ∀ c ∈ inFront (s₂.children p) i, height s₃.outline.parent c < fuel := fun c _ => by
    have := hready₃.sound.rooted.height_lt_card c
    omega
  refine (yields_addSiblings _ row hready₃ hheight).bind fun s₄ hs₄ hready₄ => ?_
  have hitem₄ := hs₄.trans hitem₃
  rw [outline_congr hitem₃, children_congr (hs₂.trans hs₁)]
  have hcontinue := hnext s₄ hitem₄ (h.of_item hitem₄ hready₄)
  revert hcontinue
  cases siblingRows s.outline root isShowRoot (inFront (s.children p) i) row with
  | inl result => exact fun hcontinue => hcontinue
  | inr row' =>
    intro hcontinue
    obtain ⟨s₅, hs₅, hrest⟩ := hcontinue
    refine ⟨s₅, ?_, hrest⟩
    rw [← hs₅]
    simp only
    rw [bind_ok (read_apply _ s₄), hitem₄]

/-- A climb from an item that is shown adds up its place. -/
theorem yields_climb_at (dirty isShowRoot : Bool) (hfuel : Fintype.card I < fuel)
    (hat : At s.outline root k i) : ∀ (rounds : Nat) (row : Int) {t : TreeItems I}, Tree t →
    t.item = s.item → depth s.outline.parent i < rounds → 0 ≤ row → (i = root → 0 < row) →
    Yields (climb fuel (some root) dirty isShowRoot rounds i row) t (rowAt isShowRoot (row + k)) := by
  induction hat with
  | root =>
    intro rounds row t ht hitem hrounds _ hpos
    have hpos := hpos rfl
    obtain ⟨rounds, rfl⟩ : ∃ n, rounds = n + 1 := ⟨rounds - 1, by omega⟩
    rw [climb]
    refine (yields_read ht.toReady _).bind fun s₁ hs₁ hready₁ => ?_
    cases hp : (t.item root).parent with
    | none =>
      rw [if_neg (by omega)]
      simpa [rowAt] using yields_pure hready₁ _
    | some p =>
      simpa [rowAt] using yields_pure hready₁ _
  | @child k p c before after hat hshown hc ih =>
    intro rounds row t ht hitem hrounds hrow _
    have ho := ht.sound
    have hot := outline_congr hitem
    rw [← hot] at hc hshown hrounds hat
    have hchildren : t.children p = before ++ c :: after := hc
    have hcp : t.outline.parent c = some p := ho.linked p c (by rw [hc]; simp)
    have hexpanded : (t.item p).expanded = true := by
      simp only [outline, Bool.and_eq_true] at hshown
      exact hshown.2
    have hdepth := ho.rooted.depth_lt hcp
    -- The root is not below itself, so it is neither `c` nor one of its siblings.
    have hroot : root ∉ t.children p := by
      intro hmem
      have hrp := ho.linked p root hmem
      rcases hat.ancestor ho with rfl | ha
      · exact ho.rooted.ne_of_parent hrp rfl
      · exact ho.rooted root (ha.below hrp)
    have hcroot : c ≠ root := fun h => hroot (by rw [hchildren, ← h]; simp)
    obtain ⟨rounds, rfl⟩ : ∃ n, rounds = n + 1 := ⟨rounds - 1, by omega⟩
    have hfront : inFront (t.children p) c = before.reverse := by
      rw [hchildren]
      exact inFront_append (hchildren ▸ ht.nodup p)
    have hrows : siblingRows t.outline root isShowRoot (inFront (t.children p) c) row
        = .inr (row + (before.flatMap t.outline.visible).length) := by
      rw [hfront, siblingRows_of_not_mem]
      · simp
      · intro hmem
        exact hroot (by rw [hchildren]; simp [List.mem_reverse.mp hmem])
    refine yields_round ht hcroot hcp hexpanded hfuel fun t' ht' hTree' => ?_
    rw [hrows]
    simp only
    have htop : ¬ (((t.item p).parent).isNone && some p != some root) = true := by
      simp only [Bool.and_eq_true, bne_iff_ne, not_and, not_not]
      intro hnone
      rcases hat.ancestor ho with rfl | ha
      · rfl
      · obtain ⟨q, hq, -⟩ := ancestor_iff.mp ha
        have hq' : (t.item p).parent = some q := hq
        rw [hq'] at hnone
        simp at hnone
    rw [if_neg htop]
    have := ih rounds (row + (before.flatMap t.outline.visible).length + 1) hTree'
      (ht'.trans hitem) (by rw [← hot]; omega) (by omega) (by omega)
    rw [← hot]
    rwa [show row + ((before.flatMap t.outline.visible).length : Int) + 1 + (k : Int)
      = row + ((k + 1 + (before.flatMap t.outline.visible).length : Nat) : Int) by
        push_cast; omega] at this

/-- A climb never meets the root among the siblings in front, or the root is not shown. -/
def Unmet (s : TreeItems I) (root : I) (isShowRoot : Bool) : Prop :=
  isShowRoot = true → ∀ p, (s.item root).parent = some p → (s.item p).expanded = true →
    (s.children p).getLast? = some root

theorem inFront_subset (siblings : List I) (i : I) : inFront siblings i ⊆ siblings := by
  intro j hj
  unfold inFront at hj
  cases h : siblings.idxOf? i with
  | none => simp [h] at hj
  | some k =>
    simp only [h, List.mem_reverse] at hj
    exact List.mem_of_mem_take hj

theorem not_last_of_inFront {siblings : List I} {root : I} (hnodup : siblings.Nodup)
    (hi : i ∈ siblings) (h : root ∈ inFront siblings i) : siblings.getLast? ≠ some root := by
  obtain ⟨before, after, rfl⟩ := List.append_of_mem hi
  rw [inFront_append hnodup, List.mem_reverse] at h
  intro hlast
  have hmem : root ∈ i :: after := by
    rw [List.getLast?_append_of_ne_nil _ (by simp)] at hlast
    exact List.mem_of_getLast? hlast
  exact List.disjoint_of_nodup_append hnodup h hmem

theorem yields_climb_hidden (hfuel : Fintype.card I < fuel) (hunmet : Unmet s root isShowRoot) :
    ∀ (rounds : Nat) (i : I) (row : Int) {t : TreeItems I}, Tree t → t.item = s.item →
    depth s.outline.parent i < rounds → i ∉ s.outline.visible root →
    (row = 0 ∨ (s.item i).parent ≠ none) →
    Yields (climb fuel (some root) dirty isShowRoot rounds i row) t (-1) := by
  intro rounds
  induction rounds with
  | zero => intro i row t _ _ hrounds; omega
  | succ rounds ih =>
    intro i row t ht hitem hrounds hhidden hrow
    have ho := ht.sound
    have hot := outline_congr hitem
    have hi : i ≠ root := by
      intro h
      rw [h, ← hot] at hhidden
      exact hhidden (ho.self_mem_visible root)
    cases hp : (t.item i).parent with
    | none =>
      have hzero : row = 0 := hrow.resolve_right (by rw [← hitem]; simpa using hp)
      rw [climb]
      refine (yields_read ht.toReady _).bind fun s₁ hs₁ hready₁ => ?_
      rw [hp]
      rw [if_pos hzero]
      exact yields_pure hready₁ _
    | some p =>
      by_cases hexpanded : (t.item p).expanded = true
      · have hlisted := ht.listed p i hp
        have hphidden : p ∉ t.outline.visible root := by
          intro hmem
          rw [← hot] at hhidden
          obtain ⟨k, hk⟩ := ho.mem_visible_iff.mp hmem
          obtain ⟨before, after, hsplit⟩ := List.append_of_mem hlisted
          have hshown : t.outline.shown p = true := by
            simp [outline, hexpanded, List.ne_nil_of_mem hlisted]
          exact hhidden (ho.mem_visible_iff.mpr ⟨_, hk.child hshown hsplit⟩)
        have hproot : p ≠ root := fun h => hphidden (by rw [h]; exact ho.self_mem_visible root)
        refine yields_round ht hi hp hexpanded hfuel fun t' ht' hTree' => ?_
        by_cases hmet : root ∈ inFront (t.children p) i
        · obtain ⟨v, hv, hv1⟩ := siblingRows_of_mem t.outline isShowRoot _ row hmet
          rw [hv]
          have hshow : isShowRoot = false := by
            by_contra hshow
            have hroot : (t.item root).parent = some p :=
              ho.linked p root (inFront_subset _ _ hmet)
            have hlast := hunmet (by simpa using hshow) p (by rw [← hitem]; exact hroot)
              (by rw [← hitem]; exact hexpanded)
            rw [← children_congr hitem] at hlast
            exact not_last_of_inFront (ht.nodup p) hlisted hmet hlast
          rw [hv1 hshow]
          exact yields_pure hTree'.toReady _
        · rw [siblingRows_of_not_mem _ _ hmet]
          simp only
          cases hpp : (t.item p).parent with
          | none =>
            rw [if_pos (by simpa using hproot)]
            exact yields_pure hTree'.toReady _
          | some q =>
            have hdepth := ho.rooted.depth_lt hp
            refine ih p _ hTree' (ht'.trans hitem) ?_ ?_ (.inr ?_)
            · rw [hot] at hdepth
              omega
            · rwa [← hot]
            · rw [← hitem, hpp]
              simp
      · refine (yields_read ht.toReady _).bind fun s₁ hs₁ hready₁ => ?_
        rw [hp]
        simp only
        rw [if_neg (by simpa using hi)]
        refine (yields_isExpanded hready₁ p).bind fun s₂ hs₂ hready₂ => ?_
        rw [hs₁, if_neg hexpanded]
        exact yields_pure hready₂ _

/-! ### Both ways -/

omit [Fintype I] in
theorem getRow_ne (h : i ≠ root) : getRow fuel (some i) (some root) dirty isShowRoot
    = climb fuel (some root) dirty isShowRoot fuel i 0 := by
  simp [getRow, h]

theorem yields_getRow_at (dirty isShowRoot : Bool) (h : Tree s) (hfuel : Fintype.card I < fuel)
    (hat : At s.outline root k i) :
    Yields (getRow fuel (some i) (some root) dirty isShowRoot) s (rowAt isShowRoot k) := by
  by_cases hi : i = root
  · -- The root is at place 0 and nowhere else.
    subst hi
    have hk : k = 0 := by
      cases hat with
      | root => rfl
      | child hp _ hc =>
        exfalso
        have hip := h.sound.linked _ i (by rw [hc]; simp)
        rcases hp.ancestor h.sound with rfl | ha
        · exact h.sound.rooted.ne_of_parent hip rfl
        · exact h.sound.rooted i (ha.below hip)
    subst hk
    cases isShowRoot with
    | true =>
      have hzero : getRow fuel (some i) (some i) dirty true = pure 0 := by simp [getRow]
      rw [hzero]
      exact yields_pure h.toReady _
    | false =>
      obtain ⟨rounds, rfl⟩ : ∃ n, fuel = n + 1 := ⟨fuel - 1, by omega⟩
      refine (yields_read h.toReady _).bind fun s₁ _ hready₁ => ?_
      cases (s.item i).parent with
      | none => exact yields_pure hready₁ _
      | some p =>
        simp only
        exact yields_pure hready₁ _
  · rw [getRow_ne hi]
    have hdepth := h.sound.rooted.depth_lt_card i
    have := yields_climb_at dirty isShowRoot hfuel hat fuel 0 h rfl (by omega) (by omega) (fun h => absurd h hi)
    rwa [Int.zero_add] at this

theorem yields_getRow_hidden (h : Tree s) (hfuel : Fintype.card I < fuel)
    (hunmet : Unmet s root isShowRoot) (hi : i ∉ s.outline.visible root) :
    Yields (getRow fuel (some i) (some root) dirty isShowRoot) s (-1) := by
  have hiroot : i ≠ root := fun heq => hi (by rw [heq]; exact h.sound.self_mem_visible root)
  have hdepth := h.sound.rooted.depth_lt_card i
  rw [getRow_ne hiroot]
  exact yields_climb_hidden hfuel hunmet fuel i 0 h rfl (by omega) hi (.inl rfl)

/-- The sibling behind a root that is shown is given a row, though it is not below the root. -/
theorem getRow_next_sibling (dirty : Bool) (h : Tree s) (hfuel : Fintype.card I < fuel) {x : I}
    {before after : List I} (hexpanded : (s.item p).expanded = true)
    (hchildren : s.children p = before ++ root :: x :: after) :
    x ∉ s.outline.visible root ∧
      Yields (getRow fuel (some x) (some root) dirty true) s (s.outline.visible root).length := by
  have ho := h.sound
  have hroot : s.outline.parent root = some p := ho.linked p root (by
    show root ∈ s.children p
    rw [hchildren]
    simp)
  have hx : s.outline.parent x = some p := ho.linked p x (by
    show x ∈ s.children p
    rw [hchildren]
    simp)
  have hnodup := h.nodup p
  rw [hchildren] at hnodup
  have hne : x ≠ root := by
    intro heq
    subst heq
    have := List.Nodup.of_append_right hnodup
    simp at this
  have hsplit : s.children p = (before ++ [root]) ++ x :: after := by
    rw [hchildren]
    simp
  refine ⟨?_, ?_⟩
  · intro hmem
    rcases ho.mem_visible hmem with heq | ha
    · exact hne heq
    · obtain ⟨q, hq, hrq⟩ := ancestor_iff.mp ha
      rw [hx, Option.some.injEq] at hq
      subst hq
      rcases hrq with rfl | hrq
      · exact ho.rooted.ne_of_parent hroot rfl
      · exact ho.rooted root (hrq.below hroot)
  · rw [getRow_ne hne]
    obtain ⟨rounds, rfl⟩ : ∃ n, fuel = n + 1 := ⟨fuel - 1, by omega⟩
    refine yields_round h hne hx hexpanded hfuel fun t _ ht => ?_
    have hfront : inFront (s.children p) x = root :: before.reverse := by
      rw [hsplit, inFront_append (by rw [← hsplit, hchildren]; exact hnodup)]
      simp
    rw [hfront, siblingRows]
    simpa using yields_pure ht.toReady _

end

/-! ### The correspondence -/

/-- The rows of a view: what is shown below the root, the root itself only if it is to be. -/
def viewRows (s : TreeItems I) (root : I) (isShowRoot : Bool) : List I :=
  if isShowRoot then s.outline.visible root else (s.outline.visible root).tail

/-- Every row of the view holds an item that is in that row, and the items that are not in
the view have no row.  `TreeView.getTreeItem` asks for the row behind if the root is not
shown. -/
def Corresponds (s : TreeItems I) (fuel : Nat) (root : I) (dirty isShowRoot : Bool) : Prop :=
  ∃ count, (updateExpandedItemCount fuel (some root) dirty isShowRoot s).1 = .ok count ∧
    (∀ r : Int, 0 ≤ r → r < count → ∃ x,
      (getItem dirty fuel (some root) (if isShowRoot then r else r + 1) s).1 = .ok (some x) ∧
      (getRow fuel (some x) (some root) dirty isShowRoot s).1 = .ok r) ∧
    ∀ x, x ∉ viewRows s root isShowRoot → (getRow fuel (some x) (some root) dirty isShowRoot s).1 = .ok (-1)

/-- A root that is not shown is expanded.  A root that is shown has no sibling behind it, or
its parent is collapsed. -/
def WellRooted (s : TreeItems I) (root : I) (isShowRoot : Bool) : Prop :=
  (isShowRoot = false → (s.item root).expanded = true) ∧ Unmet s root isShowRoot

theorem corresponds_of_wellRooted {fuel : Nat} {root : I} {dirty isShowRoot : Bool} (h : Tree s)
    (hfuel : Fintype.card I < fuel) (hroot : WellRooted s root isShowRoot) :
    Corresponds s fuel root dirty isShowRoot := by
  have ho := h.sound
  have hheight := ho.rooted.height_lt_card root
  refine ⟨_, (yields_updateExpandedItemCount h.toReady dirty isShowRoot (by omega)).value, ?_, ?_⟩
  · intro r hr hlt
    have hidx : 0 ≤ (if isShowRoot then r else r + 1) := by
      split
      · exact hr
      · omega
    -- The row is one of the places below the root.
    have hplace : (if isShowRoot then r else r + 1).toNat < (s.outline.visible root).length := by
      rw [rowCount] at hlt
      cases isShowRoot with
      | true =>
        simp only [if_true] at hlt ⊢
        split at hlt
        · omega
        · have := List.length_pos_of_mem (ho.self_mem_visible root)
          omega
      | false =>
        rw [if_pos (hroot.1 rfl)] at hlt
        simp only [Bool.false_eq_true, if_false] at hlt ⊢
        omega
    have hget := yields_getItem dirty fuel root _ h.toReady hidx (by omega)
    have hx := List.getElem?_eq_getElem hplace
    rw [hx] at hget
    have hat := ho.at_iff.mpr hx
    have hrow := (yields_getRow_at dirty isShowRoot h hfuel hat).value
    refine ⟨_, hget.value, ?_⟩
    rw [hrow, rowAt]
    cases isShowRoot with
    | true =>
      simp only [if_true]
      exact congrArg _ (by omega)
    | false =>
      simp only [Bool.false_eq_true, if_false]
      exact congrArg _ (by omega)
  · intro x hx
    by_cases hmem : x ∈ s.outline.visible root
    · -- Only the root is below itself and yet not in the view.
      unfold viewRows at hx
      cases isShowRoot with
      | true => exact absurd hmem hx
      | false =>
        obtain rfl : x = root := by
          rw [ho.visible_eq, List.mem_cons] at hmem
          rw [ho.visible_eq] at hx
          exact hmem.resolve_right hx
        have hat : At s.outline x 0 x := At.root
        have := (yields_getRow_at dirty false h hfuel hat).value
        rw [this]
        rfl
    · exact (yields_getRow_hidden h hfuel hroot.2 hmem).value

/-- **Rows and items correspond if and only if the view is well rooted.** -/
theorem corresponds_iff_wellRooted (s : TreeItems I) (h : Tree s) (fuel : Nat)
    (hfuel : Fintype.card I < fuel) (root : I) (dirty isShowRoot : Bool) :
    Corresponds s fuel root dirty isShowRoot ↔ WellRooted s root isShowRoot := by
  refine ⟨?_, corresponds_of_wellRooted h hfuel⟩
  intro ⟨count, hcount, hrows, hhidden⟩
  have ho := h.sound
  have hheight := ho.rooted.height_lt_card root
  refine ⟨?_, ?_⟩
  · -- A collapsed root that is not shown has no rows, yet it is counted as one.
    intro hshow
    subst hshow
    by_contra hexpanded
    rw [(yields_updateExpandedItemCount h.toReady dirty false (by omega)).value] at hcount
    obtain rfl : rowCount s root false = count := by simpa using hcount
    obtain ⟨x, hx, -⟩ := hrows 0 (by omega) (by rw [rowCount, if_neg hexpanded]; omega)
    have hget := (yields_getItem dirty fuel root (0 + 1) h.toReady (by omega) (by omega)).value
    simp only [Bool.false_eq_true, if_false] at hx
    rw [hget, visible_closed ho (.inr (Bool.eq_false_iff.mpr hexpanded))] at hx
    simp at hx
  · intro hshow p hp hexpanded
    subst hshow
    by_contra hlast
    obtain ⟨before, after, hsplit⟩ := List.append_of_mem (h.listed p root hp)
    cases after with
    | nil => exact hlast (by rw [hsplit]; simp)
    | cons x after =>
      obtain ⟨hx, hrow⟩ := getRow_next_sibling dirty h hfuel hexpanded hsplit
      have := hhidden x (by simpa [viewRows] using hx)
      rw [hrow.value] at this
      simp only [Except.ok.injEq] at this
      omega

/-- Two leaves below an expanded item. -/
def sisters : TreeItems (Fin 3) where
  item := fun
    | 0 => { children := { backingList := [1, 2], hasListeners := true }, leaf := false,
             expanded := true }
    | _ => { parent := some 0 }
  count := fun _ => {}

theorem sisters_tree : Tree sisters where
  sound := ⟨by decide, rooted_of_rank Fin.val (by decide)⟩
  leaves := by unfold LeavesMarked; decide
  fresh i := fun h => by simp [sisters] at h
  listed := by decide
  nodup := by decide

theorem corresponds_iff_wellRooted_sisters :
    Tree sisters ∧ Fintype.card (Fin 3) < 4 ∧ Corresponds sisters 4 0 false true :=
  ⟨sisters_tree, by decide, (corresponds_iff_wellRooted sisters sisters_tree 4 (by decide) 0 false
    true).mpr ⟨by decide, by unfold Unmet; decide⟩⟩

/-- With the first of the two as the root, the second is not in the view; it has row 1. -/
theorem sibling_of_root_has_row : Tree sisters ∧ (2 : Fin 3) ∉ viewRows sisters 1 true ∧
      (getRow 4 (some 2) (some 1) false true sisters).1 = .ok 1 ∧
      ¬ Corresponds sisters 4 1 false true := by
  have hhidden : (2 : Fin 3) ∉ viewRows sisters 1 true := by decide
  have hrow : (getRow 4 (some 2) (some 1) false true sisters).1 = .ok 1 := by rfl
  refine ⟨sisters_tree, hhidden, hrow, ?_⟩
  intro ⟨_, _, _, hnone⟩
  have := hnone 2 hhidden
  rw [hrow] at this
  simp at this

end TreeUtil

end JavaFX
