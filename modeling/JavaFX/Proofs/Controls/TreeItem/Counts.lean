/-
What counting the rows of an item comes to.

A count that is not dirty has to be right.  That alone would not survive the property of an
item that is set without anybody hearing of it, which happens to a property that nobody has
read since it was last set.  So a clean count also answers for the properties it was made
of: those of the items it counted, leaves apart, have been read.
-/
import JavaFX.Controls.TreeItem

namespace JavaFX.TreeItems

open Program Outline List

variable {I : Type}

variable {s s' : TreeItems I} {i c : I} {getCount : I → Call I Nat}

theorem outline_congr (h : s'.item = s.item) : s'.outline = s.outline := by
  unfold outline children
  rw [h]

theorem children_congr (h : s'.item = s.item) : s'.children = s.children :=
  congrArg Outline.children (outline_congr h)

section
variable [DecidableEq I]

@[simp] theorem setCount_item (s : TreeItems I) (i : I) (f : ExpandedCount → ExpandedCount) :
    (s.setCount i f).item = s.item := rfl

@[simp] theorem setCount_self (s : TreeItems I) (i : I) (f : ExpandedCount → ExpandedCount) :
    (s.setCount i f).count i = f (s.count i) :=
  Function.update_self i _ _

theorem setCount_ne (s : TreeItems I) {i j : I} (h : j ≠ i) (f : ExpandedCount → ExpandedCount) :
    (s.setCount i f).count j = s.count j :=
  Function.update_of_ne h _ _

end

/-- A leaf is an item without children. -/
def LeavesMarked (s : TreeItems I) : Prop := ∀ i, (s.item i).leaf = (s.children i).isEmpty

variable [Fintype I]

/-- Every property a count of the rows of `i` depends on has been read. -/
def Read (s : TreeItems I) (i : I) : Prop :=
  ∀ j ∈ s.outline.visible i, s.children j ≠ [] → (s.count j).expandedValid = true

/-- The count of `i` is dirty, or it is right and answers for what it was made of. -/
def Fresh (s : TreeItems I) (i : I) : Prop :=
  (s.count i).expandedDescendentCountDirty = false →
    (s.count i).expandedDescendentCount = (s.outline.visible i).length ∧ s.Read i

/-- What counting the rows of `i` may do. -/
structure Looked (s s' : TreeItems I) (i : I) : Prop where
  item : s'.item = s.item
  valid : ∀ j, (s.count j).expandedValid = true → (s'.count j).expandedValid = true
  frame : ∀ j, j ∉ s.outline.visible i → s'.count j = s.count j
  fresh : ∀ j, s.Fresh j → s'.Fresh j

theorem Read.mono (h : s.Read i) (hitem : s'.item = s.item)
    (hvalid : ∀ j, (s.count j).expandedValid = true → (s'.count j).expandedValid = true) :
    s'.Read i := by
  intro j hj hne
  rw [outline_congr hitem] at hj
  rw [children_congr hitem] at hne
  exact hvalid j (h j hj hne)

theorem Fresh.mono (h : s.Fresh i) (hitem : s'.item = s.item)
    (hvalid : ∀ j, (s.count j).expandedValid = true → (s'.count j).expandedValid = true)
    (hdirty : (s'.count i).expandedDescendentCountDirty = (s.count i).expandedDescendentCountDirty)
    (hcount : (s'.count i).expandedDescendentCount = (s.count i).expandedDescendentCount) :
    s'.Fresh i := by
  intro hclean
  rw [hdirty] at hclean
  obtain ⟨hright, hread⟩ := h hclean
  rw [hcount, outline_congr hitem]
  exact ⟨hright, hread.mono hitem hvalid⟩

theorem Looked.refl (s : TreeItems I) (i : I) : Looked s s i :=
  ⟨rfl, fun _ h => h, fun _ _ => rfl, fun _ h => h⟩

theorem Looked.trans {s'' : TreeItems I} (h : Looked s s' i) (h' : Looked s' s'' i) : Looked s s'' i where
  item := h'.item.trans h.item
  valid j hj := h'.valid j (h.valid j hj)
  frame j hj := by
    rw [h'.frame j (by rwa [outline_congr h.item]), h.frame j hj]
  fresh j hj := h'.fresh j (h.fresh j hj)

variable [DecidableEq I]

/-! ### Looking at one item -/

/-- The state after the `expanded` property of `i` has been read. -/
def expandedRead (i : I) (s : TreeItems I) : TreeItems I :=
  s.setCount i fun c => { c with expandedValid := true }

theorem isExpanded_apply (i : I) (s : TreeItems I) :
    isExpanded i s = (.ok (s.item i).expanded, s.expandedRead i) := rfl

theorem valid_expandedRead (i : I) (s : TreeItems I) : ∀ j, (s.count j).expandedValid = true →
    ((s.expandedRead i).count j).expandedValid = true := by
  intro j hj
  by_cases hji : j = i
  · subst hji
    rw [expandedRead, setCount_self]
  · rw [expandedRead, setCount_ne s hji]
    exact hj

theorem expandedRead_self (i : I) (s : TreeItems I) : ((s.expandedRead i).count i).expandedValid = true := by
  rw [expandedRead, setCount_self]

variable {j : I} {s₁ : TreeItems I}

theorem fresh_expandedRead (i : I) (s : TreeItems I) (h : s.Fresh j) : (s.expandedRead i).Fresh j := by
  by_cases hji : j = i
  · subst hji
    exact h.mono rfl (valid_expandedRead j s) (by rw [expandedRead, setCount_self])
      (by rw [expandedRead, setCount_self])
  · exact h.mono rfl (valid_expandedRead i s) (by rw [expandedRead, setCount_ne s hji])
      (by rw [expandedRead, setCount_ne s hji])

theorem looked_expandedRead (ho : s.outline.Sound) (i : I) : Looked s (s.expandedRead i) i where
  item := rfl
  valid := valid_expandedRead i s
  frame j hj := by
    have hji : j ≠ i := fun h => hj (by rw [h]; exact ho.self_mem_visible i)
    exact setCount_ne s hji _
  fresh _ hj := fresh_expandedRead i s hj

omit [DecidableEq I] in
theorem visible_closed (ho : s.outline.Sound)
    (h : s.children i = [] ∨ (s.item i).expanded = false) : s.outline.visible i = [i] := by
  rw [ho.visible_eq]
  rcases h with h | h
  · simp [outline, h]
  · simp [outline, h]

omit [DecidableEq I] in
theorem visible_open (ho : s.outline.Sound) (hne : s.children i ≠ []) (hexpanded : (s.item i).expanded = true) :
    s.outline.visible i = i :: (s.children i).flatMap s.outline.visible := by
  rw [ho.visible_eq, if_pos]
  · rfl
  · simp [outline, hne, hexpanded]

/-! ### Counting the children -/

/-- `call` counts the rows of `i`. -/
def Counts (call : Call I Nat) (s : TreeItems I) (i : I) : Prop :=
  ∃ s', call s = (.ok (s.outline.visible i).length, s') ∧ Looked s s' i ∧ s'.Read i

theorem rowsOf_counts (ho : s.outline.Sound)
    (hcount : (s.item c).expanded = true → Counts (getCount c) (s.expandedRead c) c) :
    Counts (rowsOf getCount c) s c := by
  have hlook := looked_expandedRead ho c
  unfold Counts
  rw [rowsOf, bind_ok (isExpanded_apply c s)]
  by_cases hc : (s.item c).expanded = true
  · rw [if_pos hc]
    obtain ⟨s', hs', hlook', hread⟩ := hcount hc
    exact ⟨s', hs', hlook.trans hlook', hread⟩
  · rw [if_neg hc]
    have hone := visible_closed ho (.inr (Bool.eq_false_iff.mpr hc))
    refine ⟨s.expandedRead c, by rw [hone]; rfl, hlook, ?_⟩
    intro j hj _
    rw [outline_congr hlook.item, hone, mem_singleton] at hj
    rw [hj]
    exact expandedRead_self c s

/-- What the loop over the children may do while the count of `i` is under way. -/
structure Adding (s s' : TreeItems I) (i : I) (l : List I) : Prop where
  item : s'.item = s.item
  valid : ∀ j, (s.count j).expandedValid = true → (s'.count j).expandedValid = true
  frame : ∀ j ≠ i, (∀ c ∈ l, j ∉ s.outline.visible c) → s'.count j = s.count j
  fresh : ∀ j ≠ i, s.Fresh j → s'.Fresh j
  count : (s'.count i).expandedDescendentCount
    = (s.count i).expandedDescendentCount + (l.flatMap s.outline.visible).length
  read : ∀ c ∈ l, s'.Read c

theorem addChild_adding (hi : i ∉ s.outline.visible c) (h : Counts (rowsOf getCount c) s c) :
    ∃ s', addChild getCount i c s = (.ok (), s') ∧ Adding s s' i [c] := by
  obtain ⟨s₁, hs₁, hlook, hread⟩ := h
  refine ⟨_, by rw [addChild, bind_ok (read_apply _ s), bind_ok hs₁]; rfl, ?_⟩
  have hvalid : ∀ j, (s₁.count j).expandedValid = true → ((s₁.setCount i fun n => { n with expandedDescendentCount :=
        (s.count i).expandedDescendentCount + (s.outline.visible c).length }).count j).expandedValid = true := by
    intro j hj
    by_cases hji : j = i
    · subst hji
      rw [setCount_self]
      exact hj
    · rw [setCount_ne s₁ hji]
      exact hj
  refine ⟨hlook.item, fun j hj => hvalid j (hlook.valid j hj), ?_, ?_, ?_, ?_⟩
  · intro j hj hout
    rw [setCount_ne s₁ hj]
    exact hlook.frame j (hout c (by simp))
  · intro j hj hfresh
    exact (hlook.fresh j hfresh).mono rfl hvalid (by rw [setCount_ne s₁ hj]) (by rw [setCount_ne s₁ hj])
  · simp
  · intro d hd
    rw [mem_singleton] at hd
    rw [hd]
    exact hread.mono rfl hvalid

omit [DecidableEq I] in
theorem Adding.cons {s₂ : TreeItems I} {l : List I} (h₁ : Adding s s₁ i [c])
    (h₂ : Adding s₁ s₂ i l) : Adding s s₂ i (c :: l) where
  item := h₂.item.trans h₁.item
  valid j hj := h₂.valid j (h₁.valid j hj)
  frame j hj hout := by
    have hl : ∀ d ∈ l, j ∉ s₁.outline.visible d := fun d hd => by
      rw [outline_congr h₁.item]
      exact hout d (by simp [hd])
    have hc : ∀ d ∈ [c], j ∉ s.outline.visible d := fun d hd => hout d (by simp_all)
    rw [h₂.frame j hj hl, h₁.frame j hj hc]
  fresh j hj hfresh := h₂.fresh j hj (h₁.fresh j hj hfresh)
  count := by
    rw [h₂.count, h₁.count, outline_congr h₁.item]
    simp [Nat.add_assoc]
  read d hd := by
    rcases List.mem_cons.mp hd with rfl | hd
    · exact (h₁.read d (by simp)).mono h₂.item h₂.valid
    · exact h₂.read d hd

theorem addChildren_adding (getCount : I → Call I Nat) (i : I) : ∀ (l : List I) (s : TreeItems I),
    s.outline.Sound → (∀ c ∈ l, i ∉ s.outline.visible c) →
    (∀ c ∈ l, ∀ j ∈ s.outline.visible c, s.Fresh j) →
    (∀ c ∈ l, ∀ t, t.item = s.item → (∀ j ∈ t.outline.visible c, t.Fresh j) → Counts (getCount c) t c) →
    ∃ s', forEach (addChild getCount i) l s = (.ok (), s') ∧ Adding s s' i l := by
  intro l
  induction l with
  | nil =>
    intro s _ _ _ _
    exact ⟨s, rfl, rfl, fun _ h => h, fun _ _ _ => rfl, fun _ _ h => h, by simp, by simp⟩
  | cons c l ih =>
    intro s ho hi hfresh hcount
    have hrows : Counts (rowsOf getCount c) s c := by
      refine rowsOf_counts ho fun _ => hcount c (by simp) _ rfl fun j hj => ?_
      exact fresh_expandedRead c s (hfresh c (by simp) j hj)
    obtain ⟨s₁, hs₁, h₁⟩ := addChild_adding (hi c (by simp)) hrows
    have ho₁ : s₁.outline = s.outline := outline_congr h₁.item
    obtain ⟨s₂, hs₂, h₂⟩ := ih s₁ (by rwa [ho₁]) (fun d hd => by rw [ho₁]; exact hi d (by simp [hd]))
      (fun d hd j hj => by
        rw [ho₁] at hj
        have hji : j ≠ i := fun h => hi d (by simp [hd]) (h ▸ hj)
        exact h₁.fresh j hji (hfresh d (by simp [hd]) j hj))
      (fun d hd t ht => hcount d (by simp [hd]) t (ht.trans h₁.item))
    exact ⟨s₂, by rw [forEach, bind_ok hs₁, hs₂], h₁.cons h₂⟩

/-! ### Counting an item -/

/-- The state in which the count of `i` is begun. -/
def begun (i : I) (s : TreeItems I) : TreeItems I :=
  s.setCount i fun c =>
    { c with
      previousExpandedDescendentCount := c.expandedDescendentCount
      expandedDescendentCount := 1 }

theorem begun_count (i : I) (s : TreeItems I) : ((s.begun i).count i).expandedDescendentCount = 1 := by
  rw [begun, setCount_self]

theorem valid_begun (i : I) (s : TreeItems I) : ∀ j, (s.count j).expandedValid = true →
    ((s.begun i).count j).expandedValid = true := by
  intro j hj
  by_cases hji : j = i
  · subst hji
    rw [begun, setCount_self]
    exact hj
  · rw [begun, setCount_ne s hji]
    exact hj

/-- The state in which the count of `i` is done. -/
def cleaned (i : I) (s : TreeItems I) : TreeItems I :=
  s.setCount i fun c => { c with expandedDescendentCountDirty := false }

theorem fresh_begun (i : I) (s : TreeItems I) (hji : j ≠ i) (h : s.Fresh j) : (s.begun i).Fresh j :=
  h.mono rfl (valid_begun i s) (by rw [begun, setCount_ne s hji]) (by rw [begun, setCount_ne s hji])

/-- The count of `i` is done: the items below have been looked at, and it is right. -/
theorem looked_recounted (hi : i ∈ s.outline.visible i) (hitem : s₁.item = s.item)
    (hvalid : ∀ j, (s.count j).expandedValid = true → (s₁.count j).expandedValid = true)
    (hframe : ∀ j, j ∉ s.outline.visible i → s₁.count j = s.count j)
    (hfresh : ∀ j ≠ i, s.Fresh j → s₁.Fresh j)
    (hcount : (s₁.count i).expandedDescendentCount = (s.outline.visible i).length)
    (hread : s₁.Read i) :
    Looked s (s₁.cleaned i) i ∧ (s₁.cleaned i).Read i := by
  have hvalid' : ∀ j, (s₁.count j).expandedValid = true → ((s₁.cleaned i).count j).expandedValid = true := by
    intro j hj
    by_cases hji : j = i
    · subst hji
      rw [cleaned, setCount_self]
      exact hj
    · rw [cleaned, setCount_ne s₁ hji]
      exact hj
  have hread' : (s₁.cleaned i).Read i := hread.mono rfl hvalid'
  refine ⟨⟨hitem, fun j hj => hvalid' j (hvalid j hj), ?_, ?_⟩, hread'⟩
  · intro j hj
    have hji : j ≠ i := fun h => hj (by rw [h]; exact hi)
    rw [cleaned, setCount_ne s₁ hji]
    exact hframe j hj
  · intro j hj
    by_cases hji : j = i
    · subst hji
      intro _
      have houtline : (s₁.cleaned j).outline = s.outline := outline_congr hitem
      rw [houtline, cleaned, setCount_self]
      exact ⟨hcount, hread'⟩
    · exact (hfresh j hji hj).mono rfl hvalid' (by rw [cleaned, setCount_ne s₁ hji])
        (by rw [cleaned, setCount_ne s₁ hji])

theorem isOpen_leaf (h : (s.item i).leaf = true) : isOpen i s = (.ok false, s) := by
  rw [isOpen, isLeaf, bind_ok (read_apply _ s), if_pos h]
  rfl

theorem isOpen_branch (h : (s.item i).leaf = false) : isOpen i s = (.ok (s.item i).expanded, s.expandedRead i) := by
  rw [isOpen, isLeaf, bind_ok (read_apply _ s), if_neg (by simp [h])]
  rfl

theorem recount_closed (ho : s.outline.Sound)
    (hleaf : s.LeavesMarked) (hclosed : s.children i = [] ∨ (s.item i).expanded = false) :
    ∃ s', recount getCount i s = (.ok (), s') ∧ Looked s s' i ∧ s'.Read i ∧
      (s'.count i).expandedDescendentCount = (s.outline.visible i).length := by
  have hone := visible_closed ho hclosed
  have hi := ho.self_mem_visible i
  -- Whether the property is read or not, the state keeps the count that was begun.
  have hdone : ∀ s₁ : TreeItems I, s₁.item = s.item →
      (∀ j, (s.count j).expandedValid = true → (s₁.count j).expandedValid = true) →
      (∀ j ≠ i, s₁.count j = s.count j) → (s₁.count i).expandedDescendentCount = 1 →
      (s.children i ≠ [] → (s₁.count i).expandedValid = true) →
      Looked s (s₁.cleaned i) i ∧ (s₁.cleaned i).Read i := by
    intro s₁ hitem hvalid hsame hcount hread
    refine looked_recounted hi hitem hvalid ?_ ?_ (by rw [hcount, hone]; rfl) ?_
    · intro j hj
      exact hsame j fun h => hj (by rw [h]; exact hi)
    · intro j hji hfresh
      exact hfresh.mono hitem hvalid (by rw [hsame j hji]) (by rw [hsame j hji])
    · intro j hj hne
      rw [outline_congr hitem, hone, mem_singleton] at hj
      rw [hj] at hne ⊢
      rw [children_congr hitem] at hne
      exact hread hne
  by_cases hl : (s.item i).leaf = true
  · have hrun : recount getCount i s = (.ok (), (s.begun i).cleaned i) := by
      have hopen := isOpen_leaf (s := s.begun i) hl
      have hupdate : updateExpandedDescendentCount getCount i s = (.ok (), s.begun i) := by
        exact bind_ok hopen
      rw [recount, bind_ok hupdate]
      rfl
    have hempty : s.children i = [] := by
      rw [hleaf i] at hl
      simpa using hl
    obtain ⟨hlook, hread⟩ := hdone (s.begun i) rfl (valid_begun i s)
      (fun j hj => setCount_ne s hj _) (begun_count i s) (fun hne => absurd hempty hne)
    refine ⟨_, hrun, hlook, hread, ?_⟩
    rw [cleaned, setCount_self, hone]
    exact begun_count i s
  · have hl' : (s.item i).leaf = false := Bool.eq_false_iff.mpr hl
    have hexpanded : (s.item i).expanded = false := by
      rcases hclosed with hempty | hcollapsed
      · rw [hleaf i, hempty] at hl'
        cases hl'
      · exact hcollapsed
    have hrun : recount getCount i s = (.ok (), ((s.begun i).expandedRead i).cleaned i) := by
      have hopen : isOpen i (s.begun i) = (.ok false, (s.begun i).expandedRead i) := by
        rw [isOpen_branch (s := s.begun i) hl']
        exact congrArg (fun b => (Except.ok b, _)) hexpanded
      have hupdate : updateExpandedDescendentCount getCount i s = (.ok (), (s.begun i).expandedRead i) := by
        exact bind_ok hopen
      rw [recount, bind_ok hupdate]
      rfl
    have hcount : (((s.begun i).expandedRead i).count i).expandedDescendentCount = 1 := by
      rw [expandedRead, setCount_self]
      exact begun_count i s
    obtain ⟨hlook, hread⟩ := hdone ((s.begun i).expandedRead i) rfl
      (fun j hj => valid_expandedRead i _ j (valid_begun i s j hj))
      (fun j hj => by rw [expandedRead, setCount_ne _ hj, begun, setCount_ne s hj]) hcount
      (fun _ => expandedRead_self i _)
    refine ⟨_, hrun, hlook, hread, ?_⟩
    rw [cleaned, setCount_self, hone]
    exact hcount

theorem recount_open (ho : s.outline.Sound) (hleaf : s.LeavesMarked) (hne : s.children i ≠ [])
    (hexpanded : (s.item i).expanded = true) (hfresh : ∀ j ∈ s.outline.visible i, s.Fresh j)
    (hcount : ∀ c ∈ s.children i, ∀ t, t.item = s.item → (∀ j ∈ t.outline.visible c, t.Fresh j) →
      Counts (getCount c) t c) :
    ∃ s', recount getCount i s = (.ok (), s') ∧ Looked s s' i ∧ s'.Read i ∧
      (s'.count i).expandedDescendentCount = (s.outline.visible i).length := by
  have hi := ho.self_mem_visible i
  have hrows := visible_open ho hne hexpanded
  have hl : (s.item i).leaf = false := by
    rw [hleaf i]
    simpa using hne
  have hin : ∀ c ∈ s.children i, ∀ j ∈ s.outline.visible c, j ∈ s.outline.visible i := by
    intro c hc j hj
    rw [hrows]
    exact mem_cons_of_mem _ (List.mem_flatMap.mpr ⟨c, hc, hj⟩)
  obtain ⟨s₁, hs₁, hadding⟩ := addChildren_adding getCount i (s.children i)
    ((s.begun i).expandedRead i) ho (fun c hc => ho.not_mem_visible hc)
    (fun c hc j hj => by
      have hji : j ≠ i := fun h => ho.not_mem_visible hc (h ▸ hj)
      exact fresh_expandedRead i _ (fresh_begun i s hji (hfresh j (hin c hc j hj))))
    hcount
  have hupdate : updateExpandedDescendentCount getCount i s = (.ok (), s₁) := by
    have hopen : isOpen i (s.begun i) = (.ok true, (s.begun i).expandedRead i) := by
      rw [isOpen_branch (s := s.begun i) hl]
      exact congrArg (fun b => (Except.ok b, _)) hexpanded
    exact (bind_ok hopen).trans hs₁
  have htotal : (s₁.count i).expandedDescendentCount = (s.outline.visible i).length := by
    rw [hadding.count, expandedRead, setCount_self, begun_count, hrows]
    exact Nat.add_comm _ _
  have hlook := looked_recounted hi hadding.item
    (fun j hj => hadding.valid j (valid_expandedRead i _ j (valid_begun i s j hj))) ?_ ?_ htotal ?_
  · refine ⟨_, by rw [recount, bind_ok hupdate]; rfl, hlook.1, hlook.2, ?_⟩
    rw [cleaned, setCount_self]
    exact htotal
  · intro j hj
    have hji : j ≠ i := fun h => hj (by rw [h]; exact hi)
    rw [hadding.frame j hji fun c hc hjc => hj (hin c hc j hjc), expandedRead, setCount_ne _ hji,
      begun, setCount_ne s hji]
  · intro j hji hj
    exact hadding.fresh j hji (fresh_expandedRead i _ (fresh_begun i s hji hj))
  · intro j hj hjne
    rw [outline_congr hadding.item] at hj
    have hj' : j ∈ i :: (s.children i).flatMap s.outline.visible := by
      rw [← hrows]
      exact hj
    rcases List.mem_cons.mp hj' with rfl | hbelow
    · exact hadding.valid j (expandedRead_self j _)
    · obtain ⟨c, hc, hjc⟩ := List.mem_flatMap.mp hbelow
      refine hadding.read c hc j ?_ hjne
      rw [outline_congr hadding.item]
      exact hjc

/-- **Counting gives the number of rows**, if the caches of the items that are counted are
as they should be. -/
theorem getExpandedDescendentCount_counts (reset : Bool) : ∀ (fuel : Nat) (i : I) (s : TreeItems I),
    s.outline.Sound → s.LeavesMarked → (∀ j ∈ s.outline.visible i, s.Fresh j) →
    height s.outline.parent i < fuel → Counts (getExpandedDescendentCount reset fuel i) s i := by
  intro fuel
  induction fuel with
  | zero => intro i s _ _ _ hfuel; omega
  | succ fuel ih =>
    intro i s ho hleaf hfresh hfuel
    have hbelow : ∀ c ∈ s.children i, ∀ t, t.item = s.item → (∀ j ∈ t.outline.visible c, t.Fresh j) →
        Counts (getExpandedDescendentCount reset fuel c) t c := by
      intro c hc t ht htfresh
      have hot := outline_congr ht
      refine ih c t (by rwa [hot]) ?_ htfresh ?_
      · intro j
        rw [children_congr ht, ht]
        exact hleaf j
      · have hlt := ho.rooted.height_lt (ho.linked i c hc)
        rw [hot]
        omega
    have hrecount : ∃ s', recount (getExpandedDescendentCount reset fuel) i s = (.ok (), s') ∧
        Looked s s' i ∧ s'.Read i ∧
        (s'.count i).expandedDescendentCount = (s.outline.visible i).length := by
      by_cases hne : s.children i = []
      · exact recount_closed ho hleaf (.inl hne)
      · by_cases hexpanded : (s.item i).expanded = true
        · exact recount_open ho hleaf hne hexpanded hfresh hbelow
        · exact recount_closed ho hleaf (.inr (Bool.eq_false_iff.mpr hexpanded))
    rw [getExpandedDescendentCount]
    by_cases hdo : (reset || (s.count i).expandedDescendentCountDirty) = true
    · obtain ⟨s', hs', hlook, hread, hcount⟩ := hrecount
      refine ⟨s', ?_, hlook, hread⟩
      have hrefresh : refreshCount reset (getExpandedDescendentCount reset fuel) i s = (.ok (), s') := by
        rw [refreshCount, if_pos hdo, hs']
      rw [bind_ok hrefresh, read_apply, hcount]
    · have hclean : (s.count i).expandedDescendentCountDirty = false := by
        revert hdo
        cases (s.count i).expandedDescendentCountDirty <;> simp
      obtain ⟨hcount, hread⟩ := hfresh i (ho.self_mem_visible i) hclean
      refine ⟨s, ?_, Looked.refl s i, hread⟩
      have hrefresh : refreshCount reset (getExpandedDescendentCount reset fuel) i s = (.ok (), s) := by
        rw [refreshCount, if_neg hdo]
      rw [bind_ok hrefresh, read_apply, hcount]

end JavaFX.TreeItems
