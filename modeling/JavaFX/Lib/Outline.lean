/-
Outlines: items that know their parent and their children, each showing what is below
it or not.

Nothing ties the two kinds of links together.  `Sound` says that they agree, in the
direction a reader needs (an item that is listed under another knows it), and that
nobody is above himself.  The items are finitely many, so every walk up or down ends;
`depth` and `height` bound it.  `visible i` is what somebody sees who looks at `i`.
-/
import Mathlib.Data.Fintype.Card
import Mathlib.Algebra.Order.BigOperators.Group.List

structure Outline (I : Type) where
  parent : I → Option I
  children : I → List I
  shown : I → Bool

namespace Outline

variable {I : Type}

/-! ### Up -/

/-- `a` is met on the way up from an item. -/
def Ancestor (parent : I → Option I) : I → I → Prop :=
  Relation.TransGen fun a i => parent i = some a

/-- Nobody is above himself. -/
def Rooted (parent : I → Option I) : Prop := ∀ i, ¬ Ancestor parent i i

/-- The items from `i` up to the top, for at most `n` of them. -/
def lineage (parent : I → Option I) : Nat → I → Option (List I)
  | 0, _ => none
  | n + 1, i =>
    match parent i with
    | none => some [i]
    | some p => (lineage parent n p).map (i :: ·)

section
variable {parent : I → Option I}

variable {i p a : I}

theorem ancestor_of_parent (h : parent i = some p) : Ancestor parent p i :=
  Relation.TransGen.single h

theorem Ancestor.below (h : Ancestor parent a p) (hi : parent i = some p) : Ancestor parent a i :=
  Relation.TransGen.tail h hi

theorem Ancestor.trans {b : I} (h : Ancestor parent a b) (hb : Ancestor parent b i) : Ancestor parent a i :=
  Relation.TransGen.trans h hb

/-- Who is above an item is its parent or above that. -/
theorem ancestor_iff : Ancestor parent a i ↔ ∃ p, parent i = some p ∧ (a = p ∨ Ancestor parent a p) := by
  constructor
  · intro h
    rcases Relation.TransGen.tail'_iff.mp h with ⟨p, hp, hi⟩
    refine ⟨p, hi, ?_⟩
    rcases Relation.reflTransGen_iff_eq_or_transGen.mp hp with heq | hap
    · exact .inl heq.symm
    · exact .inr hap
  · intro ⟨p, hi, hp⟩
    rcases hp with heq | hap
    · rw [heq]
      exact ancestor_of_parent hi
    · exact hap.below hi

theorem Rooted.ne_of_parent (h : Rooted parent) (hi : parent i = some p) : p ≠ i := by
  intro heq
  rw [heq] at hi
  exact h i (ancestor_of_parent hi)

theorem rooted_of_rank (rank : I → Nat) (h : ∀ i p, parent i = some p → rank p < rank i) : Rooted parent := by
  have hlt : ∀ a i, Ancestor parent a i → rank a < rank i := by
    intro a i ha
    induction ha with
    | single hi => exact h _ _ hi
    | tail _ hi ih => exact ih.trans (h _ _ hi)
  intro i hi
  exact absurd (hlt i i hi) (Nat.lt_irrefl _)

/-- Some items get another parent, all the same one, or none: nobody comes to be above
himself if the new parent is neither one of them nor below one. -/
theorem Rooted.relink {parent' : I → Option I} (h : Rooted parent)
    (hchanged : ∀ i, parent' i = parent i ∨ parent' i = none ∨
      parent' i = some p ∧ i ≠ p ∧ ¬ Ancestor parent i p) : Rooted parent' := by
  -- Above `p` nothing has been linked to `p`, so a way up from there is an old one.
  have hold : ∀ a i, Ancestor parent' a i → (i = p ∨ Ancestor parent i p) → Ancestor parent a i := by
    intro a i ha
    induction ha with
    | single hi =>
      rename_i i
      intro hip
      rcases hchanged i with heq | hnone | ⟨-, hne, hna⟩
      · exact ancestor_of_parent (heq ▸ hi)
      · rw [hnone] at hi
        simp at hi
      · exact absurd hip (by simp [hne, hna])
    | tail _ hi ih =>
      rename_i b i _
      intro hip
      rcases hchanged i with heq | hnone | ⟨-, hne, hna⟩
      · have hbi : parent i = some b := heq ▸ hi
        have hbp : Ancestor parent b p := by
          rcases hip with rfl | hip
          · exact ancestor_of_parent hbi
          · exact (ancestor_of_parent hbi).trans hip
        exact (ih (.inr hbp)).below hbi
      · rw [hnone] at hi
        simp at hi
      · exact absurd hip (by simp [hne, hna])
  -- A way up is an old one, or it goes through `p`.
  have hvia : ∀ a i, Ancestor parent' a i → Ancestor parent a i ∨ (a = p ∨ Ancestor parent a p) ∧
        ∃ j, (j ≠ p ∧ ¬ Ancestor parent j p) ∧ (j = i ∨ Ancestor parent j i) := by
    intro a i ha
    induction ha with
    | single hi =>
      rename_i i
      rcases hchanged i with heq | hnone | ⟨hp, hne, hna⟩
      · exact .inl (ancestor_of_parent (heq ▸ hi))
      · rw [hnone] at hi
        simp at hi
      · rw [hp, Option.some.injEq] at hi
        exact .inr ⟨.inl hi.symm, i, ⟨hne, hna⟩, .inl rfl⟩
    | tail hab hi ih =>
      rename_i b i
      rcases hchanged i with heq | hnone | ⟨hp, hne, hna⟩
      · have hbi : parent i = some b := heq ▸ hi
        rcases ih with hab | ⟨hap, j, hj, hjb⟩
        · exact .inl (hab.below hbi)
        · refine .inr ⟨hap, j, hj, .inr ?_⟩
          rcases hjb with rfl | hjb
          · exact ancestor_of_parent hbi
          · exact hjb.below hbi
      · rw [hnone] at hi
        simp at hi
      · rw [hp, Option.some.injEq] at hi
        subst hi
        exact .inr ⟨.inr (hold _ _ hab (.inl rfl)), i, ⟨hne, hna⟩, .inl rfl⟩
  intro i hi
  rcases hvia i i hi with hold | ⟨hip, j, ⟨hne, hna⟩, hji⟩
  · exact h i hold
  · rcases hji with rfl | hji
    · exact hip.elim hne hna
    · rcases hip with rfl | hip
      · exact hna hji
      · exact hna (hji.trans hip)

end

section
variable [Fintype I] {parent : I → Option I}

open Classical in
/-- The number of items above one. -/
noncomputable def depth (parent : I → Option I) (i : I) : Nat :=
  (Finset.univ.filter fun a => Ancestor parent a i).card

open Classical in
/-- The number of items below one. -/
noncomputable def height (parent : I → Option I) (i : I) : Nat :=
  (Finset.univ.filter fun j => Ancestor parent i j).card

open Classical in
theorem Rooted.depth_lt (h : Rooted parent) {i p : I} (hi : parent i = some p) : depth parent p < depth parent i := by
  refine Finset.card_lt_card (Finset.ssubset_iff_of_subset ?_ |>.mpr ⟨p, ?_, ?_⟩)
  · intro a ha
    simp only [Finset.mem_filter, Finset.mem_univ, true_and] at ha ⊢
    exact ha.below hi
  · simpa using ancestor_of_parent hi
  · simpa using h p

open Classical in
theorem Rooted.height_lt (h : Rooted parent) {i p : I} (hi : parent i = some p) :
    height parent i < height parent p := by
  refine Finset.card_lt_card (Finset.ssubset_iff_of_subset ?_ |>.mpr ⟨i, ?_, ?_⟩)
  · intro j hj
    simp only [Finset.mem_filter, Finset.mem_univ, true_and] at hj ⊢
    exact (ancestor_of_parent hi).trans hj
  · simpa using ancestor_of_parent hi
  · simpa using h i

open Classical in
theorem Rooted.depth_lt_card (h : Rooted parent) (i : I) : depth parent i < Fintype.card I := by
  refine Finset.card_lt_card (Finset.ssubset_iff_of_subset (by simp) |>.mpr ⟨i, by simp, ?_⟩)
  simpa using h i

open Classical in
theorem Rooted.height_lt_card (h : Rooted parent) (i : I) : height parent i < Fintype.card I := by
  refine Finset.card_lt_card (Finset.ssubset_iff_of_subset (by simp) |>.mpr ⟨i, by simp, ?_⟩)
  simpa using h i

/-- The way up ends, and it leads past everybody who is above. -/
theorem Rooted.lineage_eq_some (h : Rooted parent) : ∀ (n : Nat) (i : I), depth parent i < n →
    ∃ l, lineage parent n i = some l ∧ ∀ a, a ∈ l ↔ a = i ∨ Ancestor parent a i := by
  intro n
  induction n with
  | zero => intro i hn; omega
  | succ n ih =>
    intro i hn
    cases hp : parent i with
    | none =>
      have htop : ∀ a, ¬ Ancestor parent a i := by
        intro a ha
        obtain ⟨p, hip, -⟩ := ancestor_iff.mp ha
        rw [hp] at hip
        simp at hip
      exact ⟨[i], by simp [lineage, hp], fun a => by simp [htop a]⟩
    | some p =>
      obtain ⟨l, hl, hmem⟩ := ih p (by have := h.depth_lt hp; omega)
      refine ⟨i :: l, by simp [lineage, hp, hl], fun a => ?_⟩
      rw [List.mem_cons, hmem, ancestor_iff (i := i)]
      simp [hp]

end

/-! ### Down -/

/-- Who is listed under an item knows it as its parent, and nobody is above himself. -/
structure Sound (o : Outline I) : Prop where
  linked : ∀ p, ∀ c ∈ o.children p, o.parent c = some p
  rooted : Rooted o.parent

/-- An item and what is shown below it, each item before what is below it, for at most
`n` levels. -/
def rows (o : Outline I) : Nat → I → List I
  | 0, _ => []
  | n + 1, i => i :: if o.shown i then (o.children i).flatMap (rows o n) else []

theorem rows_succ (o : Outline I) (n : Nat) (i : I) :
    o.rows (n + 1) i = i :: if o.shown i then (o.children i).flatMap (o.rows n) else [] := rfl

theorem mem_rows {o : Outline I} (ho : o.Sound) : ∀ (n : Nat) {i j : I}, j ∈ o.rows n i →
    j = i ∨ Ancestor o.parent i j := by
  intro n
  induction n with
  | zero => intro i j h; simp [rows] at h
  | succ n ih =>
    intro i j h
    rw [rows_succ, List.mem_cons] at h
    rcases h with rfl | h
    · exact .inl rfl
    · split at h
      · rw [List.mem_flatMap] at h
        obtain ⟨c, hc, hj⟩ := h
        have hci := ancestor_of_parent (ho.linked i c hc)
        rcases ih hj with rfl | hj
        · exact .inr hci
        · exact .inr (hci.trans hj)
      · simp at h

theorem rows_congr {o o' : Outline I} : ∀ (n : Nat) (i : I),
    (∀ j ∈ o.rows n i, o'.children j = o.children j ∧ o'.shown j = o.shown j) →
    o'.rows n i = o.rows n i := by
  intro n
  induction n with
  | zero => intro i _; rfl
  | succ n ih =>
    intro i h
    obtain ⟨hchildren, hshown⟩ := h i (by simp [rows_succ])
    rw [rows_succ, rows_succ, hchildren, hshown]
    by_cases hs : o.shown i = true
    · rw [if_pos hs, if_pos hs]
      refine congrArg _ (List.flatMap_congr fun c hc => ih c fun j hj => h j ?_)
      rw [rows_succ, if_pos hs]
      exact List.mem_cons_of_mem _ (List.mem_flatMap.mpr ⟨c, hc, hj⟩)
    · rw [if_neg hs, if_neg hs]

section
variable [Fintype I] {o o' : Outline I}

/-- An item and what is shown below it. -/
def visible (o : Outline I) (i : I) : List I := o.rows (Fintype.card I) i

theorem Sound.rows_eq (ho : o.Sound) : ∀ (n m : Nat) (i : I), height o.parent i < n →
    height o.parent i < m → o.rows n i = o.rows m i := by
  intro n
  induction n with
  | zero => intro m i hn; omega
  | succ n ih =>
    intro m i hn hm
    obtain ⟨m, rfl⟩ : ∃ k, m = k + 1 := ⟨m - 1, by omega⟩
    rw [rows_succ, rows_succ]
    have hbelow : (o.children i).flatMap (o.rows n) = (o.children i).flatMap (o.rows m) := by
      refine List.flatMap_congr fun c hc => ?_
      have hlt := ho.rooted.height_lt (ho.linked i c hc)
      exact ih m c (by omega) (by omega)
    rw [hbelow]

theorem Sound.visible_eq (ho : o.Sound) (i : I) :
    o.visible i = i :: if o.shown i then (o.children i).flatMap o.visible else [] := by
  have hcard := ho.rooted.height_lt_card i
  obtain ⟨n, hn⟩ : ∃ n, Fintype.card I = n + 1 := ⟨Fintype.card I - 1, by omega⟩
  have hbelow : (o.children i).flatMap (o.rows n) = (o.children i).flatMap o.visible := by
    refine List.flatMap_congr fun c hc => ?_
    have hlt := ho.rooted.height_lt (ho.linked i c hc)
    exact ho.rows_eq n _ c (by omega) (by omega)
  rw [visible, hn, rows_succ, hbelow]

variable {i root : I}

theorem Sound.mem_visible (ho : o.Sound) {j : I} (h : j ∈ o.visible i) : j = i ∨ Ancestor o.parent i j :=
  mem_rows ho _ h

theorem Sound.self_mem_visible (ho : o.Sound) (i : I) : i ∈ o.visible i := by
  rw [ho.visible_eq]
  simp

/-- Nobody is shown below his children. -/
theorem Sound.not_mem_visible (ho : o.Sound) {c : I} (hc : c ∈ o.children i) : i ∉ o.visible c := by
  intro h
  have hci := ho.linked i c hc
  rcases ho.mem_visible h with heq | ha
  · exact ho.rooted.ne_of_parent hci heq
  · exact ho.rooted c (ha.below hci)

theorem visible_congr (i : I) (h : ∀ j ∈ o.visible i, o'.children j = o.children j ∧ o'.shown j = o.shown j) :
    o'.visible i = o.visible i :=
  rows_congr _ i h

/-! ### Places

The place of an item among what is shown below another, found from above: the one who looks
has place 0, and a child comes behind its parent and behind what its elder siblings show. -/

/-- Below `root`, `i` is shown at place `k`. -/
inductive At (o : Outline I) (root : I) : Nat → I → Prop
  | root : At o root 0 root
  | child {k : Nat} {p c : I} {before after : List I} (hp : At o root k p)
      (hshown : o.shown p = true) (hc : o.children p = before ++ c :: after) :
      At o root (k + 1 + (before.flatMap o.visible).length) c

theorem getElem?_flatMap {α β : Type} (f : α → List β) : ∀ (l : List α) (k : Nat)
    {b : β}, (l.flatMap f)[k]? = some b →
    ∃ before a after k', l = before ++ a :: after ∧ k = (before.flatMap f).length + k' ∧ (f a)[k']? = some b := by
  intro l
  induction l with
  | nil => intro k b h; simp at h
  | cons a l ih =>
    intro k b h
    rw [List.flatMap_cons] at h
    by_cases hk : k < (f a).length
    · rw [List.getElem?_append_left hk] at h
      exact ⟨[], a, l, k, rfl, by simp, h⟩
    · rw [List.getElem?_append_right (by omega)] at h
      obtain ⟨before, a', after, k', hl, hk', hb⟩ := ih _ h
      refine ⟨a :: before, a', after, k', by rw [hl]; rfl, ?_, hb⟩
      rw [List.flatMap_cons, List.length_append]
      omega

theorem Sound.at_below (ho : o.Sound) : ∀ (n : Nat) {j i : I} {m k : Nat},
    height o.parent j < n → At o root m j → (o.visible j)[k]? = some i → At o root (m + k) i := by
  intro n
  induction n with
  | zero => intro j i m k hn; omega
  | succ n ih =>
    intro j i m k hn hj hk
    rw [ho.visible_eq] at hk
    cases k with
    | zero =>
      rw [List.getElem?_cons_zero, Option.some.injEq] at hk
      rw [← hk]
      exact hj
    | succ k =>
      rw [List.getElem?_cons_succ] at hk
      by_cases hs : o.shown j = true
      · rw [if_pos hs] at hk
        obtain ⟨before, c, after, k', hc, hkk, hi⟩ := getElem?_flatMap _ _ _ hk
        have hlt := ho.rooted.height_lt (ho.linked j c (by rw [hc]; simp))
        have := ih (by omega) (hj.child hs hc) hi
        rwa [show m + 1 + (before.flatMap o.visible).length + k' = m + (k + 1) by omega] at this
      · rw [if_neg hs] at hk
        simp at hk

theorem Sound.at_iff (ho : o.Sound) {k : Nat} : At o root k i ↔ (o.visible root)[k]? = some i := by
  constructor
  · -- The rows of an item that is shown are a stretch of the rows of the one who looks.
    suffices hsplit : At o root k i → ∃ pre post, o.visible root = pre ++ o.visible i ++ post ∧ pre.length = k by
      intro h
      obtain ⟨pre, post, heq, rfl⟩ := hsplit h
      rw [heq, ho.visible_eq i, List.append_assoc, List.getElem?_append_right (Nat.le_refl _)]
      simp
    intro h
    induction h with
    | root => exact ⟨[], [], by simp, rfl⟩
    | @child k p c before after _ hs hc ih =>
      obtain ⟨pre, post, heq, rfl⟩ := ih
      refine ⟨pre ++ p :: before.flatMap o.visible, after.flatMap o.visible ++ post, ?_, ?_⟩
      · rw [heq, ho.visible_eq p, if_pos hs, hc]
        simp
      · simp [Nat.add_assoc, Nat.add_comm]
  · intro h
    have := ho.at_below (height o.parent root + 1) (by omega) At.root h
    rwa [Nat.zero_add] at this

theorem Sound.mem_visible_iff (ho : o.Sound) : i ∈ o.visible root ↔ ∃ k, At o root k i := by
  simp only [ho.at_iff]
  exact List.mem_iff_getElem?

theorem At.ancestor (ho : o.Sound) {k : Nat} (h : At o root k i) : i = root ∨ Ancestor o.parent root i :=
  ho.mem_visible (ho.mem_visible_iff.mpr ⟨k, h⟩)

end

end Outline
