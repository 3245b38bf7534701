/-
The box around the children.

Between queries the box is right about the children that are not marked: they are inside, and a
remembered node that is not marked still reaches its edge.  Everything that happens to a child marks
it, or forgets it, so this stays true; a query that has heard of every marked child can therefore
trust the box where an edge is known, and computes it anew where not.
-/
import JavaFX.Scene.ParentBounds
import JavaFX.Proofs.Scene.ChildrenList
import Mathlib.Data.List.TakeWhile
import Mathlib.Tactic.Linarith

namespace JavaFX.ParentBounds

open List

variable {N : Type} [DecidableEq N]

/-! ### Boxes -/

namespace Edge

variable {e : Edge} {a b c : ℚ}

theorem reaches_refl (e : Edge) (a : ℚ) : e.reaches a a := by
  unfold reaches
  split
  · exact le_refl a
  · exact le_refl a

theorem reaches_trans (hab : e.reaches a b) (hbc : e.reaches b c) : e.reaches a c := by
  unfold reaches at *
  split at hab
  · rw [if_pos ‹_›] at hbc ⊢
    exact hab.trans hbc
  · rw [if_neg ‹_›] at hbc ⊢
    exact hbc.trans hab

theorem not_exceeds : ¬ e.exceeds a b ↔ e.reaches b a := by
  unfold exceeds reaches
  split
  · exact not_lt
  · exact not_lt

theorem reaches_of_exceeds (h : e.exceeds a b) : e.reaches a b := by
  unfold exceeds at h
  unfold reaches
  split at h
  · rw [if_pos ‹_›]
    exact h.le
  · rw [if_neg ‹_›]
    exact h.le

theorem reaches_of_not_reaches (h : ¬ e.reaches a b) : e.reaches b a := by
  unfold reaches at *
  split at h
  · rw [if_pos ‹_›]
    exact (lt_of_not_ge h).le
  · rw [if_neg ‹_›]
    exact (lt_of_not_ge h).le

end Edge

theorem isEmpty_of_reaches {a b : BaseBounds} (hb : b.isEmpty = false) (h : ∀ e : Edge, e.reaches (a e) (b e)) :
    a.isEmpty = false := by
  simp only [BaseBounds.isEmpty, Bool.or_eq_false_iff, decide_eq_false_iff_not, not_lt] at hb ⊢
  have hl : a .left ≤ b .left := h .left
  have ht : a .top ≤ b .top := h .top
  have hn : a .near ≤ b .near := h .near
  have hr : b .right ≤ a .right := h .right
  have hbo : b .bottom ≤ a .bottom := h .bottom
  have hf : b .far ≤ a .far := h .far
  exact ⟨⟨by linarith, by linarith⟩, by linarith⟩

theorem isEmpty_empty : BaseBounds.isEmpty BaseBounds.empty = true := by
  decide

namespace Parent

variable {s : Parent N}

/-! ### Marks -/

variable {node n : N} {s' : Parent N} {present : Finset N} {visible attached : N → Bool} {seen : N → Prop}
  {box : BaseBounds} {edge : Edge → Option N} {nodes : List N} {check : N → Except JavaException Unit}

theorem setChildDirty_same {dirty : Bool} (h : s.boundsChanged node = dirty) : s.setChildDirty node dirty = s := by
  rw [setChildDirty, if_pos h]

theorem setChildDirty_mark (h : s.boundsChanged node = false) : s.setChildDirty node true = { s with
      boundsChanged := Function.update s.boundsChanged node true
      dirtyChildren := s.dirtyChildren.map (· ++ [node])
      dirtyChildrenCount := s.dirtyChildrenCount + 1 } := by
  rw [setChildDirty, if_neg (by simp [h])]
  rfl

theorem setChildDirty_unmark (h : s.boundsChanged node = true) : s.setChildDirty node false = { s with
      boundsChanged := Function.update s.boundsChanged node false
      dirtyChildren := s.dirtyChildren.map fun l => l.erase node
      dirtyChildrenCount := s.dirtyChildrenCount - 1 } := by
  rw [setChildDirty, if_neg (by simp [h])]
  rfl

/-- What is known of the box and the marks between queries. -/
structure Core (present : Finset N) (s : Parent N) : Prop where
  attached : ∀ n, s.attached n = true ↔ n ∈ present
  /-- Only visible children are marked. -/
  marked : ∀ n, s.boundsChanged n = true → n ∈ present ∧ s.visible n = true
  count : s.dirtyChildrenCount = (present.filter fun n => s.boundsChanged n = true).card
  dirtyChildren : ∀ l, s.dirtyChildren = some l → l.Nodup ∧ ∀ n, n ∈ l ↔ s.boundsChanged n = true
  invalid : ∀ n, s.boundsChanged n = true → s.cachedBoundsInvalid = true
  edgeNode : ∀ e n, s.edge e = some n → n ∈ present ∧ s.visible n = true
  /-- Children that are not marked are inside the box. -/
  inside : ∀ n ∈ present, s.counts n = true → s.boundsChanged n = false →
    s.cachedBounds.isEmpty = false ∧ ∀ e : Edge, e.reaches (s.cachedBounds e) (s.bounds n e)
  /-- Nodes that are not marked still reach their edges. -/
  attained : s.cachedBounds.isEmpty = false → ∀ e n, s.edge e = some n → s.boundsChanged n = false →
    s.counts n = true ∧ s.bounds n e = s.cachedBounds e
  /-- A valid box has a node for every edge. -/
  valid : s.cachedBoundsInvalid = false → s.cachedBounds.isEmpty = true ∨ ∀ e, ∃ n, s.edge e = some n

theorem counts_congr {s : Parent N} (hvisible : s'.visible n = s.visible n) (hbounds : s'.bounds n = s.bounds n) :
    s'.counts n = s.counts n := by
  rw [counts, counts, hvisible, hbounds]

variable {bounds : N → BaseBounds} {present' : Finset N} {seen' : N → Prop} {start : BaseBounds} {u : Update N}
  {list : Children N}

/-- **A node is marked.**  It may be a new child, or one that was hidden; its bounds may be others. -/
theorem Core.mark (h : Core present s) (hvisible : ∀ m, m ≠ n → visible m = s.visible m) (hshown : visible n = true)
    (hbounds : ∀ m, m ≠ n → bounds m = s.bounds m) (hattached : ∀ m, attached m = true ↔ m ∈ insert n present) :
    Core (insert n present)
      (setChildDirty n true { s with visible, bounds, attached, cachedBoundsInvalid := true }) := by
  have hcounts : ∀ m, m ≠ n → ({ s with visible, bounds, attached, cachedBoundsInvalid := true } : Parent N).counts m
      = s.counts m := fun m hm => counts_congr (hvisible m hm) (hbounds m hm)
  have hedge : ∀ e m, s.edge e = some m → m ∈ insert n present ∧ visible m = true := by
    intro e m hm
    obtain ⟨hmem, hvis⟩ := h.edgeNode e m hm
    refine ⟨Finset.mem_insert_of_mem hmem, ?_⟩
    by_cases hmn : m = n
    · rwa [hmn]
    · rwa [hvisible m hmn]
  by_cases hmarked : s.boundsChanged n = true
  · -- the node has its mark already
    rw [setChildDirty_same (by exact hmarked)]
    have hmem := (h.marked n hmarked).1
    rw [Finset.insert_eq_of_mem hmem] at hattached hedge ⊢
    have hne : ∀ m, s.boundsChanged m = false → m ≠ n := by
      rintro m hm rfl
      rw [hmarked] at hm
      cases hm
    refine ⟨hattached, fun m hm => ⟨(h.marked m hm).1, ?_⟩, h.count, h.dirtyChildren, fun _ _ => rfl, hedge, ?_, ?_,
      fun hvalid => by cases hvalid⟩
    · by_cases hmn : m = n
      · rwa [hmn]
      · exact (hvisible m hmn).trans (h.marked m hm).2
    · intro m hm hcount hunmarked
      have hmn := hne m hunmarked
      obtain ⟨hnonempty, hin⟩ := h.inside m hm ((hcounts m hmn).symm.trans hcount) hunmarked
      exact ⟨hnonempty, fun e => by
        show e.reaches (s.cachedBounds e) (bounds m e)
        rw [hbounds m hmn]
        exact hin e⟩
    · intro hnonempty e m hm hunmarked
      have hmn := hne m hunmarked
      obtain ⟨hcount, heq⟩ := h.attained hnonempty e m hm hunmarked
      exact ⟨(hcounts m hmn).trans hcount, (congrFun (hbounds m hmn) e).trans heq⟩
  · rw [Bool.not_eq_true] at hmarked
    rw [setChildDirty_mark (by exact hmarked)]
    have hupdate : ∀ m, m ≠ n → Function.update s.boundsChanged n true m = s.boundsChanged m :=
      fun m hm => Function.update_of_ne hm _ _
    have hne : ∀ m, Function.update s.boundsChanged n true m = false → m ≠ n := by
      rintro m hm rfl
      rw [Function.update_self] at hm
      cases hm
    refine ⟨hattached, ?_, ?_, ?_, fun _ _ => rfl, hedge, ?_, ?_, fun hvalid => by cases hvalid⟩
    · intro m hm
      by_cases hmn : m = n
      · rw [hmn]
        exact ⟨Finset.mem_insert_self _ _, hshown⟩
      · obtain ⟨hmem, hvis⟩ := h.marked m ((hupdate m hmn).symm.trans hm)
        exact ⟨Finset.mem_insert_of_mem hmem, (hvisible m hmn).trans hvis⟩
    · have hfilter : (insert n present).filter (fun m => Function.update s.boundsChanged n true m = true)
          = insert n (present.filter fun m => s.boundsChanged m = true) := by
        ext m
        by_cases hmn : m = n
        · simp [hmn]
        · simp [hmn]
      rw [hfilter, Finset.card_insert_of_notMem (by simp [hmarked]), h.count]
      push_cast
      rfl
    · intro l hl
      obtain ⟨l', hl', rfl⟩ := Option.map_eq_some_iff.mp hl
      obtain ⟨hnodup, hmem⟩ := h.dirtyChildren l' hl'
      have hnot : n ∉ l' := by
        rw [hmem, hmarked]
        exact Bool.false_ne_true
      refine ⟨List.nodup_append.mpr ⟨hnodup, nodup_singleton n, ?_⟩, fun m => ?_⟩
      · rintro a ha b hb rfl
        rw [List.mem_singleton] at hb
        exact hnot (hb ▸ ha)
      · rw [List.mem_append, List.mem_singleton, hmem]
        by_cases hmn : m = n
        · simp [hmn]
        · simp [hmn]
    · intro m hm hcount hunmarked
      have hmn := hne m hunmarked
      obtain ⟨hnonempty, hin⟩ := h.inside m (Finset.mem_of_mem_insert_of_ne hm hmn) ((hcounts m hmn).symm.trans hcount)
        ((hupdate m hmn).symm.trans hunmarked)
      exact ⟨hnonempty, fun e => by
        show e.reaches (s.cachedBounds e) (bounds m e)
        rw [hbounds m hmn]
        exact hin e⟩
    · intro hnonempty e m hm hunmarked
      have hmn := hne m hunmarked
      obtain ⟨hcount, heq⟩ := h.attained hnonempty e m hm ((hupdate m hmn).symm.trans hunmarked)
      exact ⟨(hcounts m hmn).trans hcount, (congrFun (hbounds m hmn) e).trans heq⟩

theorem setChildDirty_clear (h : ∀ l, s.dirtyChildren = some l → s.boundsChanged node = false → node ∉ l) :
    s.setChildDirty node false = { s with
      boundsChanged := Function.update s.boundsChanged node false
      dirtyChildren := s.dirtyChildren.map fun l => l.erase node
      dirtyChildrenCount := s.dirtyChildrenCount - if s.boundsChanged node then 1 else 0 } := by
  by_cases hmarked : s.boundsChanged node = true
  · rw [setChildDirty_unmark hmarked, if_pos hmarked]
  · rw [Bool.not_eq_true] at hmarked
    have hlist : s.dirtyChildren.map (fun l => l.erase node) = s.dirtyChildren := by
      cases hd : s.dirtyChildren with
      | none => rfl
      | some l => rw [Option.map_some, erase_of_not_mem (h l hd hmarked)]
    have hupdate : Function.update s.boundsChanged node false = s.boundsChanged :=
      Function.update_eq_self_iff.mpr hmarked.symm
    rw [setChildDirty_same hmarked, hmarked, hlist, hupdate, if_neg Bool.false_ne_true, sub_zero]

/-- **A node is forgotten.**  It is not a child any more, or it is hidden. -/
theorem Core.unmark (h : Core present s)
    (hvisible : ∀ m, m ≠ n → visible m = s.visible m) (hattached : ∀ m, attached m = true ↔ m ∈ present')
    (hkept : ∀ m, m ≠ n → (m ∈ present' ↔ m ∈ present)) (hgone : n ∈ present' → visible n = false) :
    Core present' (childExcluded n { s with visible, attached }) := by
  have hcounts : ∀ m, m ≠ n → ({ s with visible, attached } : Parent N).counts m = s.counts m :=
    fun m hm => counts_congr (hvisible m hm) rfl
  rw [childExcluded, setChildDirty_clear ?hlist]
  case hlist =>
    intro l hl hmarked
    rw [(h.dirtyChildren l hl).2]
    exact Bool.eq_false_iff.mp hmarked
  have hmark : ∀ m, Function.update s.boundsChanged n false m = true → m ≠ n ∧ s.boundsChanged m = true := by
    intro m hm
    by_cases hmn : m = n
    · rw [hmn, Function.update_self] at hm
      cases hm
    · rw [Function.update_of_ne hmn] at hm
      exact ⟨hmn, hm⟩
  have hedge : ∀ e m, (if s.edge e = some n then none else s.edge e) = some m → m ≠ n ∧ s.edge e = some m := by
    intro e m hm
    split at hm
    · cases hm
    · next hne =>
        refine ⟨?_, hm⟩
        rintro rfl
        exact hne hm
  refine ⟨hattached, ?_, ?_, ?_, ?_, ?_, ?_, ?_, ?_⟩
  · intro m hm
    obtain ⟨hmn, hm⟩ := hmark m hm
    obtain ⟨hmem, hvis⟩ := h.marked m hm
    exact ⟨(hkept m hmn).mpr hmem, (hvisible m hmn).trans hvis⟩
  · have hfilter : (present'.filter fun m => Function.update s.boundsChanged n false m = true)
        = (present.filter fun m => s.boundsChanged m = true).erase n := by
      ext m
      by_cases hmn : m = n
      · simp [hmn]
      · simp [hmn, hkept m hmn]
    show s.dirtyChildrenCount - (if s.boundsChanged n then 1 else 0) = _
    rw [hfilter, h.count]
    by_cases hmarked : s.boundsChanged n = true
    · have hmem : n ∈ present.filter fun m => s.boundsChanged m = true :=
        Finset.mem_filter.mpr ⟨(h.marked n hmarked).1, hmarked⟩
      have hpos := Finset.card_pos.mpr ⟨n, hmem⟩
      rw [Finset.card_erase_of_mem hmem, if_pos hmarked]
      omega
    · rw [Finset.erase_eq_of_notMem (by simp [hmarked]), if_neg hmarked, sub_zero]
  · intro l hl
    obtain ⟨l', hl', rfl⟩ := Option.map_eq_some_iff.mp hl
    obtain ⟨hnodup, hmem⟩ := h.dirtyChildren l' hl'
    refine ⟨hnodup.erase n, fun m => ?_⟩
    rw [hnodup.mem_erase_iff, hmem]
    constructor
    · rintro ⟨hmn, hm⟩
      exact (Function.update_of_ne hmn _ _).trans hm
    · exact hmark m
  · intro m hm
    show (s.cachedBoundsInvalid || _) = true
    rw [h.invalid m (hmark m hm).2, Bool.true_or]
  · intro e m hm
    obtain ⟨hmn, hm⟩ := hedge e m hm
    obtain ⟨hmem, hvis⟩ := h.edgeNode e m hm
    exact ⟨(hkept m hmn).mpr hmem, (hvisible m hmn).trans hvis⟩
  · intro m hm hcount hunmarked
    have hmn : m ≠ n := by
      rintro rfl
      have hvis : visible m = true := (Bool.and_eq_true_iff.mp hcount).1
      rw [hgone hm] at hvis
      cases hvis
    exact h.inside m ((hkept m hmn).mp hm) ((hcounts m hmn).symm.trans hcount)
      ((Function.update_of_ne hmn _ _).symm.trans hunmarked)
  · intro hnonempty e m hm hunmarked
    obtain ⟨hmn, hm⟩ := hedge e m hm
    obtain ⟨hcount, heq⟩ := h.attained hnonempty e m hm ((Function.update_of_ne hmn _ _).symm.trans hunmarked)
    exact ⟨(hcounts m hmn).trans hcount, heq⟩
  · intro hvalid
    replace hvalid : (s.cachedBoundsInvalid ||
        [Edge.left, .top, .near, .right, .bottom, .far].any fun e => s.edge e = some n) = false := hvalid
    rw [Bool.or_eq_false_iff, any_eq_false] at hvalid
    have hother : ∀ e, s.edge e ≠ some n := fun e => by
      have := hvalid.2 e (by cases e <;> decide)
      simpa using this
    refine (h.valid hvalid.1).imp_right fun hall e => ?_
    obtain ⟨m, hm⟩ := hall e
    exact ⟨m, (if_neg (hother e)).trans hm⟩

/-- A hidden node becomes a child, or no child any more: nobody notices. -/
theorem Core.hidden (h : Core present s)
    (hhidden : s.visible n = false) (hattached : ∀ m, attached m = true ↔ m ∈ present')
    (hkept : ∀ m, m ≠ n → (m ∈ present' ↔ m ∈ present)) : Core present' { s with attached } := by
  have hne : ∀ m, s.visible m = true → m ≠ n := by
    rintro m hm rfl
    rw [hhidden] at hm
    cases hm
  refine ⟨hattached, ?_, ?_, h.dirtyChildren, h.invalid, ?_, ?_, h.attained, h.valid⟩
  · intro m hm
    obtain ⟨hmem, hvis⟩ := h.marked m hm
    exact ⟨(hkept m (hne m hvis)).mpr hmem, hvis⟩
  · have hfilter : (present'.filter fun m => s.boundsChanged m = true)
        = present.filter fun m => s.boundsChanged m = true := by
      ext m
      rw [Finset.mem_filter, Finset.mem_filter]
      refine and_congr_left fun hm => hkept m (hne m (h.marked m hm).2)
    rw [hfilter]
    exact h.count
  · intro e m hm
    obtain ⟨hmem, hvis⟩ := h.edgeNode e m hm
    exact ⟨(hkept m (hne m hvis)).mpr hmem, hvis⟩
  · intro m hm hcount hunmarked
    have hvis : s.visible m = true := (Bool.and_eq_true_iff.mp hcount).1
    exact h.inside m ((hkept m (hne m hvis)).mp hm) hcount hunmarked

/-! ### The box -/

/-- A box around the nodes that count, each edge with a node that reaches it. -/
structure Attains (s : Parent N) (seen : N → Prop) (box : BaseBounds) (edge : Edge → Option N) : Prop where
  inside : ∀ m, seen m → s.counts m = true → ∀ e : Edge, e.reaches (box e) (s.bounds m e)
  attained : ∀ e, ∃ m, edge e = some m ∧ seen m ∧ s.counts m = true ∧ s.bounds m e = box e

/-- A box for some nodes: they are inside, or none of them counts and it is empty. -/
def Fits (s : Parent N) (seen : N → Prop) (box : BaseBounds) (edge : Edge → Option N) : Prop :=
  ((∀ m, seen m → s.counts m = false) ∧ box.isEmpty = true ∧
    ∀ e m, edge e = some m → seen m ∧ s.visible m = true) ∨ Attains s seen box edge

theorem not_isEmpty_of_counts (h : s.counts n = true) : (s.bounds n).isEmpty = false := by
  rw [counts, Bool.and_eq_true, Bool.not_eq_true'] at h
  exact h.2

theorem visible_of_counts (h : s.counts n = true) : s.visible n = true := by
  rw [counts, Bool.and_eq_true] at h
  exact h.1

theorem Attains.isEmpty (h : Attains s seen box edge) : box.isEmpty = false := by
  obtain ⟨m, -, hm, hcount, -⟩ := h.attained .left
  exact isEmpty_of_reaches (not_isEmpty_of_counts hcount) (h.inside m hm hcount)

/-- Nodes that do not count may be among the seen ones. -/
theorem Attains.weaken (h : Attains s seen box edge)
    (hsub : ∀ m, seen m → seen' m) (hall : ∀ m, seen' m → s.counts m = true → seen m) : Attains s seen' box edge where
  inside m hm hcount := h.inside m (hall m hm hcount) hcount
  attained e := by
    obtain ⟨m, hedge, hm, hcount⟩ := h.attained e
    exact ⟨m, hedge, hsub m hm, hcount⟩

theorem Fits.weaken (h : Fits s seen box edge)
    (hsub : ∀ m, seen m → seen' m) (hall : ∀ m, seen' m → s.counts m = true → seen m) : Fits s seen' box edge := by
  rcases h with ⟨hnone, hempty, hedge⟩ | h
  · refine .inl ⟨fun m hm => ?_, hempty, fun e m hm => ?_⟩
    · by_contra hcount
      rw [Bool.not_eq_false] at hcount
      rw [hnone m (hall m hm hcount)] at hcount
      cases hcount
    · obtain ⟨hm, hvis⟩ := hedge e m hm
      exact ⟨hsub m hm, hvis⟩
  · exact .inr (h.weaken hsub hall)

theorem Attains.extend {box : BaseBounds × (Edge → Option N)} (h : Attains s seen box.1 box.2) (n : N) :
    Attains s (fun m => seen m ∨ m = n) (s.extend box n).1 (s.extend box n).2 := by
  unfold Parent.extend
  by_cases hcount : s.counts n = true
  · simp only [if_pos hcount]
    refine ⟨fun m hm hm' e => ?_, fun e => ?_⟩
    · rcases hm with hm | rfl
      · split
        · next hexceeds => exact Edge.reaches_trans (Edge.reaches_of_exceeds hexceeds) (h.inside m hm hm' e)
        · exact h.inside m hm hm' e
      · split
        · exact Edge.reaches_refl e _
        · next hexceeds => exact Edge.not_exceeds.mp hexceeds
    · split
      · exact ⟨n, rfl, .inr rfl, hcount, rfl⟩
      · obtain ⟨m, hedge, hm, hm'⟩ := h.attained e
        exact ⟨m, hedge, .inl hm, hm'⟩
  · rw [if_neg hcount]
    refine h.weaken (fun m hm => .inl hm) ?_
    rintro m (hm | rfl) hm'
    · exact hm
    · exact absurd hm' hcount

theorem Attains.foldl (nodes : List N) (box : BaseBounds × (Edge → Option N)) (h : Attains s seen box.1 box.2) :
    Attains s (fun m => seen m ∨ m ∈ nodes) (nodes.foldl s.extend box).1 (nodes.foldl s.extend box).2 := by
  induction nodes generalizing seen box with
  | nil => exact h.weaken (fun m hm => .inl hm) fun m hm _ => hm.resolve_right not_mem_nil
  | cons n nodes ih =>
    refine (ih _ (h.extend n)).weaken ?_ ?_
    · rintro m ((hm | rfl) | hm)
      · exact .inl hm
      · exact .inr mem_cons_self
      · exact .inr (mem_cons_of_mem _ hm)
    · rintro m (hm | hm) -
      · exact .inl (.inl hm)
      · rcases List.mem_cons.mp hm with rfl | hm
        · exact .inl (.inr rfl)
        · exact .inr hm

/-- **The box computed anew** fits its nodes, which have no marks afterwards. -/
theorem createCachedBounds_fits (nodes : List N) (s : Parent N) : ∃ box edge, s.createCachedBounds nodes = { s with
      boundsChanged := fun n => if n ∈ nodes then false else s.boundsChanged n
      cachedBounds := box
      edge } ∧ Fits s (· ∈ nodes) box edge := by
  have hskip : ({ s with boundsChanged := fun n => if n ∈ nodes then false else s.boundsChanged n } : Parent N).counts
      = s.counts := rfl
  unfold createCachedBounds
  simp only [hskip]
  split
  · next hnone =>
      rw [dropWhile_eq_nil_iff] at hnone
      exact ⟨_, _, rfl, .inl ⟨fun m hm => by simpa using hnone m hm, isEmpty_empty, fun e m hm => by cases hm⟩⟩
  · next node rest hdrop =>
      have hcount : s.counts node = true := by
        have := head?_dropWhile_not (fun n => !s.counts n) nodes
        rw [hdrop] at this
        simpa using this
      have hcut := takeWhile_append_dropWhile (p := fun n => !s.counts n) (l := nodes)
      rw [hdrop] at hcut
      have hfirst : Attains s (· = node) (s.bounds node) fun _ => some node := by
        refine ⟨?_, fun e => ⟨node, rfl, rfl, hcount, rfl⟩⟩
        rintro m rfl - e
        exact Edge.reaches_refl e _
      refine ⟨_, _, rfl, .inr ?_⟩
      refine (Attains.foldl rest (s.bounds node, fun _ => some node) hfirst).weaken ?_ ?_
      · rintro m (rfl | hm)
        · rw [← hcut]
          exact mem_append_right _ mem_cons_self
        · rw [← hcut]
          exact mem_append_right _ (mem_cons_of_mem _ hm)
      · intro m hm hm'
        rw [← hcut, List.mem_append] at hm
        rcases hm with hm | hm
        · have := mem_takeWhile_imp hm
          rw [hm'] at this
          cases this
        · exact List.mem_cons.mp hm

/-! ### The loop over the marked nodes -/

/-- What the loop knows.  `start` is the box it began with. -/
structure Progress (s : Parent N) (present : Finset N) (start : BaseBounds) (u : Update N) : Prop where
  marked : ∀ m, u.boundsChanged m = true → m ∈ present ∧ s.visible m = true
  /-- The nodes without marks are inside. -/
  inside : ∀ m ∈ present, s.counts m = true → u.boundsChanged m = false → ∀ e : Edge, e.reaches (u.box e) (s.bounds m e)
  /-- A node of an edge that is not invalid reaches it. -/
  attained : ∀ e, u.invalidEdges e = false →
    ∃ m, u.edge e = some m ∧ m ∈ present ∧ s.counts m = true ∧ s.bounds m e = u.box e
  grows : ∀ e : Edge, e.reaches (u.box e) (start e)

theorem Progress.reach (h : Progress s present start u)
    (hn : u.boundsChanged n = true) : Progress s present start (s.reach u n) := by
  obtain ⟨hmem, hvis⟩ := h.marked n hn
  have hmark : ∀ m, Function.update u.boundsChanged n false m = true → u.boundsChanged m = true := by
    intro m hm
    by_cases hmn : m = n
    · rwa [hmn]
    · rwa [Function.update_of_ne hmn] at hm
  have hclear : ∀ m, m ≠ n → Function.update u.boundsChanged n false m = false → u.boundsChanged m = false := by
    intro m hmn hm
    rwa [Function.update_of_ne hmn] at hm
  unfold Parent.reach
  by_cases hempty : (s.bounds n).isEmpty = true
  · simp only [if_pos hempty]
    refine ⟨fun m hm => h.marked m (hmark m hm), fun m hm hcount hm' => ?_, h.attained, h.grows⟩
    refine h.inside m hm hcount (hclear m ?_ hm')
    rintro rfl
    rw [not_isEmpty_of_counts hcount] at hempty
    cases hempty
  · simp only [if_neg hempty]
    rw [Bool.not_eq_true] at hempty
    have hcount : s.counts n = true := by rw [counts, hvis, hempty]; rfl
    have hbox : ∀ e : Edge, e.reaches (if e.reaches (s.bounds n e) (u.box e) then s.bounds n e else u.box e) (u.box e) := by
      intro e
      split
      · assumption
      · exact Edge.reaches_refl e _
    refine ⟨fun m hm => h.marked m (hmark m hm), fun m hm hcount' hm' e => ?_, fun e hvalid => ?_, fun e => ?_⟩
    · by_cases hmn : m = n
      · subst hmn
        show e.reaches (if e.reaches (s.bounds m e) (u.box e) then s.bounds m e else u.box e) (s.bounds m e)
        split
        · exact Edge.reaches_refl e _
        · exact Edge.reaches_of_not_reaches ‹_›
      · exact Edge.reaches_trans (hbox e) (h.inside m hm hcount' (hclear m hmn hm') e)
    · replace hvalid : (if e.reaches (s.bounds n e) (u.box e) then false else u.invalidEdges e) = false := hvalid
      show ∃ m, (if e.reaches (s.bounds n e) (u.box e) then some n else u.edge e) = some m ∧ _ ∧ _ ∧
        _ = if e.reaches (s.bounds n e) (u.box e) then s.bounds n e else u.box e
      split at hvalid
      · next hreaches =>
          rw [if_pos hreaches, if_pos hreaches]
          exact ⟨n, rfl, hmem, hcount, rfl⟩
      · next hreaches =>
          rw [if_neg hreaches, if_neg hreaches]
          exact h.attained e hvalid
    · exact Edge.reaches_trans (hbox e) (h.grows e)

theorem reach_boundsChanged (u : Update N) (n : N) :
    (s.reach u n).boundsChanged = Function.update u.boundsChanged n false := by
  unfold Parent.reach
  split
  · rfl
  · rfl

/-- **The loop** finds all the marked nodes in the list, and needs no more. -/
theorem updateLoop_progress (nodes : List N) (hnodup : nodes.Nodup)
    (h : Progress s present start u) (hmarked : ∀ m, u.boundsChanged m = true → m ∈ nodes) :
    ∃ u', s.updateLoop nodes ((nodes.filter u.boundsChanged).length : Nat) u = .ok u' ∧
      Progress s present start u' ∧ ∀ m, u'.boundsChanged m = false := by
  induction nodes generalizing u with
  | nil =>
    refine ⟨u, ?_, h, fun m => Bool.eq_false_iff.mpr fun hm => not_mem_nil (hmarked m hm)⟩
    rw [updateLoop, if_pos (by simp)]
  | cons n nodes ih =>
    obtain ⟨hnot, hnodup⟩ := List.nodup_cons.mp hnodup
    by_cases hn : u.boundsChanged n = true
    · have hrest : ∀ m ∈ nodes, Function.update u.boundsChanged n false m = u.boundsChanged m := by
        intro m hm
        refine Function.update_of_ne ?_ _ _
        rintro rfl
        exact hnot hm
      obtain ⟨u', hloop, hprogress, hnone⟩ := ih hnodup (h.reach hn) fun m hm => by
        rw [reach_boundsChanged] at hm
        by_cases hmn : m = n
        · rw [hmn, Function.update_self] at hm
          cases hm
        · rw [Function.update_of_ne hmn] at hm
          exact mem_of_ne_of_mem hmn (hmarked m hm)
      refine ⟨u', ?_, hprogress, hnone⟩
      rw [reach_boundsChanged, filter_congr hrest] at hloop
      rw [filter_cons_of_pos hn, length_cons, updateLoop, if_neg (by omega)]
      simp only [hn, if_true]
      rw [show ((((nodes.filter u.boundsChanged).length + 1 : Nat)) : Int) - 1 = ((nodes.filter u.boundsChanged).length : Nat)
        by omega]
      exact hloop
    · have hrest : ∀ m, u.boundsChanged m = true → m ∈ nodes := by
        intro m hm
        refine mem_of_ne_of_mem ?_ (hmarked m hm)
        rintro rfl
        exact hn hm
      obtain ⟨u', hloop, hprogress, hnone⟩ := ih hnodup h hrest
      rw [filter_cons_of_neg hn, updateLoop]
      split
      · next hzero =>
          refine ⟨u, rfl, h, fun m => Bool.eq_false_iff.mpr fun hm => ?_⟩
          have hpos := length_pos_of_mem (List.mem_filter.mpr ⟨hrest m hm, hm⟩)
          omega
      · exact ⟨u', hloop, hprogress, hnone⟩

/-! ### Queries -/

theorem Fits.congr {s : Parent N}
    (h : Fits s seen box edge) (hvisible : s'.visible = s.visible) (hbounds : s'.bounds = s.bounds) :
    Fits s' seen box edge := by
  have hcounts : ∀ m, s'.counts m = s.counts m := fun m =>
    counts_congr (congrFun hvisible m) (congrFun hbounds m)
  rcases h with ⟨hnone, hempty, hedge⟩ | ⟨hinside, hattained⟩
  · exact .inl ⟨fun m hm => (hcounts m).trans (hnone m hm), hempty, by rwa [hvisible]⟩
  · refine .inr ⟨fun m hm hcount => ?_, fun e => ?_⟩
    · rw [hbounds]
      exact hinside m hm ((hcounts m).symm.trans hcount)
    · obtain ⟨m, hm, hseen, hcount, heq⟩ := hattained e
      exact ⟨m, hm, hseen, (hcounts m).trans hcount, by rwa [hbounds]⟩

/-- The box as a query leaves it. -/
def settle (box : BaseBounds) (edge : Edge → Option N) (s : Parent N) : Parent N :=
  { s with boundsChanged := fun _ => false, cachedBounds := box, edge }

theorem Core.count_eq (h : Core present s) (hnodup : nodes.Nodup)
    (hmarked : ∀ m, s.boundsChanged m = true → m ∈ nodes) :
    s.dirtyChildrenCount = ((nodes.filter s.boundsChanged).length : Nat) := by
  rw [h.count, ← toFinset_card_of_nodup (hnodup.filter _)]
  congr 2
  ext m
  rw [Finset.mem_filter, List.mem_toFinset, List.mem_filter]
  constructor
  · exact fun hm => ⟨hmarked m hm.2, hm.2⟩
  · exact fun hm => ⟨(h.marked m hm.2).1, hm.2⟩

theorem createCachedBounds_settles (hmarked : ∀ m, s.boundsChanged m = true → m ∈ nodes) :
    ∃ box edge, s.createCachedBounds nodes = s.settle box edge ∧ Fits s (· ∈ nodes) box edge := by
  obtain ⟨box, edge, heq, hfits⟩ := createCachedBounds_fits nodes s
  refine ⟨box, edge, ?_, hfits⟩
  have hnone : (fun n => if n ∈ nodes then false else s.boundsChanged n) = fun _ => false := by
    funext n
    split
    · rfl
    · next hn => exact Bool.eq_false_iff.mpr fun hm => hn (hmarked n hm)
  rw [heq, hnone]
  rfl

/-- What the loop begins with. -/
def beginning (s : Parent N) : Update N :=
  { boundsChanged := s.boundsChanged
    box := s.cachedBounds
    edge := s.edge
    invalidEdges := fun e => match s.edge e with
      | none => true
      | some node => s.boundsChanged node }

theorem updateCachedBounds_eq (h : s.cachedBounds.isEmpty = false) (nodes : List N) (remaining : Int) :
    s.updateCachedBounds nodes remaining = (s.updateLoop nodes.reverse remaining s.beginning).map fun u =>
      if [Edge.left, .top, .near, .right, .bottom, .far].any u.invalidEdges then
        (false, { s with boundsChanged := u.boundsChanged, edge := u.edge })
      else (true, { s with boundsChanged := u.boundsChanged, edge := u.edge, cachedBounds := u.box }) := by
  rw [updateCachedBounds, if_neg (by simp [h])]
  rfl

theorem Core.progress (h : Core present s) (hempty : s.cachedBounds.isEmpty = false) :
    Progress s present s.cachedBounds s.beginning where
  marked := h.marked
  inside m hm hcount hunmarked := (h.inside m hm hcount hunmarked).2
  attained e hvalid := by
    unfold beginning at hvalid ⊢
    cases hedge : s.edge e with
    | none => simp only [hedge, Bool.true_eq_false] at hvalid
    | some m =>
      simp only [hedge] at hvalid
      obtain ⟨hcount, heq⟩ := h.attained hempty e m hedge hvalid
      exact ⟨m, hedge, (h.edgeNode e m hedge).1, hcount, heq⟩
  grows e := Edge.reaches_refl e _

/-- **The marked nodes alone**: the box is right, or it is not known. -/
theorem updateCachedBounds_settles (h : Core present s) (hnodup : nodes.Nodup)
    (hmarked : ∀ m, s.boundsChanged m = true → m ∈ nodes) (hnodes : ∀ m ∈ nodes, m ∈ present) :
    (∃ box edge, s.updateCachedBounds nodes s.dirtyChildrenCount = .ok (true, s.settle box edge) ∧
      Fits s (· ∈ present) box edge) ∨
    ∃ edge, s.updateCachedBounds nodes s.dirtyChildrenCount = .ok (false, s.settle s.cachedBounds edge) := by
  by_cases hempty : s.cachedBounds.isEmpty = true
  · -- no child without a mark counts
    obtain ⟨box, edge, heq, hfits⟩ := createCachedBounds_settles hmarked
    refine .inl ⟨box, edge, by rw [updateCachedBounds, if_pos hempty, heq], hfits.weaken hnodes fun m hm hcount => ?_⟩
    by_contra hm'
    have hunmarked := Bool.eq_false_iff.mpr fun hmark => hm' (hmarked m hmark)
    rw [(h.inside m hm hcount hunmarked).1] at hempty
    cases hempty
  · rw [Bool.not_eq_true] at hempty
    have hreverse : ∀ m, s.boundsChanged m = true → m ∈ nodes.reverse := fun m hm => List.mem_reverse.mpr (hmarked m hm)
    obtain ⟨u, hloop, hprogress, hnone⟩ :=
      updateLoop_progress nodes.reverse (List.nodup_reverse.mpr hnodup) (h.progress hempty) hreverse
    replace hloop : s.updateLoop nodes.reverse s.dirtyChildrenCount s.beginning = .ok u := by
      rw [h.count_eq (List.nodup_reverse.mpr hnodup) hreverse]
      exact hloop
    rw [updateCachedBounds_eq hempty, hloop]
    have hsettled : u.boundsChanged = fun _ => false := funext hnone
    by_cases hinvalid : ([Edge.left, .top, .near, .right, .bottom, .far].any u.invalidEdges) = true
    · refine .inr ⟨u.edge, ?_⟩
      rw [Except.map, if_pos hinvalid, hsettled]
      rfl
    · refine .inl ⟨u.box, u.edge, ?_, .inr ⟨fun m hm hcount => hprogress.inside m hm hcount (hnone m), fun e => ?_⟩⟩
      · rw [Except.map, if_neg hinvalid, hsettled]
        rfl
      · rw [Bool.not_eq_true, any_eq_false] at hinvalid
        exact hprogress.attained e (by simpa using hinvalid e (by cases e <;> decide))

/-- **The box is computed** from what is marked, without an index error. -/
theorem recomputeBounds_settles (h : Core s.list.children.toFinset s) (hnodup : s.list.children.Nodup) :
    ∃ box edge, s.recomputeBounds = .ok (s.settle box edge) ∧ Fits s (· ∈ s.list.children) box edge := by
  have hmarked : ∀ m, s.boundsChanged m = true → m ∈ s.list.children := fun m hm =>
    List.mem_toFinset.mp (h.marked m hm).1
  unfold recomputeBounds
  split
  · next hnil =>
      rw [hnil] at hmarked
      have hnone : s.boundsChanged = fun _ => false :=
        funext fun m => Bool.eq_false_iff.mpr fun hm => not_mem_nil (hmarked m hm)
      refine ⟨BaseBounds.empty, s.edge, by rw [settle, ← hnone], .inl ⟨?_, isEmpty_empty, fun e m hm => ?_⟩⟩
      · intro m hm
        rw [hnil] at hm
        cases hm
      · obtain ⟨hmem, hvis⟩ := h.edgeNode e m hm
        exact ⟨List.mem_toFinset.mp hmem, hvis⟩
  · next node hone =>
      rw [hone] at hmarked
      have hnone : Function.update s.boundsChanged node false = fun _ => false := by
        funext m
        by_cases hm : m = node
        · rw [hm, Function.update_self]
        · rw [Function.update_of_ne hm]
          exact Bool.eq_false_iff.mpr fun hmark => hm (List.mem_singleton.mp (hmarked m hmark))
      rw [hone]
      by_cases hvis : s.visible node = true
      · refine ⟨s.bounds node, fun _ => some node, ?_, ?_⟩
        · simp only [hnone, if_pos hvis]
          rfl
        · by_cases hempty : (s.bounds node).isEmpty = true
          · refine .inl ⟨fun m hm => ?_, hempty, ?_⟩
            · rw [List.mem_singleton.mp hm, counts, hempty, Bool.not_true, Bool.and_false]
            · rintro e m hm
              obtain rfl := Option.some.inj hm
              exact ⟨List.mem_singleton_self _, hvis⟩
          · rw [Bool.not_eq_true] at hempty
            refine .inr ⟨fun m hm _ e => ?_, fun e => ⟨node, rfl, List.mem_singleton_self _, ?_, rfl⟩⟩
            · rw [List.mem_singleton.mp hm]
              exact Edge.reaches_refl e _
            · rw [counts, hvis, hempty]
              rfl
      · rw [Bool.not_eq_true] at hvis
        refine ⟨BaseBounds.empty, s.edge, ?_, .inl ⟨fun m hm => ?_, isEmpty_empty, fun e m hm => ?_⟩⟩
        · simp only [hnone, hvis, Bool.false_eq_true, if_false]
          rfl
        · rw [List.mem_singleton.mp hm, counts, hvis, Bool.false_and]
        · obtain ⟨hmem, hvis'⟩ := h.edgeNode e m hm
          rw [hone] at hmem
          exact ⟨List.mem_toFinset.mp hmem, hvis'⟩
  · by_cases hcount : s.dirtyChildrenCount = 0
    · obtain ⟨box, edge, heq, hfits⟩ := createCachedBounds_settles hmarked
      exact ⟨box, edge, by rw [if_pos hcount, heq], hfits⟩
    · rw [if_neg hcount]
      have hdirty : (s.dirtyChildren.getD s.list.children).Nodup ∧
          (∀ m, s.boundsChanged m = true → m ∈ s.dirtyChildren.getD s.list.children) ∧
          ∀ m ∈ s.dirtyChildren.getD s.list.children, m ∈ s.list.children.toFinset := by
        cases hd : s.dirtyChildren with
        | none => exact ⟨hnodup, hmarked, fun m hm => List.mem_toFinset.mpr hm⟩
        | some l =>
          obtain ⟨hl, hmem⟩ := h.dirtyChildren l hd
          exact ⟨hl, fun m hm => (hmem m).mpr hm, fun m hm => (h.marked m ((hmem m).mp hm)).1⟩
      obtain ⟨hl, hall, hsub⟩ := hdirty
      rcases updateCachedBounds_settles h hl hall hsub with ⟨box, edge, heq, hfits⟩ | ⟨edge, heq⟩
      · refine ⟨box, edge, by rw [heq]; rfl, hfits.weaken (fun m => List.mem_toFinset.mp) fun m hm _ => ?_⟩
        exact List.mem_toFinset.mpr hm
      · have hsettled : ∀ m, (s.settle s.cachedBounds edge).boundsChanged m = true → m ∈ s.list.children :=
          fun m hm => by cases hm
        obtain ⟨box, edge', heq', hfits⟩ := createCachedBounds_settles hsettled
        refine ⟨box, edge', ?_, hfits.congr rfl rfl⟩
        rw [heq]
        show Except.ok ((s.settle s.cachedBounds edge).createCachedBounds s.list.children) = _
        rw [heq']
        rfl

/-- The union of the bounds of the children that count; it is empty if there are none. -/
def IsUnion (s : Parent N) (b : BaseBounds) : Prop :=
  ((∀ n ∈ s.list.children, s.counts n = false) ∧ b.isEmpty = true) ∨
  ∀ e : Edge, (∀ n ∈ s.list.children, s.counts n = true → e.reaches (b e) (s.bounds n e)) ∧
    ∃ n ∈ s.list.children, s.counts n = true ∧ s.bounds n e = b e

theorem Fits.isUnion (h : Fits s (· ∈ s.list.children) box edge) : IsUnion s box := by
  rcases h with ⟨hnone, hempty, -⟩ | ⟨hinside, hattained⟩
  · exact .inl ⟨hnone, hempty⟩
  · refine .inr fun e => ⟨fun n hn hcount => hinside n hn hcount e, ?_⟩
    obtain ⟨m, -, hm, hcount, heq⟩ := hattained e
    exact ⟨m, hm, hcount, heq⟩

section

variable (h : Core s.list.children.toFinset s)
include h

theorem Core.isUnion (hvalid : s.cachedBoundsInvalid = false) :
    IsUnion s s.cachedBounds := by
  have hnone : ∀ m, s.boundsChanged m = false := fun m =>
    Bool.eq_false_iff.mpr fun hm => by rw [h.invalid m hm] at hvalid; cases hvalid
  by_cases hempty : s.cachedBounds.isEmpty = true
  · refine .inl ⟨fun n hn => ?_, hempty⟩
    by_contra hcount
    rw [Bool.not_eq_false] at hcount
    rw [(h.inside n (List.mem_toFinset.mpr hn) hcount (hnone n)).1] at hempty
    cases hempty
  · have hedges := (h.valid hvalid).resolve_left hempty
    rw [Bool.not_eq_true] at hempty
    refine .inr fun e => ⟨fun n hn hcount => (h.inside n (List.mem_toFinset.mpr hn) hcount (hnone n)).2 e, ?_⟩
    obtain ⟨m, hm⟩ := hedges e
    obtain ⟨hcount, heq⟩ := h.attained hempty e m hm (hnone m)
    exact ⟨m, List.mem_toFinset.mp (h.edgeNode e m hm).1, hcount, heq⟩

theorem Core.settled
    (hfits : Fits s (· ∈ s.list.children) box edge) : Core s.list.children.toFinset { s.settle box edge with
        dirtyChildren := s.dirtyChildren.map fun _ => []
        cachedBoundsInvalid := false
        dirtyChildrenCount := 0 } where
  attached := h.attached
  marked n hn := by cases hn
  count := by simp [settle]
  dirtyChildren l hl := by
    obtain ⟨l', -, rfl⟩ := Option.map_eq_some_iff.mp hl
    exact ⟨nodup_nil, fun n => by simp [settle]⟩
  invalid n hn := by cases hn
  edgeNode e n hn := by
    rcases hfits with ⟨-, -, hedge⟩ | hattains
    · obtain ⟨hm, hvis⟩ := hedge e n hn
      exact ⟨List.mem_toFinset.mpr hm, hvis⟩
    · obtain ⟨m, hm, hmem, hcount, -⟩ := hattains.attained e
      obtain rfl : m = n := Option.some.inj (hm.symm.trans hn)
      exact ⟨List.mem_toFinset.mpr hmem, visible_of_counts hcount⟩
  inside n hn hcount _ := by
    rw [List.mem_toFinset] at hn
    rcases hfits with ⟨hnone, -⟩ | hattains
    · have hcount' : s.counts n = true := hcount
      rw [hnone n hn] at hcount'
      cases hcount'
    · exact ⟨hattains.isEmpty, hattains.inside n hn hcount⟩
  attained hnonempty e n hn _ := by
    rcases hfits with ⟨-, hempty, -⟩ | hattains
    · have hnonempty' : box.isEmpty = false := hnonempty
      rw [hempty] at hnonempty'
      cases hnonempty'
    · obtain ⟨m, hm, -, hcount, heq⟩ := hattains.attained e
      obtain rfl : m = n := Option.some.inj (hm.symm.trans hn)
      exact ⟨hcount, heq⟩
  valid _ := by
    rcases hfits with ⟨-, hempty, -⟩ | hattains
    · exact .inl hempty
    · refine .inr fun e => ?_
      obtain ⟨m, hm, -⟩ := hattains.attained e
      exact ⟨m, hm⟩

/-- **A query** returns the union. -/
theorem Core.query (hnodup : s.list.children.Nodup) :
    ∃ b s', s.doComputeGeomBounds = .ok (b, s') ∧ IsUnion s b ∧ s'.list = s.list ∧
      Core s.list.children.toFinset s' := by
  unfold doComputeGeomBounds
  by_cases hnil : s.list.children.isEmpty = true
  · rw [if_pos hnil]
    rw [List.isEmpty_iff] at hnil
    refine ⟨_, _, rfl, .inl ⟨fun n hn => ?_, isEmpty_empty⟩, rfl, h⟩
    rw [hnil] at hn
    cases hn
  · rw [if_neg hnil]
    by_cases hinvalid : s.cachedBoundsInvalid = true
    · rw [if_pos hinvalid]
      obtain ⟨box, edge, heq, hfits⟩ := recomputeBounds_settles h hnodup
      rw [heq]
      exact ⟨_, _, rfl, hfits.isUnion, rfl, h.settled hfits⟩
    · rw [if_neg hinvalid]
      exact ⟨_, _, rfl, h.isUnion (Bool.eq_false_iff.mpr hinvalid), rfl, h⟩

end

/-! ### What happens to the children -/

theorem setChildDirty_list (node : N) (dirty : Bool) (s : Parent N) : (s.setChildDirty node dirty).list = s.list := by
  unfold setChildDirty
  split
  · rfl
  · split
    · rfl
    · rfl

theorem Core.removeChild (h : Core present s) (old : N) : Core (present.erase old) (s.removeChild old) := by
  have hkept : ∀ m, m ≠ old → (m ∈ present.erase old ↔ m ∈ present) := fun m hm => by
    rw [Finset.mem_erase, and_iff_right hm]
  have hattached : ∀ m, Function.update s.attached old false m = true ↔ m ∈ present.erase old := by
    intro m
    by_cases hm : m = old
    · simp [hm]
    · rw [Function.update_of_ne hm, hkept m hm]
      exact h.attached m
  have hunmarked : ∀ l, s.dirtyChildren = some l → s.boundsChanged old = false → old ∉ l := by
    intro l hl hmark
    rw [(h.dirtyChildren l hl).2]
    exact Bool.eq_false_iff.mp hmark
  by_cases hvis : s.visible old = true
  · have hvisible : ∀ m, m ≠ old → s.visible m = s.visible m := fun _ _ => rfl
    have hcore := h.unmark hvisible hattached hkept fun hmem =>
      absurd hmem (Finset.notMem_erase old present)
    -- taking the node out of the list twice is taking it out once
    have htwice : s.removeChild old = childExcluded old { s with attached := Function.update s.attached old false } := by
      have hlist : ∀ l, s.dirtyChildren.map (fun l => l.erase old) = some l → old ∉ l := by
        intro l hl
        obtain ⟨l', hl', rfl⟩ := Option.map_eq_some_iff.mp hl
        exact (h.dirtyChildren l' hl').1.not_mem_erase
      have herase : (s.dirtyChildren.map fun l => l.erase old).map (fun l => l.erase old)
          = s.dirtyChildren.map fun l => l.erase old := by
        rw [Option.map_map]
        refine Option.map_congr fun l hl => ?_
        exact erase_of_not_mem (h.dirtyChildren l hl).1.not_mem_erase
      unfold Parent.removeChild childExcluded
      simp only [if_pos hvis]
      rw [setChildDirty_clear ?again, setChildDirty_clear ?once]
      case again => exact fun l hl _ => hlist l hl
      case once => exact hunmarked
      simp only [herase]
    rwa [htwice]
  · rw [Bool.not_eq_true] at hvis
    have hlist : s.dirtyChildren.map (fun l => l.erase old) = s.dirtyChildren := by
      have hmark : s.boundsChanged old = false := by
        by_contra hmark
        rw [Bool.not_eq_false] at hmark
        rw [(h.marked old hmark).2] at hvis
        cases hvis
      cases hd : s.dirtyChildren with
      | none => rfl
      | some l => rw [Option.map_some, erase_of_not_mem (hunmarked l hd hmark)]
    unfold Parent.removeChild
    simp only [hvis, Bool.false_eq_true, if_false, hlist]
    exact h.hidden hvis hattached hkept

/-- A node that is added, or added again, is marked if it is visible. -/
theorem Core.addChild (h : Core present s) (node : N) : Core (insert node present) (s.addChild node) := by
  have hattached : ∀ m, Function.update s.attached node true m = true ↔ m ∈ insert node present := by
    intro m
    by_cases hm : m = node
    · simp [hm]
    · rw [Function.update_of_ne hm, Finset.mem_insert, or_iff_right hm]
      exact h.attached m
  unfold Parent.addChild
  by_cases hvis : s.visible node = true
  · simp only [if_pos hvis]
    exact h.mark (fun _ _ => rfl) hvis (fun _ _ => rfl) hattached
  · simp only [if_neg hvis]
    refine h.hidden (Bool.eq_false_iff.mpr hvis) hattached fun m hm => ?_
    rw [Finset.mem_insert, or_iff_right hm]

theorem addChild_list (node : N) (s : Parent N) : (s.addChild node).list = s.list := by
  unfold Parent.addChild
  by_cases hvis : s.visible node = true
  · simp only [if_pos hvis]
    exact setChildDirty_list _ _ _
  · simp only [if_neg hvis]

theorem Core.createDirtyChildren (h : Core present s) (hnodup : s.list.children.Nodup)
    (hsub : ∀ n ∈ present, n ∈ s.list.children) : Core present s.createDirtyChildren := by
  unfold Parent.createDirtyChildren
  split
  · refine ⟨h.attached, h.marked, h.count, fun l hl => ?_, h.invalid, h.edgeNode, h.inside, h.attained, h.valid⟩
    obtain rfl := Option.some.inj hl
    split
    · refine ⟨hnodup.filter _, fun n => ?_⟩
      rw [List.mem_filter, Bool.and_eq_true]
      constructor
      · exact fun hn => hn.2.2
      · exact fun hn => ⟨hsub n (h.marked n hn).1, (h.marked n hn).2, hn⟩
    · next hcount =>
        refine ⟨nodup_nil, fun n => ?_⟩
        constructor
        · exact fun hn => absurd hn not_mem_nil
        · intro hn
          have hpos : 0 < (present.filter fun n => s.boundsChanged n = true).card :=
            Finset.card_pos.mpr ⟨n, Finset.mem_filter.mpr ⟨(h.marked n hn).1, hn⟩⟩
          rw [h.count] at hcount
          omega
  · exact h

theorem createDirtyChildren_list (s : Parent N) : s.createDirtyChildren.list = s.list := by
  unfold Parent.createDirtyChildren
  split
  · rfl
  · rfl

/-- Something happens to nodes that are hidden, or are no children. -/
theorem Core.unnoticed (h : Core present s)
    (hsame : ∀ m ∈ present, s.visible m = true ∨ visible m = true → visible m = s.visible m ∧ bounds m = s.bounds m) :
    Core present { s with visible, bounds } := by
  have hcounts : ∀ m ∈ present, ({ s with visible, bounds } : Parent N).counts m = s.counts m := by
    intro m hm
    by_cases hvis : s.visible m = true ∨ visible m = true
    · obtain ⟨hv, hb⟩ := hsame m hm hvis
      exact counts_congr hv hb
    · rw [not_or, Bool.not_eq_true, Bool.not_eq_true] at hvis
      simp [counts, hvis.1, hvis.2]
  have hshown : ∀ m ∈ present, s.visible m = true → visible m = true := fun m hm hvis =>
    (hsame m hm (.inl hvis)).1.trans hvis
  refine ⟨h.attached, fun m hm => ?_, h.count, h.dirtyChildren, h.invalid, fun e m hm => ?_,
    fun m hm hcount hunmarked => ?_, fun hnonempty e m hm hunmarked => ?_, h.valid⟩
  · obtain ⟨hmem, hvis⟩ := h.marked m hm
    exact ⟨hmem, hshown m hmem hvis⟩
  · obtain ⟨hmem, hvis⟩ := h.edgeNode e m hm
    exact ⟨hmem, hshown m hmem hvis⟩
  · obtain ⟨hnonempty, hin⟩ := h.inside m hm ((hcounts m hm).symm.trans hcount) hunmarked
    refine ⟨hnonempty, fun e => ?_⟩
    show e.reaches (s.cachedBounds e) (bounds m e)
    rw [(hsame m hm (.inr (visible_of_counts hcount))).2]
    exact hin e
  · obtain ⟨hmem, hvis⟩ := h.edgeNode e m hm
    obtain ⟨hcount, heq⟩ := h.attained hnonempty e m hm hunmarked
    exact ⟨(hcounts m hmem).trans hcount, (congrFun (hsame m hmem (.inl hvis)).2 e).trans heq⟩

theorem Core.setVisible (h : Core present s) (node : N) (value : Bool) : Core present (s.setVisible node value) := by
  unfold Parent.setVisible
  by_cases hsame : s.visible node = value
  · rwa [if_pos hsame]
  · have hvisible : ∀ m, m ≠ node → Function.update s.visible node value m = s.visible m :=
      fun m hm => Function.update_of_ne hm _ _
    simp only [if_neg hsame]
    by_cases hattached : s.attached node = true
    · have hmem := (h.attached node).mp hattached
      rw [if_pos hattached, childVisibilityChanged]
      cases value with
      | true =>
        rw [if_pos (Function.update_self ..)]
        have hchildren : ∀ m, s.attached m = true ↔ m ∈ insert node present := fun m => by
          rw [Finset.insert_eq_of_mem hmem]
          exact h.attached m
        have hcore := h.mark hvisible (Function.update_self ..) (fun _ _ => rfl) hchildren
        rwa [Finset.insert_eq_of_mem hmem] at hcore
      | false =>
        rw [if_neg (by simp)]
        exact h.unmark hvisible h.attached (fun _ _ => Iff.rfl) fun _ => Function.update_self ..
    · -- a node that is not a child
      rw [if_neg hattached]
      refine h.unnoticed fun m hm _ => ⟨hvisible m ?_, rfl⟩
      rintro rfl
      exact hattached ((h.attached m).mpr hm)

theorem Core.setBounds (h : Core present s) (node : N) (value : BaseBounds) :
    Core present (s.setBounds node value) := by
  have hbounds : ∀ m, m ≠ node → Function.update s.bounds node value m = s.bounds m :=
    fun m hm => Function.update_of_ne hm _ _
  unfold Parent.setBounds
  by_cases htold : (s.attached node && s.visible node) = true
  · simp only [if_pos htold]
    rw [Bool.and_eq_true] at htold
    have hmem := (h.attached node).mp htold.1
    have hchildren : ∀ m, s.attached m = true ↔ m ∈ insert node present := fun m => by
      rw [Finset.insert_eq_of_mem hmem]
      exact h.attached m
    have hcore := h.mark (fun _ _ => rfl) htold.2 hbounds hchildren
    rwa [Finset.insert_eq_of_mem hmem] at hcore
  · -- nobody is told: the node is no child, or hidden
    simp only [if_neg htold]
    refine h.unnoticed fun m hm hvis => ⟨rfl, hbounds m ?_⟩
    rintro rfl
    exact htold (Bool.and_eq_true_iff.mpr ⟨(h.attached m).mpr hm, or_self_iff.mp hvis⟩)

/-! ### Calls -/

theorem foldl_addChild (nodes : List N) (h : Core present s) :
    Core (present ∪ nodes.toFinset) (nodes.foldl addChild s) ∧ (nodes.foldl addChild s).list = s.list := by
  induction nodes generalizing s present with
  | nil =>
    rw [toFinset_nil, Finset.union_empty]
    exact ⟨h, rfl⟩
  | cons n nodes ih =>
    obtain ⟨hcore, hlist⟩ := ih (h.addChild n)
    rw [toFinset_cons, Finset.union_insert, ← Finset.insert_union]
    exact ⟨hcore, hlist.trans (addChild_list n s)⟩

theorem foldl_removeChild (nodes : List N) (h : Core present s) :
    Core (present \ nodes.toFinset) (nodes.foldl Parent.removeChild s) := by
  induction nodes generalizing s present with
  | nil =>
    rw [toFinset_nil, Finset.sdiff_empty]
    exact h
  | cons n nodes ih =>
    have hcore := ih (h.removeChild n)
    have hset : present \ (n :: nodes).toFinset = present.erase n \ nodes.toFinset := by
      ext m
      simp only [toFinset_cons, Finset.mem_sdiff, Finset.mem_insert, Finset.mem_erase]
      grind
    rwa [hset]

/-- The nodes of the added ranges of a change. -/
def addedIn (children : List N) (c : Change N) : List N :=
  c.changes.flatMap fun r => (children.drop r.from.toNat).take (r.to - r.from).toNat

omit [DecidableEq N] in
theorem mem_of_addedIn {children : List N} {c : Change N} (h : n ∈ addedIn children c) : n ∈ children := by
  obtain ⟨r, -, hr⟩ := List.mem_flatMap.mp h
  exact mem_of_mem_drop (mem_of_mem_take hr)

theorem foldl_records (records : List (SubChange N)) (h : Core present s) :
    Core (present ∪ (records.flatMap fun r => (s.list.children.drop r.from.toNat).take
      (r.to - r.from).toNat).toFinset)
        (records.foldl (fun s r => ((s.list.children.drop r.from.toNat).take
          (r.to - r.from).toNat).foldl addChild s) s) ∧
      (records.foldl (fun s r => ((s.list.children.drop r.from.toNat).take (r.to - r.from).toNat).foldl addChild s)
        s).list = s.list := by
  induction records generalizing s present with
  | nil =>
    rw [flatMap_nil, toFinset_nil, Finset.union_empty]
    exact ⟨h, rfl⟩
  | cons r records ih =>
    obtain ⟨hcore, hlist⟩ := foldl_addChild ((s.list.children.drop r.from.toNat).take (r.to - r.from).toNat) h
    obtain ⟨hcore', hlist'⟩ := ih hcore
    rw [hlist, Finset.union_assoc, ← toFinset_append] at hcore'
    exact ⟨hcore', hlist'.trans hlist⟩

/-- The listener makes children of the nodes in the added ranges. -/
theorem Core.onChanged {c : Change N} (h : Core present s) (hmodified : s.list.childSetModified = true)
    (hnodup : s.list.children.Nodup) (hsub : ∀ n ∈ present, n ∈ s.list.children) :
    Core (present ∪ (addedIn s.list.children c).toFinset) (s.onChanged c) ∧ (s.onChanged c).list = s.list := by
  obtain ⟨hcore, hlist⟩ := foldl_records c.changes h
  rw [Parent.onChanged, if_pos hmodified]
  refine ⟨hcore.createDirtyChildren (by rwa [hlist]) fun n hn => ?_, ?_⟩
  · rw [hlist]
    rcases Finset.mem_union.mp hn with hn | hn
    · exact hsub n hn
    · exact mem_of_addedIn (List.mem_toFinset.mp hn)
  · rw [createDirtyChildren_list, hlist]

/-- **The listener** is told everything there is to tell. -/
theorem foldl_onChanged (fired : List (Change N)) (h : Core present s)
    (hmodified : s.list.childSetModified = true) (hnodup : s.list.children.Nodup)
    (hsub : ∀ n ∈ present, n ∈ s.list.children) :
    ∃ present', Core present' (fired.foldl Parent.onChanged s) ∧ (fired.foldl Parent.onChanged s).list = s.list ∧
      ∀ n, n ∈ present' ↔ n ∈ present ∨ ∃ c ∈ fired, n ∈ addedIn s.list.children c := by
  induction fired generalizing s present with
  | nil => exact ⟨present, h, rfl, fun n => by simp⟩
  | cons c fired ih =>
    obtain ⟨hcore, hlist⟩ := h.onChanged (c := c) hmodified hnodup hsub
    obtain ⟨present', hcore', hlist', hmem⟩ := ih hcore (by rwa [hlist]) (by rwa [hlist]) fun n hn => by
      rw [hlist]
      rcases Finset.mem_union.mp hn with hn | hn
      · exact hsub n hn
      · exact mem_of_addedIn (List.mem_toFinset.mp hn)
    refine ⟨present', hcore', hlist'.trans hlist, fun n => ?_⟩
    rw [hmem, hlist, Finset.mem_union, List.mem_toFinset, or_assoc]
    simp only [mem_cons, exists_eq_or_imp]

/-- Without `childSetModified` the listener does nothing about the bounds. -/
theorem foldl_onChanged_unmodified (fired : List (Change N)) (h : s.list.childSetModified = false) :
    fired.foldl Parent.onChanged s = s := by
  induction fired with
  | nil => rfl
  | cons c fired ih =>
    have hsame : s.onChanged c = s := by rw [Parent.onChanged, if_neg (by simp [h])]
    rw [foldl_cons, hsame, ih]

/-- What holds between calls. -/
structure Inv (s : Parent N) : Prop where
  consistent : s.list.Consistent
  idle : s.list.childrenTriggerPermutation = false
  core : Core s.list.children.toFinset s

theorem inv_new (visible : N → Bool) (bounds : N → BaseBounds) : Inv ({ visible, bounds } : Parent N) where
  consistent := ⟨nodup_nil, rfl⟩
  idle := rfl
  core :=
    { attached := fun n => by simp
      marked := fun n hn => by cases hn
      count := by simp
      dirtyChildren := fun l hl => by cases hl
      invalid := fun n hn => by cases hn
      edgeNode := fun e n hn => by cases hn
      inside := fun n hn => by simp at hn
      attained := fun h => by simp [isEmpty_empty] at h
      valid := fun _ => .inl isEmpty_empty }

/-- What a node belongs to does not depend on the list itself. -/
theorem Core.of_list (h : Core present s) (list : Children N) : Core present { s with list } :=
  ⟨h.attached, h.marked, h.count, h.dirtyChildren, h.invalid, h.edgeNode, h.inside, h.attained, h.valid⟩

theorem call_error {c : ChildrenCall N} {ex : JavaException}
    (h : s.list.call check c = (.error ex, list)) : s.call check c = { s with list } := by
  rw [Parent.call, h]

theorem call_ok {c : ChildrenCall N} (h : s.list.call check c = (.ok (), list)) (gone : List N)
    (hgone : (match c.proposal s.list.children with
      | some p => if list.childSetModified then p.removed s.list.children else []
      | none => []) = gone) :
    s.call check c = (c.fired s.list.children).foldl Parent.onChanged { gone.foldl Parent.removeChild s with list } := by
  subst hgone
  unfold Parent.call
  split
  · next heq => cases h.symm.trans heq
  · next list' heq =>
      cases h.symm.trans heq
      rfl

/-- **A call on the list of children** keeps the box right. -/
theorem Inv.call {c : ChildrenCall N} (h : Inv s) (hrange : c.InRange s.list.children) : Inv (s.call check c) := by
  rcases Children.call_cases check h.consistent h.idle hrange with
    ⟨ex, b, hcall⟩ | ⟨hnone, -, hcall⟩ | ⟨p, new, removed, hp, hperform, hdescribes, hnodup, hperm, -, hcall⟩
  · rw [call_error hcall]
    exact ⟨⟨h.consistent.nodup, h.consistent.childSet⟩, h.idle, h.core.of_list _⟩
  · -- nothing is proposed, so nothing changes
    rw [call_ok hcall [] (by rw [hnone]), foldl_nil]
    cases hmodified : s.list.childSetModified with
    | false =>
      rw [foldl_onChanged_unmodified _ hmodified]
      exact h
    | true =>
      obtain ⟨present', hcore, hlist, hmem⟩ := foldl_onChanged (c.fired s.list.children) h.core hmodified
        h.consistent.nodup fun n => List.mem_toFinset.mp
      have hpresent : present' = s.list.children.toFinset := by
        ext n
        rw [hmem, or_iff_left_of_imp]
        rintro ⟨change, -, hn⟩
        exact List.mem_toFinset.mpr (mem_of_addedIn hn)
      refine ⟨?_, ?_, ?_⟩
      · rw [hlist]
        exact h.consistent
      · rw [hlist]
        exact h.idle
      · rw [hlist, ← hpresent]
        exact hcore
  · cases hmodifies : s.list.modifies p with
    | false =>
      rw [hmodifies] at hcall
      rw [call_ok hcall [] (by rw [hp]; rfl), foldl_nil, foldl_onChanged_unmodified _ rfl]
      have hset : new.toFinset = s.list.children.toFinset := by
        ext n
        rw [List.mem_toFinset, List.mem_toFinset, (hperm.mp hmodifies).mem_iff]
      exact ⟨⟨hnodup, rfl⟩, h.idle, by
        rw [hset]
        exact h.core.of_list _⟩
    | true =>
      rw [hmodifies] at hcall
      rw [call_ok hcall removed (by rw [hp]; exact Proposal.removed_eq hdescribes.taken)]
      obtain ⟨kept, hold, hnew⟩ := hdescribes.kept
      have hdisjoint : kept.Disjoint removed :=
        disjoint_of_nodup_append (hold.nodup_iff.mp h.consistent.nodup)
      have hremoved := (foldl_removeChild removed h.core).of_list
        { s.list with children := new, childSet := new.toFinset, childSetModified := true }
      have hkept : ∀ n, n ∈ s.list.children.toFinset \ removed.toFinset ↔ n ∈ kept := by
        intro n
        rw [Finset.mem_sdiff, List.mem_toFinset, List.mem_toFinset, hold.mem_iff, List.mem_append]
        constructor
        · exact fun hn => hn.1.resolve_right hn.2
        · exact fun hn => ⟨.inl hn, fun hn' => hdisjoint hn hn'⟩
      obtain ⟨present', hcore, hlist, hmem⟩ := foldl_onChanged (c.fired s.list.children) hremoved rfl hnodup
        fun n hn => hnew.mem_iff.mpr (mem_append_left _ ((hkept n).mp hn))
      obtain rfl : present' = new.toFinset := by
        ext n
        rw [hmem, hkept, List.mem_toFinset]
        constructor
        · rintro (hn | ⟨change, -, hn⟩)
          · exact hnew.mem_iff.mpr (mem_append_left _ hn)
          · exact mem_of_addedIn hn
        · intro hn
          rcases List.mem_append.mp (hnew.mem_iff.mp hn) with hn | hn
          · exact .inl hn
          · obtain ⟨change, hchange, r, hr, hslice⟩ := ChildrenCall.announced hrange hp hperform hdescribes hnodup hn
            exact .inr ⟨change, hchange, List.mem_flatMap.mpr ⟨r, hr, hslice⟩⟩
      refine ⟨?_, ?_, ?_⟩
      · rw [hlist]
        exact ⟨hnodup, rfl⟩
      · rw [hlist]
        exact h.idle
      · rw [hlist]
        exact hcore

/-! ### Runs -/

/-- What can happen to a parent and to nodes, children or not. -/
inductive Action (N : Type)
  | call (check : N → Except JavaException Unit) (c : ChildrenCall N)
  | setVisible (node : N) (value : Bool)
  | setBounds (node : N) (value : BaseBounds)
  | query

namespace Action

def run (s : Parent N) : Action N → Except JavaException (Parent N)
  | .call check c => .ok (s.call check c)
  | .setVisible node value => .ok (s.setVisible node value)
  | .setBounds node value => .ok (s.setBounds node value)
  | .query => s.doComputeGeomBounds.map Prod.snd

/-- A call has no index outside of the list. -/
def InRange (s : Parent N) : Action N → Prop
  | .call _ c => c.InRange s.list.children
  | .setVisible _ _ | .setBounds _ _ | .query => True

end Action

theorem setVisible_list (node : N) (value : Bool) (s : Parent N) : (s.setVisible node value).list = s.list := by
  have hmark : ∀ s : Parent N, (s.childVisibilityChanged node).list = s.list := by
    intro s
    unfold childVisibilityChanged
    split
    · exact setChildDirty_list _ _ _
    · exact setChildDirty_list _ _ _
  unfold Parent.setVisible
  dsimp only
  split
  · rfl
  · split
    · exact hmark _
    · rfl

theorem setBounds_list (node : N) (value : BaseBounds) (s : Parent N) : (s.setBounds node value).list = s.list := by
  unfold Parent.setBounds
  dsimp only
  split
  · exact setChildDirty_list _ _ _
  · rfl

/-- The list stays, and so does what is known of the box. -/
theorem Inv.of_core (h : Inv s) (hlist : s'.list = s.list) (hcore : Core s.list.children.toFinset s') : Inv s' where
  consistent := by rw [hlist]; exact h.consistent
  idle := by rw [hlist]; exact h.idle
  core := by rw [hlist]; exact hcore

theorem Inv.run {a : Action N} (h : Inv s) (hrange : a.InRange s) (hrun : a.run s = .ok s') : Inv s' := by
  cases a with
  | call check c =>
    cases hrun
    exact h.call hrange
  | setVisible node value =>
    cases hrun
    exact h.of_core (setVisible_list node value s) (h.core.setVisible node value)
  | setBounds node value =>
    cases hrun
    exact h.of_core (setBounds_list node value s) (h.core.setBounds node value)
  | query =>
    obtain ⟨b, s₁, hs₁, -, hlist, hcore⟩ := h.core.query h.consistent.nodup
    rw [Action.run, hs₁] at hrun
    cases hrun
    exact h.of_core hlist hcore

/-- The parents that allowed actions lead to. -/
inductive Run (allowed : Parent N → Action N → Prop) : Parent N → Prop
  | new (visible : N → Bool) (bounds : N → BaseBounds) : Run allowed { visible, bounds }
  | step {s s' : Parent N} (a : Action N) (h : Run allowed s) (hallowed : allowed s a) (hrun : a.run s = .ok s') :
    Run allowed s'

theorem Run.inv (h : Run (fun s a => a.InRange s) s) : Inv s := by
  induction h with
  | new visible bounds => exact inv_new visible bounds
  | step a _ hrange hrun ih => exact ih.run hrange hrun

/-- A query at this moment returns the union. -/
def Answers (s : Parent N) : Prop := ∃ b s', s.doComputeGeomBounds = .ok (b, s') ∧ IsUnion s b

/-- **In a run of calls in range** every query returns the union of the bounds of the children. -/
theorem answers_of_inRange (h : Run (fun s a => a.InRange s) s) : Answers s := by
  obtain ⟨b, s', hquery, hunion, -, -⟩ := h.inv.core.query h.inv.consistent.nodup
  exact ⟨b, s', hquery, hunion⟩

/-! ### Boxes of size one -/

/-- A box of size one. -/
def unitBox : BaseBounds := fun e => if e.isLeast then 0 else 1

/-- Nodes that are visible and have a box of size one. -/
def unitNodes : Parent Nat := { visible := fun _ => true, bounds := fun _ => unitBox }

def accept : Nat → Except JavaException Unit := fun _ => .ok ()

theorem answers_twoChildren : Answers ((unitNodes.call accept (.addAll [1, 2])).setVisible 2 false) :=
  answers_of_inRange (.step (.setVisible 2 false)
    (.step (.call accept (.addAll [1, 2])) (.new (fun _ => true) fun _ => unitBox) trivial rfl) trivial rfl)

/-- An addition beyond the end of the list fails, but the node is in the set of children; when it is
added the next time, the children seem to change places only. -/
def addedTwice : Parent Nat := (unitNodes.call accept (.addAt 5 2)).call accept (.add 2)

theorem added_without_bounds : ∃ s : Parent Nat, Run (fun _ _ => True) s ∧ ¬ Answers s := by
  refine ⟨addedTwice, .step (.call accept (.add 2)) (.step (.call accept (.addAt 5 2))
    (.new (fun _ => true) fun _ => unitBox) trivial rfl) trivial rfl, ?_⟩
  rintro ⟨b, s', hquery, hunion⟩
  have hb : BaseBounds.empty = b := (Prod.mk.inj (Except.ok.inj hquery)).1
  subst hb
  rcases hunion with ⟨hnone, -⟩ | hall
  · have := hnone 2 (List.mem_singleton_self 2)
    revert this
    decide
  · have := (hall .right).1 2 (List.mem_singleton_self 2) (by decide)
    revert this
    decide

end Parent

end JavaFX.ParentBounds
