/-
The view order of the children.

`viewOrderChildren` is right while its dirty bit is not set, and the peer's list is the same; the
peer's children are right up to `startIdx`.  Every step keeps that, with one exception: when the
children only change places, `onChanged` does not look at the view orders.  If children of one view
order have changed places among themselves, the sorted list is another one, and nobody computes it.
-/
import JavaFX.Scene.ViewOrder
import JavaFX.Proofs.Scene.ChildrenList

namespace JavaFX.ViewOrder

open EditScript StableSort ListChangeBuilder List

variable {N G V : Type} [DecidableEq N] [LinearOrder V] [Zero V]

namespace Parent

/-! ### Sorting -/

/-- Behind, or at the same depth. -/
def above (viewOrder : N → V) (a b : N) : Bool := compare viewOrder a b ≤ 0

omit [DecidableEq N] [Zero V] in
theorem above_iff (viewOrder : N → V) (a b : N) : above viewOrder a b = true ↔ viewOrder b ≤ viewOrder a := by
  unfold above compare
  rcases lt_trichotomy (viewOrder a) (viewOrder b) with h | h | h
  · simp [h]
  · simp [h]
  · simp [h.le, h.ne', not_lt_of_gt h]

omit [DecidableEq N] [Zero V] in
theorem above_trans (viewOrder : N → V) (a b c : N) (hab : above viewOrder a b = true)
    (hbc : above viewOrder b c = true) : above viewOrder a c = true := by
  rw [above_iff] at *
  exact hbc.trans hab

omit [DecidableEq N] [Zero V] in
theorem above_total (viewOrder : N → V) (a b : N) : (above viewOrder a b || above viewOrder b a) = true := by
  rw [Bool.or_eq_true, above_iff, above_iff]
  exact le_total _ _

/-- The children by decreasing view order; children of one view order stay in their order. -/
structure Sorted (viewOrder : N → V) (children l : List N) : Prop where
  perm : l.Perm children
  decreasing : l.Pairwise fun a b => viewOrder b ≤ viewOrder a
  stable : KeepsTies (above viewOrder) children l

omit [DecidableEq N] [Zero V] in
theorem sorted_sort (viewOrder : N → V) (children : List N) :
    Sorted viewOrder children (sort viewOrder children) where
  perm := mergeSort_perm _ _
  decreasing := by
    have hsorted := pairwise_mergeSort (above_trans viewOrder) (above_total viewOrder) children
    exact hsorted.imp fun h => (above_iff viewOrder _ _).mp h
  stable := keepsTies_mergeSort (above_trans viewOrder) (above_total viewOrder) children

variable {children children' : List N} {viewOrder : N → V} {peers : List G} {list : Children N}
  {check : N → Except JavaException Unit} {c : ChildrenCall N}

variable {l : List N} {k : Nat} {s' : Parent N G V}

omit [DecidableEq N] [Zero V] in
theorem Sorted.above (viewOrder : N → V) (h : Sorted viewOrder children l) :
    l.Pairwise fun a b => above viewOrder a b = true :=
  h.decreasing.imp fun h => (above_iff viewOrder _ _).mpr h

omit [DecidableEq N] [Zero V] in
/-- There is one sorted list, also for another order of the children that keeps the ties. -/
theorem Sorted.unique {l' : List N} (h : Sorted viewOrder children l)
    (h' : Sorted viewOrder children' l')
    (hties : KeepsTies (Parent.above viewOrder) children children') : l' = l := by
  refine eq_of_keepsTies (above_total viewOrder) (h.above viewOrder) (h'.above viewOrder) fun x => ?_
  rw [h'.stable x, hties x, h.stable x]

omit [DecidableEq N] in
theorem sorted_of_zero (h : ∀ n ∈ children, viewOrder n = 0) : Sorted viewOrder children children where
  perm := List.Perm.refl _
  decreasing := pairwise_of_forall_mem_list fun a ha b hb => by rw [h a ha, h b hb]
  stable := KeepsTies.refl _

omit [DecidableEq N] in
theorem viewOrderOf_eq_nil_iff : viewOrderOf viewOrder children = [] ↔ ∀ n ∈ children, viewOrder n = 0 := by
  unfold viewOrderOf
  split
  · next hany =>
      rw [any_eq_true] at hany
      obtain ⟨n, hn, hne⟩ := hany
      have hperm := (sorted_sort viewOrder children).perm
      constructor
      · intro hnil
        rw [hnil] at hperm
        rw [hperm.symm.eq_nil] at hn
        cases hn
      · intro hzero
        simp [hzero n hn] at hne
  · next hany => simpa using hany

omit [DecidableEq N] in
theorem viewOrderOf_of_not_zero (h : ¬ ∀ n ∈ children, viewOrder n = 0) :
    viewOrderOf viewOrder children = sort viewOrder children := by
  have hany : (children.any fun child => viewOrder child ≠ 0) = true := by
    simpa using h
  rw [viewOrderOf, if_pos hany]

omit [DecidableEq N] in
theorem sorted_viewOrderOf (viewOrder : N → V) (children : List N) : Sorted viewOrder children
    (if (viewOrderOf viewOrder children).isEmpty then children else viewOrderOf viewOrder children) := by
  by_cases hzero : ∀ n ∈ children, viewOrder n = 0
  · rw [viewOrderOf_eq_nil_iff.mpr hzero]
    exact sorted_of_zero hzero
  · have hne : viewOrderOf viewOrder children ≠ [] := fun h => hzero (viewOrderOf_eq_nil_iff.mp h)
    rw [if_neg (by simpa using hne), viewOrderOf_of_not_zero hzero]
    exact sorted_sort viewOrder children

omit [DecidableEq N] in
/-- Another order of the children with the same cached list. -/
theorem viewOrderOf_perm (hperm : children'.Perm children)
    (h : (∀ n ∈ children, viewOrder n = 0) ∨ KeepsTies (above viewOrder) children children') :
    viewOrderOf viewOrder children' = viewOrderOf viewOrder children := by
  have hzero' : (∀ n ∈ children', viewOrder n = 0) ↔ ∀ n ∈ children, viewOrder n = 0 := by
    constructor
    · exact fun hz n hn => hz n (hperm.mem_iff.mpr hn)
    · exact fun hz n hn => hz n (hperm.mem_iff.mp hn)
  by_cases hzero : ∀ n ∈ children, viewOrder n = 0
  · rw [viewOrderOf_eq_nil_iff.mpr hzero, viewOrderOf_eq_nil_iff.mpr (hzero'.mpr hzero)]
  · rw [viewOrderOf_of_not_zero hzero, viewOrderOf_of_not_zero fun hz => hzero (hzero'.mp hz)]
    exact (sorted_sort viewOrder children).unique (sorted_sort viewOrder children') (h.resolve_left hzero)

/-! ### What the list tells -/

/-- At most one change for a call that was passed on, and none only if the list is what it was. -/
def Tells (passed : Bool) (old new : List N) : Option (Change N) → Prop
  | none => new = old
  | some change => passed = true ∧ change.Replays old new ∧ change.changes ≠ []

section
variable {old new : List N} {change : Change N}

theorem exists_added_record (h : change.Replays old new) {n : N} (hnew : n ∈ new) (hold : n ∉ old) :
    ∃ r ∈ change.changes, n ∈ (new.drop r.from.toNat).take (r.to - r.from).toNat := by
  obtain ⟨e, he, hadded⟩ := exists_added h.replay hnew hold
  obtain ⟨r, hr, rfl⟩ := List.mem_map.mp he
  exact ⟨r, hr, hadded⟩

/-- A change of the set of elements has a record that is not empty. -/
theorem exists_record (h : change.Replays old new) (hold : old.Nodup) (hnew : new.Nodup) (hne : ¬ new.Perm old) :
    ∃ r ∈ change.changes, 0 < r.getRemovedSize ∨ 0 < r.to - r.from := by
  rw [perm_ext_iff_of_nodup hnew hold] at hne
  push Not at hne
  obtain ⟨n, ⟨hn, hn'⟩ | ⟨hn, hn'⟩⟩ := hne
  · obtain ⟨r, hr, hmem⟩ := exists_added_record h hn hn'
    refine ⟨r, hr, .inr ?_⟩
    have hpos := length_pos_of_mem hmem
    rw [length_take] at hpos
    omega
  · obtain ⟨e, he, hremoved⟩ := exists_removed h.replay hn hn'
    obtain ⟨r, hr, rfl⟩ := List.mem_map.mp he
    refine ⟨r, hr, .inl ?_⟩
    have hpos := length_pos_of_mem hremoved
    exact Int.natCast_pos.mpr hpos

end

/-! ### The invariant -/

/-- Both lists agree in front of the index. -/
def Synced (getPeer : N → G) (index : Int) (children : List N) (peers : List G) : Prop :=
  ∃ k : Nat, index = k ∧ k ≤ children.length ∧ k ≤ peers.length ∧ peers.take k = (children.take k).map getPeer

/-- What the peer has of the children. -/
structure PeerCurrent (getPeer : N → G) (s : Parent N G V) : Prop where
  /-- The peer has the children in front of `startIdx`. -/
  start : Synced getPeer s.startIdx s.list.children s.peer.children
  /-- Without its dirty bit it has them all. -/
  clean : s.childrenDirty = false → s.peer.children = s.list.children.map getPeer

structure Inv (getPeer : N → G) (s : Parent N G V) : Prop where
  consistent : s.list.Consistent
  idle : s.list.childrenTriggerPermutation = false
  peer : PeerCurrent getPeer s
  /-- Without its dirty bit the view order is what it should be, here and at the peer. -/
  viewOrder : s.viewOrderDirty = false → s.viewOrderChildren = viewOrderOf s.viewOrder s.list.children ∧
      s.peer.viewOrderChildren = s.viewOrderChildren.map getPeer

variable {getPeer : N → G} {s : Parent N G V}

theorem inv_new (viewOrder : N → V) : Inv getPeer ({ viewOrder } : Parent N G V) where
  consistent := ⟨nodup_nil, rfl⟩
  idle := rfl
  peer := ⟨⟨0, rfl, Nat.le_refl 0, Nat.le_refl 0, rfl⟩, fun h => by cases h⟩
  viewOrder h := by cases h

omit [DecidableEq N] in
theorem Synced.mono {index index' : Int} (h : Synced getPeer index children peers)
    (h0 : 0 ≤ index') (hle : index' ≤ index) : Synced getPeer index' children peers := by
  obtain ⟨k, rfl, hchildren, hpeers, htake⟩ := h
  obtain ⟨j, rfl⟩ := Int.eq_ofNat_of_zero_le h0
  refine ⟨j, rfl, by omega, by omega, ?_⟩
  have := congrArg (take j) htake
  rwa [take_take, ← map_take, take_take, Nat.min_eq_left (by omega)] at this

omit [DecidableEq N] in
theorem Synced.change (h : Synced getPeer k children peers)
    (hle : k ≤ children'.length) (htake : children'.take k = children.take k) : Synced getPeer k children' peers := by
  obtain ⟨j, hj, -, hpeers, hsame⟩ := h
  obtain rfl : k = j := by omega
  exact ⟨k, rfl, hle, hpeers, by rw [htake, hsame]⟩

/-- The listener moves `startIdx` to the front of what changed. -/
theorem onChanged_start {old new : List N} {change : Change N} (h : change.Replays old new)
    (hne : change.changes ≠ [])
    {startIdx : Int} (hsynced : Synced getPeer startIdx old peers) :
    Synced getPeer (startIdxAfter change startIdx) new peers := by
  obtain ⟨r, rest, hchanges⟩ := exists_cons_of_ne_nil hne
  have hordered := h.ordered
  have hreplay := h.replay
  rw [hchanges] at hordered hreplay
  obtain ⟨k, hk, hold, hnew, htake⟩ := replay_front hordered hreplay
  replace hk : r.from = k := hk
  simp only [startIdxAfter, hchanges, head?_cons, hk]
  split
  · next hlt =>
      exact (hsynced.mono (by omega) (by omega)).change hnew htake
  · next hge =>
      obtain ⟨j, rfl, -, -, -⟩ := id hsynced
      refine hsynced.change (by omega) ?_
      have := congrArg (take j) htake
      rwa [take_take, take_take, Nat.min_eq_left (by omega)] at this

/-! ### Calls -/

theorem onChanged_eq (c : Change N) (s : Parent N G V) : onChanged c s =
    if (s.list.childSetModified && c.changes.any s.viewOrderChanges) = true then
      { s with startIdx := startIdxAfter c s.startIdx, childrenDirty := true }.markViewOrderChildrenDirty
    else { s with startIdx := startIdxAfter c s.startIdx, childrenDirty := true } := rfl

theorem onChanged_list (c : Change N) (s : Parent N G V) : (onChanged c s).list = s.list := by
  rw [onChanged_eq]
  split
  · rfl
  · rfl

theorem onChanged_viewOrder (c : Change N) (s : Parent N G V) : (onChanged c s).viewOrder = s.viewOrder := by
  rw [onChanged_eq]
  split
  · rfl
  · rfl

/-- The peer's children behind `startIdx` may be wrong after a change. -/
theorem PeerCurrent.onChanged {change : Change N} (h : PeerCurrent getPeer s)
    (hreplays : change.Replays s.list.children list.children) (hne : change.changes ≠ []) :
    PeerCurrent getPeer (onChanged change { s with list }) := by
  have hstart := onChanged_start hreplays hne h.start
  rw [onChanged_eq]
  split
  · exact ⟨hstart, fun hclean => by cases hclean⟩
  · exact ⟨hstart, fun hclean => by cases hclean⟩

/-- The list changes, and the listener is told. -/
def update (list : Children N) (change : Option (Change N)) (s : Parent N G V) : Parent N G V :=
  match change with
  | some change => onChanged change { s with list }
  | none => { s with list }

theorem call_error {ex : JavaException} (h : s.list.call check c = (.error ex, list)) (change : Option (Change N)) :
    s.call check c change = { s with list } := by
  rw [Parent.call, h]

theorem call_ok (h : s.list.call check c = (.ok (), list)) (change : Option (Change N)) :
    s.call check c change = s.update list change := by
  rw [Parent.call, h]
  rfl

theorem update_list (list : Children N) (change : Option (Change N)) : (s.update list change).list = list := by
  cases change with
  | none => rfl
  | some change => exact onChanged_list _ _

theorem update_viewOrder (list : Children N) (change : Option (Change N)) :
    (s.update list change).viewOrder = s.viewOrder := by
  cases change with
  | none => rfl
  | some change => exact onChanged_viewOrder _ _

theorem PeerCurrent.update {passed : Bool} {change : Option (Change N)} (h : PeerCurrent getPeer s)
    (htells : Tells passed s.list.children list.children change) : PeerCurrent getPeer (s.update list change) := by
  cases change with
  | none =>
    obtain ⟨hstart, hclean⟩ := h
    refine ⟨?_, ?_⟩
    · show Synced getPeer s.startIdx list.children s.peer.children
      rw [show list.children = s.list.children from htells]
      exact hstart
    · show s.childrenDirty = false → s.peer.children = list.children.map getPeer
      rw [show list.children = s.list.children from htells]
      exact hclean
  | some change => exact h.onChanged htells.2.1 htells.2.2

/-- Without `childSetModified` the view order is not looked at. -/
theorem update_unmodified (list : Children N) (hlist : list.childSetModified = false) (change : Option (Change N)) :
    (s.update list change).viewOrderChildren = s.viewOrderChildren ∧
      (s.update list change).viewOrderDirty = s.viewOrderDirty ∧
      (s.update list change).peer = s.peer := by
  cases change with
  | none => exact ⟨rfl, rfl, rfl⟩
  | some change =>
    unfold update onChanged
    simp only [hlist]
    trivial

/-- Children of one view order keep their order, if it matters. -/
def KeepsOrder (s : Parent N G V) (new : List N) : Prop :=
  s.viewOrderDirty = true ∨ (∀ n ∈ s.list.children, s.viewOrder n = 0) ∨
    KeepsTies (above s.viewOrder) s.list.children new

theorem viewOrder_permuted (h : Inv getPeer s) (hperm : s'.list.children.Perm s.list.children)
    (hkeeps : KeepsOrder s s'.list.children) (hchildren : s'.viewOrderChildren = s.viewOrderChildren)
    (hdirty : s'.viewOrderDirty = s.viewOrderDirty) (hpeer : s'.peer.viewOrderChildren = s.peer.viewOrderChildren)
    (hviewOrder : s'.viewOrder = s.viewOrder) (hclean : s'.viewOrderDirty = false) :
    s'.viewOrderChildren = viewOrderOf s'.viewOrder s'.list.children ∧
      s'.peer.viewOrderChildren = s'.viewOrderChildren.map getPeer := by
  rw [hdirty] at hclean
  obtain ⟨hcache, hmap⟩ := h.viewOrder hclean
  rw [hchildren, hpeer, hviewOrder]
  refine ⟨?_, hmap⟩
  rcases hkeeps with hdirty' | hkeeps
  · rw [hclean] at hdirty'
    cases hdirty'
  · rw [hcache, viewOrderOf_perm hperm hkeeps]

theorem viewOrder_modified {change : Change N} (h : Inv getPeer s)
    (hreplays : change.Replays s.list.children list.children) (hnodup : list.children.Nodup)
    (hmodified : list.childSetModified = true) (hne : ¬ list.children.Perm s.list.children)
    (hclean : (s.update list (some change)).viewOrderDirty = false) :
    (s.update list (some change)).viewOrderChildren = viewOrderOf s.viewOrder list.children ∧
      (s.update list (some change)).peer.viewOrderChildren
        = (s.update list (some change)).viewOrderChildren.map getPeer := by
  unfold update onChanged at hclean ⊢
  by_cases hflag : (change.changes.any ({ s with list } : Parent N G V).viewOrderChanges) = true
  · simp only [hmodified, hflag] at hclean
    cases hclean
  · simp only [hmodified, hflag] at hclean ⊢
    rw [Bool.not_eq_true, any_eq_false] at hflag
    obtain ⟨hcache, hmap⟩ := h.viewOrder hclean
    refine ⟨?_, hmap⟩
    -- A record that is not empty would have been noticed if there were a sorted list.
    have hnil : s.viewOrderChildren = [] := by
      obtain ⟨r, hr, hsize⟩ := exists_record hreplays h.consistent.nodup hnodup hne
      have hquiet := hflag r hr
      by_contra hcached
      refine hquiet ?_
      simp only [viewOrderChanges, Bool.or_eq_true, Bool.and_eq_true, decide_eq_true_eq, Bool.not_eq_true',
        isEmpty_eq_false_iff]
      exact .inl ⟨hsize, hcached⟩
    rw [hnil] at hcache ⊢
    refine (viewOrderOf_eq_nil_iff.mpr fun n hn => ?_).symm
    by_cases hold : n ∈ s.list.children
    · exact viewOrderOf_eq_nil_iff.mp hcache.symm n hold
    · obtain ⟨r, hr, hmem⟩ := exists_added_record hreplays hn hold
      have hquiet := hflag r hr
      by_contra hzero
      refine hquiet ?_
      simp only [viewOrderChanges, Bool.or_eq_true, any_eq_true]
      exact .inr ⟨n, hmem, by simpa using hzero⟩

/-- What the list tells of a call that goes through. -/
def Told (check : N → Except JavaException Unit) (c : ChildrenCall N) (change : Option (Change N))
    (s : Parent N G V) :
    Prop :=
  ∀ list, s.list.call check c = (.ok (), list) →
    Tells (c.proposal s.list.children).isSome s.list.children list.children change

/-- **A call on the list of children** keeps the invariant, unless it rearranges children of one view order. -/
theorem Inv.call {change : Option (Change N)}
    (h : Inv getPeer s) (htold : Told check c change s) (hrange : c.InRange s.list.children)
    (hkeeps : ∀ new, c.perform s.list.children = .ok new → new.Perm s.list.children → KeepsOrder s new) :
    Inv getPeer (s.call check c change) := by
  rcases Children.call_cases check h.consistent h.idle hrange with
    ⟨ex, b, hcall⟩ | ⟨hnone, -, hcall⟩ | ⟨p, new, removed, hp, hperform, -, hnodup, hperm, -, hcall⟩
  · rw [call_error hcall]
    exact ⟨⟨h.consistent.nodup, h.consistent.childSet⟩, h.idle, ⟨h.peer.start, h.peer.clean⟩, h.viewOrder⟩
  · have htells := htold _ hcall
    rw [call_ok hcall]
    cases change with
    | none => exact h
    | some change =>
      rw [hnone] at htells
      cases htells.1
  · have htells := htold _ hcall
    rw [call_ok hcall]
    refine ⟨?_, ?_, h.peer.update htells, ?_⟩
    · rw [update_list]
      exact ⟨hnodup, rfl⟩
    · rw [update_list]
      exact h.idle
    · intro hclean
      by_cases hmodifies : s.list.modifies p = true
      · cases change with
        | none =>
          -- nothing is told, so the list is the same
          have hsame : new = s.list.children := htells
          have hfalse := hperm.mpr (by rw [hsame])
          rw [hmodifies] at hfalse
          cases hfalse
        | some change =>
          rw [update_viewOrder, update_list]
          refine viewOrder_modified h htells.2.1 hnodup hmodifies (fun hp' => ?_) hclean
          have hfalse := hperm.mpr hp'
          rw [hmodifies] at hfalse
          cases hfalse
      · rw [Bool.not_eq_true] at hmodifies
        obtain ⟨h1, h2, h3⟩ := update_unmodified (s := s)
          { s.list with children := new, childSet := new.toFinset, childSetModified := s.list.modifies p }
          hmodifies change
        have hp' := hperm.mp hmodifies
        refine viewOrder_permuted h ?_ ?_ h1 h2 (by rw [h3]) (update_viewOrder _ _) hclean
        · rw [update_list]
          exact hp'
        · rw [update_list]
          exact hkeeps new hperform hp'

/-! ### To the front and to the back -/

/-- What the list tells when a node leaves its place and comes back. -/
def ToldTwice (check : N → Except JavaException Unit) (node : N) (c : ChildrenCall N)
    (removal addition : Option (Change N)) (s : Parent N G V) : Prop :=
  Told check (.remove node) removal (s.setTrigger true) ∧
    Told check c addition ((s.setTrigger true).call check (.remove node) removal)

theorem Inv.replace {node : N}
    {removal addition : Option (Change N)} {p : Proposal N} {new : List N} (h : Inv getPeer s)
    (hnode : node ∈ s.list.children) (htold : ToldTwice check node c removal addition s)
    (hp : c.proposal (s.list.children.erase node) = some p) (hc : c.perform (s.list.children.erase node) = .ok new)
    (hperm : new.Perm s.list.children) (hkeeps : KeepsOrder s new) :
    Inv getPeer (s.replace check node c removal addition) := by
  have hfirst : (s.setTrigger true).list.call check (.remove node) = (.ok (), { s.list with
          children := s.list.children.erase node, childSetModified := false, childrenTriggerPermutation := true }) :=
    Children.call_triggered check rfl (if_pos hnode) rfl
  have h₁ := htold.1 _ hfirst
  have htold₂ := htold.2
  rw [call_ok hfirst] at htold₂
  have hsecond : ((s.setTrigger true).update { s.list with
          children := s.list.children.erase node, childSetModified := false, childrenTriggerPermutation := true }
        removal).list.call check c
      = (.ok (), { s.list with children := new, childSetModified := false, childrenTriggerPermutation := true }) := by
    rw [update_list]
    exact Children.call_triggered check rfl hp hc
  have h₂ := htold₂ _ hsecond
  have hpeer : PeerCurrent getPeer (s.setTrigger true) := ⟨h.peer.start, h.peer.clean⟩
  have hpeer₂ := (hpeer.update h₁).update h₂
  obtain ⟨hcache₁, hdirty₁, hsame₁⟩ := update_unmodified (s := s.setTrigger true) { s.list with
      children := s.list.children.erase node, childSetModified := false, childrenTriggerPermutation := true } rfl removal
  obtain ⟨hcache₂, hdirty₂, hsame₂⟩ := update_unmodified (s := (s.setTrigger true).update { s.list with
      children := s.list.children.erase node, childSetModified := false, childrenTriggerPermutation := true } removal)
    { s.list with children := new, childSetModified := false, childrenTriggerPermutation := true } rfl addition
  have heq : s.replace check node c removal addition = (((s.setTrigger true).update { s.list with
      children := s.list.children.erase node, childSetModified := false, childrenTriggerPermutation := true }
        removal).update { s.list with children := new, childSetModified := false, childrenTriggerPermutation := true }
        addition).setTrigger false := by
    rw [Parent.replace, call_ok hfirst, call_ok hsecond]
  have hlist : (s.replace check node c removal addition).list
      = { s.list with children := new, childSetModified := false, childrenTriggerPermutation := false } := by
    rw [heq, setTrigger, update_list]
  refine ⟨?_, ?_, ?_, ?_⟩
  · rw [hlist]
    refine ⟨hperm.nodup_iff.mpr h.consistent.nodup, ?_⟩
    rw [show s.list.childSet = s.list.children.toFinset from h.consistent.childSet]
    exact toFinset_eq_of_perm _ _ hperm.symm
  · rw [hlist]
  · rw [heq]
    exact ⟨hpeer₂.start, hpeer₂.clean⟩
  · refine viewOrder_permuted h ?_ ?_ ?_ ?_ ?_ ?_
    · rw [hlist]
      exact hperm
    · rw [hlist]
      exact hkeeps
    · rw [heq]
      exact hcache₂.trans hcache₁
    · rw [heq]
      exact hdirty₂.trans hdirty₁
    · rw [heq]
      show ((((s.setTrigger true).update _ removal).update _ addition).peer).viewOrderChildren = _
      rw [hsame₂, hsame₁]
      rfl
    · rw [heq]
      show (((s.setTrigger true).update _ removal).update _ addition).viewOrder = _
      rw [update_viewOrder, update_viewOrder]
      rfl

/-! ### View orders -/

omit [DecidableEq N] [Zero V] in
theorem ties_eq (viewOrder : N → V) (x : N) (l : List N) :
    ties (above viewOrder) x l = l.filter fun n => viewOrder n = viewOrder x := by
  refine filter_congr fun n _ => ?_
  rw [Bool.eq_iff_iff, Bool.and_eq_true, above_iff, above_iff, decide_eq_true_eq]
  exact ⟨fun h => le_antisymm h.1 h.2, fun h => ⟨h.le, h.ge⟩⟩

omit [DecidableEq N] in
theorem viewOrderOf_congr {viewOrder' : N → V}
    (h : ∀ n ∈ children, viewOrder' n = viewOrder n) : viewOrderOf viewOrder' children =
      viewOrderOf viewOrder children := by
  by_cases hzero : ∀ n ∈ children, viewOrder n = 0
  · rw [viewOrderOf_eq_nil_iff.mpr hzero, viewOrderOf_eq_nil_iff.mpr fun n hn => (h n hn).trans (hzero n hn)]
  · have hzero' : ¬ ∀ n ∈ children, viewOrder' n = 0 := fun hz => hzero fun n hn => (h n hn).symm.trans (hz n hn)
    rw [viewOrderOf_of_not_zero hzero, viewOrderOf_of_not_zero hzero']
    have hsorted := sorted_sort viewOrder children
    have hsorted' := sorted_sort viewOrder' children
    have hmem : ∀ n, n ∈ sort viewOrder' children → viewOrder' n = viewOrder n :=
      fun n hn => h n (hsorted'.perm.mem_iff.mp hn)
    refine hsorted.unique ⟨hsorted'.perm, ?_, ?_⟩ (KeepsTies.refl _)
    · refine hsorted'.decreasing.imp_of_mem fun ha hb hab => ?_
      rwa [← hmem _ ha, ← hmem _ hb]
    · intro x
      by_cases hx : ∃ y ∈ children, viewOrder y = viewOrder x
      · obtain ⟨y, hy, heq⟩ := hx
        have hstable := hsorted'.stable y
        rw [ties_eq, ties_eq] at hstable ⊢
        rw [← heq, ← h y hy]
        have hl : ∀ l : List N, (∀ n ∈ l, viewOrder' n = viewOrder n) →
            l.filter (fun n => viewOrder n = viewOrder' y) = l.filter (fun n => viewOrder' n = viewOrder' y) :=
          fun l hl => filter_congr fun n hn => by rw [hl n hn]
        rw [hl _ hmem, hl _ h, hstable]
      · rw [ties_eq, ties_eq, List.filter_eq_nil_iff.mpr, List.filter_eq_nil_iff.mpr]
        · exact fun n hn heq => hx ⟨n, hn, by simpa using heq⟩
        · exact fun n hn heq => hx ⟨n, hsorted'.perm.mem_iff.mp hn, by simpa using heq⟩

theorem Inv.setViewOrder (h : Inv getPeer s) (node : N) (value : V) : Inv getPeer (s.setViewOrder node value) := by
  unfold Parent.setViewOrder
  dsimp only
  split
  · exact ⟨h.consistent, h.idle, ⟨h.peer.start, h.peer.clean⟩, fun hclean => by cases hclean⟩
  · next hnode =>
      refine ⟨h.consistent, h.idle, ⟨h.peer.start, h.peer.clean⟩, fun hclean => ?_⟩
      obtain ⟨hcache, hmap⟩ := h.viewOrder hclean
      have hsame : ∀ n ∈ s.list.children, Function.update s.viewOrder node value n = s.viewOrder n := by
        intro n hn
        refine Function.update_of_ne (fun heq => hnode ?_) _ _
        rw [← heq]
        exact hn
      exact ⟨hcache.trans (viewOrderOf_congr hsame).symm, hmap⟩

/-! ### Picking -/

theorem Inv.getOrderedChildren (h : Inv getPeer s) : s.getOrderedChildren.1
    = if (viewOrderOf s.viewOrder s.list.children).isEmpty then s.list.children
      else viewOrderOf s.viewOrder s.list.children := by
  unfold Parent.getOrderedChildren
  by_cases hdirty : s.viewOrderDirty = true
  · rw [if_pos hdirty]
    rfl
  · rw [if_neg hdirty]
    dsimp only
    rw [(h.viewOrder (by simpa using hdirty)).1]

theorem Inv.pick (h : Inv getPeer s) : Inv getPeer s.getOrderedChildren.2 := by
  unfold Parent.getOrderedChildren
  by_cases hdirty : s.viewOrderDirty = true
  · rw [if_pos hdirty]
    refine ⟨h.consistent, h.idle, ⟨h.peer.start, h.peer.clean⟩, fun hclean => ?_⟩
    rw [show (s.computeViewOrderChildren).viewOrderDirty = s.viewOrderDirty from rfl, hdirty] at hclean
    cases hclean
  · rw [if_neg hdirty]
    exact h

/-! ### The update of the peer -/

omit [DecidableEq N] in
theorem addPeers_ok (getPeer : N → G) (children : List N) : ∀ (g : NGGroup G),
    addPeers getPeer g.children.length children g =
      .ok { g with children := g.children ++ children.map getPeer } := by
  induction children with
  | nil =>
    intro g
    rw [addPeers, map_nil, append_nil]
  | cons child children ih =>
    intro g
    have hadd : g.add g.children.length (getPeer child) = .ok { g with children := g.children ++ [getPeer child] } := by
      unfold NGGroup.add
      rw [if_neg (by omega), if_neg (by omega), Int.toNat_natCast, take_length, drop_length]
    have hnext := ih { g with children := g.children ++ [getPeer child] }
    have hlist : g.children ++ (child :: children).map getPeer
        = g.children ++ [getPeer child] ++ children.map getPeer := by simp
    rw [addPeers, hadd, hlist, ← hnext, length_append]
    rfl

omit [DecidableEq N] in
theorem clearFrom_ok {g : NGGroup G} (hk : k ≤ g.children.length) :
    g.clearFrom k = .ok { g with children := g.children.take k } := by
  unfold NGGroup.clearFrom
  split
  · rfl
  · rw [take_of_length_le (by omega)]

/-- What the peer has after an update. -/
structure Updated (getPeer : N → G) (s s' : Parent N G V) : Prop where
  list : s'.list = s.list
  viewOrder : s'.viewOrder = s.viewOrder
  children : s'.peer.children = s.list.children.map getPeer
  viewOrderChildren : s'.peer.viewOrderChildren = (viewOrderOf s.viewOrder s.list.children).map getPeer

omit [LinearOrder V] [Zero V] in
/-- The children of the peer are replaced from `startIdx` on. -/
theorem updateChildren_ok (h : PeerCurrent getPeer s) : ∃ peer startIdx,
    s.updateChildren getPeer = .ok { s with peer, startIdx } ∧ peer.viewOrderChildren = s.peer.viewOrderChildren ∧
      peer.children = s.list.children.map getPeer ∧ Synced getPeer startIdx s.list.children peer.children := by
  obtain ⟨k, hk, hle, hle', htake⟩ := id h.start
  unfold updateChildren
  by_cases hdirty : s.childrenDirty = true
  · have hadd := addPeers_ok getPeer (s.list.children.drop k) { s.peer with children := s.peer.children.take k }
    have hall : s.peer.children.take k ++ (s.list.children.drop k).map getPeer = s.list.children.map getPeer := by
      rw [htake, ← map_append, take_append_drop]
    rw [length_take_of_le hle', hall] at hadd
    refine ⟨{ s.peer with children := s.list.children.map getPeer }, s.list.children.length, ?_, rfl, rfl,
      s.list.children.length, rfl, Nat.le_refl _, ?_, ?_⟩
    · rw [if_pos hdirty, hk, clearFrom_ok hle', Int.toNat_natCast]
      show (addPeers _ _ _ _).map _ = _
      rw [hadd]
      rfl
    · rw [length_map]
    · rw [map_take]
  · rw [if_neg hdirty]
    exact ⟨s.peer, s.startIdx, rfl, rfl, h.clean (by simpa using hdirty), h.start⟩

/-- **An update of the peer** goes through. -/
theorem Inv.doUpdatePeer (h : Inv getPeer s) :
    ∃ s', s.doUpdatePeer getPeer = .ok s' ∧ Inv getPeer s' ∧ Updated getPeer s s' := by
  obtain ⟨peer, startIdx, hs, hpvo, hpeer, hstart⟩ := updateChildren_ok h.peer
  by_cases hdirty : s.viewOrderDirty = true
  · have hrun : s.doUpdatePeer getPeer = .ok { s.computeViewOrderChildren with
        peer := { peer with viewOrderChildren := (viewOrderOf s.viewOrder s.list.children).map getPeer },
        startIdx, childrenDirty := false, viewOrderDirty := false } := by
      rw [Parent.doUpdatePeer, hs, Except.map, updateViewOrder, if_pos hdirty]
      rfl
    exact ⟨_, hrun, ⟨h.consistent, h.idle, ⟨hstart, fun _ => hpeer⟩, fun _ => ⟨rfl, rfl⟩⟩, rfl, rfl, hpeer, rfl⟩
  · have hrun : s.doUpdatePeer getPeer
        = .ok { s with peer, startIdx, childrenDirty := false, viewOrderDirty := false } := by
      rw [Parent.doUpdatePeer, hs, Except.map, updateViewOrder, if_neg hdirty]
    obtain ⟨hcache, hmap⟩ := h.viewOrder (by simpa using hdirty)
    have hsame : peer.viewOrderChildren = s.viewOrderChildren.map getPeer := hpvo.trans hmap
    exact ⟨_, hrun, ⟨h.consistent, h.idle, ⟨hstart, fun _ => hpeer⟩, fun _ => ⟨hcache, hsame⟩⟩, rfl, rfl, hpeer,
      hcache ▸ hsame⟩

/-! ### Runs -/

/-- What can happen to a parent. -/
inductive Action (N V : Type)
  | call (check : N → Except JavaException Unit) (c : ChildrenCall N) (change : Option (Change N))
  | toFront (check : N → Except JavaException Unit) (node : N) (removal addition : Option (Change N))
  | toBack (check : N → Except JavaException Unit) (node : N) (removal addition : Option (Change N))
  | setViewOrder (node : N) (value : V)
  | pick
  | updatePeer

namespace Action

def run (getPeer : N → G) (s : Parent N G V) : Action N V → Except JavaException (Parent N G V)
  | .call check c change => .ok (s.call check c change)
  | .toFront check node removal addition => .ok (s.toFront check node removal addition)
  | .toBack check node removal addition => .ok (s.toBack check node removal addition)
  | .setViewOrder node value => .ok (s.setViewOrder node value)
  | .pick => .ok s.getOrderedChildren.2
  | .updatePeer => s.doUpdatePeer getPeer

/-- The list tells of the call what happened, and only a child is brought to the front or to the back. -/
def Possible (s : Parent N G V) : Action N V → Prop
  | .call check c change => Told check c change s
  | .toFront check node removal addition =>
    node ∈ s.list.children ∧ ToldTwice check node (.add node) removal addition s
  | .toBack check node removal addition =>
    node ∈ s.list.children ∧ ToldTwice check node (.addAt 0 node) removal addition s
  | .setViewOrder _ _ | .pick | .updatePeer => True

/-- The call has no index outside of the list, and when the children only change places, those of
one view order stay in their order. -/
def Steady (s : Parent N G V) : Action N V → Prop
  | .call _ c _ => c.InRange s.list.children ∧
    ∀ new, c.perform s.list.children = .ok new → new.Perm s.list.children → KeepsOrder s new
  | .toFront _ node _ _ => KeepsOrder s (s.list.children.erase node ++ [node])
  | .toBack _ node _ _ => KeepsOrder s (node :: s.list.children.erase node)
  | .setViewOrder _ _ | .pick | .updatePeer => True

end Action

theorem Inv.run {a : Action N V} (h : Inv getPeer s) (hpossible : a.Possible s) (hsteady : a.Steady s)
    (hrun : a.run getPeer s = .ok s') : Inv getPeer s' := by
  cases a with
  | call check c change =>
    cases hrun
    exact h.call hpossible hsteady.1 hsteady.2
  | toFront check node removal addition =>
    cases hrun
    unfold Parent.toFront
    split
    · exact h.replace hpossible.1 hpossible.2 rfl rfl
        (List.perm_append_comm.trans (perm_cons_erase hpossible.1).symm) hsteady
    · exact h
  | toBack check node removal addition =>
    cases hrun
    unfold Parent.toBack
    split
    · refine h.replace hpossible.1 hpossible.2 rfl ?_ (perm_cons_erase hpossible.1).symm hsteady
      rfl
    · exact h
  | setViewOrder node value =>
    cases hrun
    exact h.setViewOrder node value
  | pick =>
    cases hrun
    exact h.pick
  | updatePeer =>
    obtain ⟨s₁, hs₁, hinv, -⟩ := h.doUpdatePeer
    obtain rfl := Except.ok.inj (hs₁.symm.trans hrun)
    exact hinv

/-- The parents that allowed actions lead to. -/
inductive Run (getPeer : N → G) (allowed : Parent N G V → Action N V → Prop) : Parent N G V → Prop
  | new (viewOrder : N → V) : Run getPeer allowed { viewOrder }
  | step {s s' : Parent N G V} (a : Action N V) (h : Run getPeer allowed s) (hpossible : a.Possible s)
      (hallowed : allowed s a) (hrun : a.run getPeer s = .ok s') : Run getPeer allowed s'

theorem Run.inv (h : Run getPeer (fun s a => a.Steady s) s) : Inv getPeer s := by
  induction h with
  | new viewOrder => exact inv_new viewOrder
  | step a _ hpossible hsteady hrun ih => exact ih.run hpossible hsteady hrun

/-- What the parent owes at every moment: the list for picking is sorted, and the next update of
the peer goes through and leaves it with the children, and with the same sorted list or none. -/
structure InOrder (getPeer : N → G) (s : Parent N G V) : Prop where
  sorted : Sorted s.viewOrder s.list.children s.getOrderedChildren.1
  updated : ∃ s', s.doUpdatePeer getPeer = .ok s' ∧ s'.peer.children = s.list.children.map getPeer ∧
    (s'.peer.viewOrderChildren = s.getOrderedChildren.1.map getPeer ∨
      s'.peer.viewOrderChildren = [] ∧ ∀ n ∈ s.list.children, s.viewOrder n = 0)

/-- **In a steady run the children are in order** at every moment. -/
theorem inOrder_of_steady (h : Run getPeer (fun s a => a.Steady s) s) : InOrder getPeer s where
  sorted := by
    rw [h.inv.getOrderedChildren]
    exact sorted_viewOrderOf s.viewOrder s.list.children
  updated := by
    obtain ⟨s', hs', -, hupdated⟩ := h.inv.doUpdatePeer
    refine ⟨s', hs', hupdated.children, ?_⟩
    rw [hupdated.viewOrderChildren, h.inv.getOrderedChildren]
    by_cases hzero : ∀ n ∈ s.list.children, s.viewOrder n = 0
    · exact .inr ⟨by rw [viewOrderOf_eq_nil_iff.mpr hzero]; rfl, hzero⟩
    · have hne : viewOrderOf s.viewOrder s.list.children ≠ [] := fun hnil => hzero (viewOrderOf_eq_nil_iff.mp hnil)
      exact .inl (by rw [if_neg (by simpa using hne)])

/-! ### Three children -/

omit [LinearOrder V] [Zero V] in
theorem told_ok {change : Option (Change N)} (list : Children N) (h : s.list.call check c = (.ok (), list))
    (htells : Tells (c.proposal s.list.children).isSome s.list.children list.children change) :
    Told check c change s := by
  intro list' h'
  obtain rfl := (Prod.mk.inj (h.symm.trans h')).2
  exact htells

/-- The children 1, 2 and 3, of which 1 is behind the others, and their peers. -/
def threeChildren : Parent Nat Nat Int where
  list := { children := [1, 2, 3], childSet := {1, 2, 3}, childSetModified := true }
  viewOrder := fun n => if n = 1 then 1 else 0
  viewOrderChildren := [1, 2, 3]
  startIdx := 3
  childrenDirty := false
  viewOrderDirty := false
  peer := { children := [1, 2, 3], viewOrderChildren := [1, 2, 3] }

theorem viewOrderOf_threeChildren : viewOrderOf threeChildren.viewOrder [1, 2, 3] = [1, 2, 3] := by
  rw [viewOrderOf, if_pos (by decide), sort, mergeSort_of_pairwise (by decide)]

theorem run_threeChildren {allowed : Parent Nat Nat Int → Action Nat Int → Prop}
    (hallowed : ∀ s a, a.Steady s → allowed s a) : Run id allowed threeChildren := by
  let check : Nat → Except JavaException Unit := fun _ => .ok ()
  let added : Change Nat := ⟨[1, 2, 3], [⟨0, 3, some [], [], false⟩]⟩
  have h₁ : Run id allowed _ := .step (.call check (.addAll [1, 2, 3]) (some added))
    (.new threeChildren.viewOrder) ?_ (hallowed _ _ ⟨trivial, ?_⟩) rfl
  · have hrun : Action.updatePeer.run id (Parent.call check (.addAll [1, 2, 3]) (some added)
          ({ viewOrder := threeChildren.viewOrder } : Parent Nat Nat Int))
        = .ok { threeChildren with
            viewOrderChildren := viewOrderOf threeChildren.viewOrder [1, 2, 3]
            peer := ⟨[1, 2, 3], (viewOrderOf threeChildren.viewOrder [1, 2, 3]).map id⟩ } := rfl
    rw [viewOrderOf_threeChildren] at hrun
    exact .step .updatePeer h₁ trivial (hallowed _ _ trivial) hrun
  · refine told_ok { children := [1, 2, 3], childSet := {1, 2, 3}, childSetModified := true } rfl
      ⟨rfl, ⟨rfl, ?_, by decide, by decide⟩, by decide⟩
    rintro r hr
    obtain rfl := List.mem_singleton.mp hr
    exact ⟨rfl, rfl, rfl⟩
  · rintro new ⟨⟩ hperm
    cases hperm.length_eq

theorem inOrder_threeChildren : InOrder id threeChildren := inOrder_of_steady (run_threeChildren fun _ _ h => h)

/-- What the list tells when the second child is brought to the front. -/
def leaving : Change Nat := ⟨[1, 3], [⟨1, 1, some [2], [], false⟩]⟩

def returning : Change Nat := ⟨[1, 3, 2], [⟨2, 3, some [], [], false⟩]⟩

theorem possible_toFront : (Action.toFront (fun _ => .ok ()) 2 (some leaving) (some returning)).Possible
    threeChildren := by
  refine ⟨by decide, told_ok { children := [1, 3], childSet := {1, 2, 3}, childrenTriggerPermutation := true }
      rfl ⟨rfl, ⟨rfl, ?_, by decide, by decide⟩, by decide⟩,
    told_ok { children := [1, 3, 2], childSet := {1, 2, 3}, childrenTriggerPermutation := true }
      rfl ⟨rfl, ⟨rfl, ?_, by decide, by decide⟩, by decide⟩⟩
  · intro r hr
    obtain rfl := List.mem_singleton.mp hr
    exact ⟨rfl, rfl, rfl⟩
  · intro r hr
    obtain rfl := List.mem_singleton.mp hr
    exact ⟨rfl, rfl, rfl⟩

/-- The second child comes in front of the third, but the sorted list stays as it is. -/
theorem toFront_out_of_order : ∃ s : Parent Nat Nat Int, Run id (fun _ _ => True) s ∧ ¬ InOrder id s := by
  refine ⟨_, .step _ (run_threeChildren fun _ _ _ => trivial) possible_toFront trivial rfl, fun h => ?_⟩
  have hties := h.sorted.stable 2
  cases hties

end Parent

end JavaFX.ViewOrder
