/-
The structure of the scene graph.

While the listener on the children of a parent is at work, the list is the new one, but not every node
in it has its new parent; the nodes that do are `present`.  Everything else is as it should be at any
moment, also when a node is taken away from another parent.  At the end the present nodes are the ones
in the list, because every node that the call added is announced to the listener.
-/
import JavaFX.Scene.SceneGraph
import JavaFX.Proofs.Scene.ChildrenList
import JavaFX.Lib.Acyclic

namespace JavaFX.SceneGraph

open List Function

variable {N : Type} [DecidableEq N]

namespace Graph

variable {s : Graph N}

/-- One node is a child of the other. -/
def ChildOf (s : Graph N) (a b : N) : Prop := s.getParent a = some b

structure Inv (s : Graph N) : Prop where
  consistent : ∀ p, (s.children p).Consistent
  idle : ∀ p, (s.children p).childrenTriggerPermutation = false
  notNull : ∀ p, none ∉ (s.children p).children
  /-- A node is in the list of its parent, and in no other one. -/
  linked : ∀ n p, s.getParent n = some p ↔ some n ∈ (s.children p).children
  acyclic : Acyclic s.ChildOf

theorem inv_new : Inv ({} : Graph N) where
  consistent p := ⟨nodup_nil, rfl⟩
  idle p := rfl
  notNull p := not_mem_nil
  linked n p := by simp
  acyclic x h := by
    obtain ⟨y, -, hy⟩ := Relation.TransGen.tail'_iff.mp h
    cases hy

/-! ### Calls on the list of one parent -/

variable {c : ChildrenCall (Option N)} {wouldCreateCycle : N → Bool} {n : N}

theorem letGo_unmodified {old list : Children (Option N)} (h : list.childSetModified = false) :
    letGo c old list = [] := by
  unfold letGo
  rw [h]
  split
  · rfl
  · rfl

theorem change_ok {p : N} {list : Children (Option N)}
    (h : (s.children p).call (check wouldCreateCycle) c = (.ok (), list)) (gone : List (Option N))
    (hgone : letGo c (s.children p) list = gone) : s.change wouldCreateCycle p c = (.ok (), {
      children := update s.children p list
      getParent := fun n => if some n ∈ gone ∧ s.getParent n = some p then none else s.getParent n }) := by
  rw [change, h, ← hgone]

theorem change_ok_nil {p : N} {list : Children (Option N)}
    (h : (s.children p).call (check wouldCreateCycle) c = (.ok (), list)) (hgone : letGo c (s.children p) list = []) :
    s.change wouldCreateCycle p c = (.ok (), { s with children := update s.children p list }) := by
  rw [change_ok h [] hgone]
  simp only [not_mem_nil, false_and, if_false]

theorem foldl_onChanged_unmodified {p : N} (fired : List (Change (Option N)))
    (h : (s.children p).childSetModified = false) : fired.foldl (onChanged p) s = s := by
  induction fired with
  | nil => rfl
  | cons c fired ih =>
    have hsame : s.onChanged p c = s := by rw [onChanged, if_neg (by simp [h])]
    rw [foldl_cons, hsame, ih]

theorem call_unmodified {p : N} {list : Children (Option N)}
    (h : (s.children p).call (check wouldCreateCycle) c = (.ok (), list)) (hlist : list.childSetModified = false) :
    s.call wouldCreateCycle p c = (.ok (), { s with children := update s.children p list }) := by
  rw [call, change_ok_nil h (letGo_unmodified hlist)]
  simp only
  rw [foldl_onChanged_unmodified]
  rw [show ({ s with children := update s.children p list } : Graph N).children p = list from
    update_self ..]
  exact hlist

theorem call_error {p : N} {ex : JavaException}
    {list : Children (Option N)} (h : (s.children p).call (check wouldCreateCycle) c = (.error ex, list)) :
    s.call wouldCreateCycle p c = (.error ex, { s with children := update s.children p list }) := by
  rw [call, change, h]

theorem call_ok {p : N} {s' : Graph N} (h : s.change wouldCreateCycle p c = (.ok (), s')) :
    s.call wouldCreateCycle p c
      = (.ok (), (c.fired (s.children p).children).foldl (onChanged p) s') := by
  rw [call, h]

omit [DecidableEq N] in
theorem check_of_checkEach {check : Option N → Except JavaException Unit} {es : List (Option N)}
    (h : Children.checkEach check es = .ok ()) : ∀ e ∈ es, check e = .ok () := by
  induction es with
  | nil => exact fun e he => absurd he not_mem_nil
  | cons e es ih =>
    rw [Children.checkEach] at h
    cases hes : Children.checkEach check es with
    | error ex => rw [hes] at h; cases h
    | ok _ =>
      rw [hes] at h
      intro x hx
      rcases List.mem_cons.mp hx with rfl | hx
      · exact h
      · exact ih hes x hx

/-! ### While the listener is at work -/

/-- The list of `p` is the new one; `present` are the nodes whose parent is `p`. -/
structure Pending (p : N) (list : Children (Option N)) (old s : Graph N) (present : N → Prop) : Prop where
  here : s.children p = list
  consistent : ∀ q, q ≠ p → (s.children q).Consistent
  idle : ∀ q, q ≠ p → (s.children q).childrenTriggerPermutation = false
  notNull : ∀ q, q ≠ p → none ∉ (s.children q).children
  linked : ∀ n q, q ≠ p → (s.getParent n = some q ↔ some n ∈ (s.children q).children)
  present : ∀ n, s.getParent n = some p ↔ present n
  /-- A node with another parent had this parent before. -/
  kept : ∀ n q, q ≠ p → s.getParent n = some q → old.getParent n = some q

/-- The node belongs to no other parent. -/
def Free (p : N) (s : Graph N) (n : Option N) : Prop := ∀ q, q ≠ p → s.parentOf n ≠ some q

variable {p : N} {list : Children (Option N)} {old : Graph N} {present : N → Prop}

theorem letGo_remove {o : Option N} {old list : Children (Option N)} (ho : o ∈ old.children)
    (h : list.childSetModified = true) : letGo (.remove o) old list = [o] := by
  unfold letGo
  split
  · next p hp =>
      rw [if_pos h]
      exact Proposal.removed_remove hp
  · next hnone =>
      rw [ChildrenCall.proposal, if_pos ho] at hnone
      cases hnone

theorem change_remove {q : N} (hconsistent : (s.children q).Consistent)
    (hidle : (s.children q).childrenTriggerPermutation = false) (hn : some n ∈ (s.children q).children)
    (hparent : s.getParent n = some q) : (s.change (fun _ => false) q (.remove (some n))).2 =
      { children := update s.children q ((s.children q).without (some n))
        getParent := update s.getParent n none } := by
  rw [change_ok (Children.call_remove _ hconsistent hidle hn) _ (letGo_remove hn rfl)]
  have hlinks : (fun m => if some m ∈ [some n] ∧ s.getParent m = some q then none else s.getParent m)
      = update s.getParent n none := by
    funext m
    by_cases hm : m = n
    · rw [hm, update_self, if_pos ⟨mem_singleton_self _, hparent⟩]
    · rw [update_of_ne hm, if_neg fun h => hm (Option.some.inj (List.mem_singleton.mp h.1))]
  rw [hlinks]

theorem Pending.takeOver (h : Pending p list old s present) (n : Option N) :
    Pending p list old (s.takeOver p n) present ∧ Free p (s.takeOver p n) n ∧
      ∀ m, Free p s m → Free p (s.takeOver p n) m := by
  unfold Graph.takeOver
  cases hparent : s.parentOf n with
  | none =>
    refine ⟨h, fun q _ hq => ?_, fun m hm => hm⟩
    rw [hparent] at hq
    cases hq
  | some q =>
    simp only
    by_cases hq : q = p
    · rw [if_pos hq]
      refine ⟨h, fun q' hq' hparent' => ?_, fun m hm => hm⟩
      obtain rfl := Option.some.inj (hparent.symm.trans hparent')
      exact hq' hq
    · rw [if_neg hq]
      obtain ⟨n, rfl, hn⟩ := Option.bind_eq_some_iff.mp hparent
      have hmem := (h.linked n q hq).mp hn
      rw [change_remove (h.consistent q hq) (h.idle q hq) hmem hn]
      have hconsistent := h.consistent q hq
      have hupdate : ∀ q' : N, q' ≠ q → update s.children q ((s.children q).without (some n)) q' = s.children q' :=
        fun q' hq' => update_of_ne hq' _ _
      have hlink : ∀ m : N, m ≠ n → update s.getParent n none m = s.getParent m :=
        fun m hm => update_of_ne hm _ _
      refine ⟨⟨?_, ?_, ?_, ?_, ?_, ?_, ?_⟩, ?_, ?_⟩
      · exact (hupdate p (Ne.symm hq)).trans h.here
      · intro q' hq'
        show (update s.children q ((s.children q).without (some n)) q').Consistent
        by_cases hqq : q' = q
        · rw [hqq, update_self]
          exact hconsistent.without _
        · rw [hupdate q' hqq]
          exact h.consistent q' hq'
      · intro q' hq'
        show (update s.children q ((s.children q).without (some n)) q').childrenTriggerPermutation = false
        by_cases hqq : q' = q
        · rw [hqq, update_self]
          exact h.idle q hq
        · rw [hupdate q' hqq]
          exact h.idle q' hq'
      · intro q' hq'
        show none ∉ (update s.children q ((s.children q).without (some n)) q').children
        by_cases hqq : q' = q
        · rw [hqq, update_self, hconsistent.mem_without]
          exact fun hnull => h.notNull q hq hnull.2
        · rw [hupdate q' hqq]
          exact h.notNull q' hq'
      · intro m q' hq'
        show update s.getParent n none m = some q' ↔
          some m ∈ (update s.children q ((s.children q).without (some n)) q').children
        by_cases hmn : m = n
        · rw [hmn]
          refine iff_of_false (by simp) ?_
          by_cases hqq : q' = q
          · rw [hqq, update_self, hconsistent.mem_without]
            exact fun hmem => hmem.1 rfl
          · rw [hupdate q' hqq, ← h.linked n q' hq', hn]
            simpa using Ne.symm hqq
        · rw [hlink m hmn, h.linked m q' hq']
          by_cases hqq : q' = q
          · rw [hqq, update_self, hconsistent.mem_without, and_iff_right (by simpa using hmn)]
          · rw [hupdate q' hqq]
      · intro m
        show update s.getParent n none m = some p ↔ present m
        by_cases hmn : m = n
        · rw [hmn, ← h.present, hn]
          simpa using hq
        · rw [hlink m hmn]
          exact h.present m
      · intro m q' hq' hm
        replace hm : update s.getParent n none m = some q' := hm
        by_cases hmn : m = n
        · rw [hmn, update_self] at hm
          cases hm
        · rw [hlink m hmn] at hm
          exact h.kept m q' hq' hm
      · intro q' _ hq'
        replace hq' : update s.getParent n none n = some q' := hq'
        rw [update_self] at hq'
        cases hq'
      · intro m hm q' hq' hm'
        obtain ⟨m, rfl, hm'⟩ := Option.bind_eq_some_iff.mp hm'
        replace hm' : update s.getParent n none m = some q' := hm'
        by_cases hmn : m = n
        · rw [hmn, update_self] at hm'
          cases hm'
        · rw [hlink m hmn] at hm'
          exact hm q' hq' hm'

theorem Pending.takeOverAll (nodes : List (Option N)) (h : Pending p list old s present) :
    Pending p list old (nodes.foldl (Graph.takeOver p) s) present ∧
      (∀ n ∈ nodes, Free p (nodes.foldl (Graph.takeOver p) s) n) ∧
      ∀ m, Free p s m → Free p (nodes.foldl (Graph.takeOver p) s) m := by
  induction nodes generalizing s with
  | nil => exact ⟨h, fun n hn => absurd hn not_mem_nil, fun m hm => hm⟩
  | cons n nodes ih =>
    obtain ⟨hpending, hfree, hkeeps⟩ := h.takeOver n
    obtain ⟨hpending', hfree', hkeeps'⟩ := ih hpending
    refine ⟨hpending', fun m hm => ?_, fun m hm => hkeeps' m (hkeeps m hm)⟩
    rcases List.mem_cons.mp hm with rfl | hm
    · exact hkeeps' m hfree
    · exact hfree' m hm

theorem Pending.setParent (h : Pending p list old s present) {n : Option N} (hfree : Free p s n) :
    Pending p list old (s.setParent p n) (fun m => present m ∨ n = some m) ∧
      ∀ m, Free p s m → Free p (s.setParent p n) m := by
  cases n with
  | none =>
    refine ⟨⟨h.here, h.consistent, h.idle, h.notNull, h.linked, fun m => ?_, h.kept⟩, fun m hm => hm⟩
    rw [or_iff_left (by simp)]
    exact h.present m
  | some n =>
    refine ⟨⟨h.here, h.consistent, h.idle, h.notNull, ?_, ?_, ?_⟩, ?_⟩
    · intro m q hq
      show update s.getParent n (some p) m = some q ↔ some m ∈ (s.children q).children
      by_cases hmn : m = n
      · subst hmn
        rw [← h.linked m q hq]
        exact iff_of_false (by simpa using Ne.symm hq) (hfree q hq)
      · rw [update_of_ne hmn]
        exact h.linked m q hq
    · intro m
      show update s.getParent n (some p) m = some p ↔ _
      by_cases hmn : m = n
      · simp [hmn]
      · rw [update_of_ne hmn, h.present, or_iff_left (by simpa using Ne.symm hmn)]
    · intro m q hq hm
      replace hm : update s.getParent n (some p) m = some q := hm
      by_cases hmn : m = n
      · rw [hmn, update_self] at hm
        exact absurd (Option.some.inj hm).symm hq
      · rw [update_of_ne hmn] at hm
        exact h.kept m q hq hm
    · intro m hm q hq hm'
      obtain ⟨m, rfl, hm'⟩ := Option.bind_eq_some_iff.mp hm'
      replace hm' : update s.getParent n (some p) m = some q := hm'
      by_cases hmn : m = n
      · rw [hmn, update_self] at hm'
        exact absurd (Option.some.inj hm').symm hq
      · rw [update_of_ne hmn] at hm'
        exact hm q hq hm'

theorem Pending.setParents (nodes : List (Option N)) (h : Pending p list old s present)
    (hfree : ∀ n ∈ nodes, Free p s n) :
    Pending p list old (nodes.foldl (Graph.setParent p) s) fun m => present m ∨ some m ∈ nodes := by
  induction nodes generalizing s present with
  | nil => exact ⟨h.here, h.consistent, h.idle, h.notNull, h.linked, fun m => by simpa using h.present m, h.kept⟩
  | cons n nodes ih =>
    obtain ⟨hpending, hkeeps⟩ := h.setParent (hfree n mem_cons_self)
    have hrest := ih hpending fun m hm => hkeeps m (hfree m (mem_cons_of_mem _ hm))
    refine ⟨hrest.here, hrest.consistent, hrest.idle, hrest.notNull, hrest.linked, fun m => ?_, hrest.kept⟩
    rw [foldl_cons, hrest.present, mem_cons, or_assoc, eq_comm]

theorem Pending.of_iff {present' : N → Prop} (h : Pending p list old s present) (hiff : ∀ n, present n ↔ present' n) :
    Pending p list old s present' :=
  ⟨h.here, h.consistent, h.idle, h.notNull, h.linked, fun n => (h.present n).trans (hiff n), h.kept⟩

theorem Pending.adopt (h : Pending p list old s present) (r : SubChange (Option N)) :
    Pending p list old (s.adopt p r) fun n => present n ∨
      some n ∈ (list.children.drop r.from.toNat).take (r.to - r.from).toNat := by
  unfold Graph.adopt
  rw [h.here]
  obtain ⟨hpending, hfree, -⟩ := h.takeOverAll ((list.children.drop r.from.toNat).take (r.to - r.from).toNat)
  exact hpending.setParents _ hfree

theorem Pending.records (records : List (SubChange (Option N))) (h : Pending p list old s present) :
    Pending p list old (records.foldl (Graph.adopt p) s) fun n => present n ∨
      ∃ r ∈ records, some n ∈ (list.children.drop r.from.toNat).take (r.to - r.from).toNat := by
  induction records generalizing s present with
  | nil => exact h.of_iff fun n => by simp
  | cons r records ih =>
    refine (ih (h.adopt r)).of_iff fun n => ?_
    simp only [mem_cons, exists_eq_or_imp, or_assoc]

/-- **The listener** makes children of the nodes that are announced, and of no others. -/
theorem Pending.onChangedAll (fired : List (Change (Option N))) (h : Pending p list old s present)
    (hmodified : list.childSetModified = true) :
    Pending p list old (fired.foldl (Graph.onChanged p) s) fun n => present n ∨
      ObservableListWrapper.Announced fired list.children (some n) := by
  induction fired generalizing s present with
  | nil => exact h.of_iff fun n => by simp [ObservableListWrapper.Announced]
  | cons c fired ih =>
    have hstep := h.records c.changes
    rw [← show s.onChanged p c = c.changes.foldl (Graph.adopt p) s by
      rw [Graph.onChanged, h.here, if_pos hmodified]] at hstep
    refine (ih hstep).of_iff fun n => ?_
    simp only [ObservableListWrapper.Announced, mem_cons, exists_eq_or_imp, or_assoc]

omit [DecidableEq N] in
theorem mem_of_announced {fired : List (Change (Option N))} {children : List (Option N)} {n : Option N}
    (h : ObservableListWrapper.Announced fired children n) : n ∈ children := by
  obtain ⟨c, -, r, -, hmem⟩ := h
  exact mem_of_mem_drop (mem_of_mem_take hmem)

/-! ### Calls -/

theorem Pending.done (h : Pending p list old s fun n => some n ∈ list.children) (hlist : list.Consistent)
    (hidle : list.childrenTriggerPermutation = false) (hnull : none ∉ list.children) (hacyclic : Acyclic s.ChildOf) :
    Inv s where
  consistent q := by
    by_cases hq : q = p
    · rw [hq, h.here]
      exact hlist
    · exact h.consistent q hq
  idle q := by
    by_cases hq : q = p
    · rw [hq, h.here]
      exact hidle
    · exact h.idle q hq
  notNull q := by
    by_cases hq : q = p
    · rw [hq, h.here]
      exact hnull
    · exact h.notNull q hq
  linked n q := by
    by_cases hq : q = p
    · rw [hq, h.here]
      exact h.present n
    · exact h.linked n q hq
  acyclic := hacyclic

/-- The list of one parent changes, and the links of its children that are let go are cleared. -/
theorem Inv.pending (h : Inv s) (p : N) (list : Children (Option N)) (gone : List (Option N)) : Pending p list s
      { children := update s.children p list
        getParent := fun n => if some n ∈ gone ∧ s.getParent n = some p then none else s.getParent n }
      fun n => some n ∈ (s.children p).children ∧ some n ∉ gone := by
  have hother : ∀ q, q ≠ p → update s.children p list q = s.children q :=
    fun q hq => update_of_ne hq _ _
  have hlink : ∀ n q, q ≠ p →
      ((if some n ∈ gone ∧ s.getParent n = some p then none else s.getParent n) = some q ↔ s.getParent n = some q) := by
    intro n q hq
    split
    · next hgone =>
        rw [hgone.2]
        simpa using Ne.symm hq
    · exact Iff.rfl
  refine ⟨update_self .., fun q hq => ?_, fun q hq => ?_, fun q hq => ?_, fun n q hq => ?_, fun n => ?_,
    fun n q hq hn => (hlink n q hq).mp hn⟩
  · show (update s.children p list q).Consistent
    rw [hother q hq]
    exact h.consistent q
  · show (update s.children p list q).childrenTriggerPermutation = false
    rw [hother q hq]
    exact h.idle q
  · show none ∉ (update s.children p list q).children
    rw [hother q hq]
    exact h.notNull q
  · show _ ↔ some n ∈ (update s.children p list q).children
    rw [hother q hq, ← h.linked n q]
    exact hlink n q hq
  · show (if some n ∈ gone ∧ s.getParent n = some p then none else s.getParent n) = some p ↔ _
    rw [← h.linked n p]
    split
    · next hgone => exact iff_of_false (by simp) fun hn => hn.2 hgone.1
    · next hgone => exact ⟨fun hn => ⟨hn, fun hmem => hgone ⟨hmem, hn⟩⟩, fun hn => hn.1⟩

theorem Inv.pending_self (h : Inv s) (p : N) : Pending p (s.children p) s s fun n =>
    some n ∈ (s.children p).children :=
  ⟨rfl, fun q _ => h.consistent q, fun q _ => h.idle q, fun q _ => h.notNull q, fun n q _ => h.linked n q,
    fun n => h.linked n p, fun _ _ _ hn => hn⟩

/-- A call that is refused leaves the lists, the sets and the links as they are. -/
structure Unchanged (s s' : Graph N) : Prop where
  children : ∀ p, (s'.children p).children = (s.children p).children
  childSet : ∀ p, (s'.children p).childSet = (s.children p).childSet
  getParent : s'.getParent = s.getParent

theorem Inv.permute (h : Inv s) (p : N) {list : Children (Option N)} (hlist : list.Consistent)
    (hidle : list.childrenTriggerPermutation = false) (hperm : list.children.Perm (s.children p).children) :
    Inv { s with children := update s.children p list } := by
  have hmem : ∀ q n, n ∈ (update s.children p list q).children ↔ n ∈ (s.children q).children := by
    intro q n
    by_cases hq : q = p
    · rw [hq, update_self]
      exact hperm.mem_iff
    · rw [update_of_ne hq]
  refine ⟨fun q => ?_, fun q => ?_, fun q hnull => ?_, fun n q => ?_, h.acyclic⟩
  · show (update s.children p list q).Consistent
    by_cases hq : q = p
    · rw [hq, update_self]
      exact hlist
    · rw [update_of_ne hq]
      exact h.consistent q
  · show (update s.children p list q).childrenTriggerPermutation = false
    by_cases hq : q = p
    · rw [hq, update_self]
      exact hidle
    · rw [update_of_ne hq]
      exact h.idle q
  · exact h.notNull q ((hmem q none).mp hnull)
  · exact (h.linked n q).trans (hmem q (some n)).symm

/-- What `wouldCreateCycle` answers: the node is the parent, or one of its ancestors. -/
def FindsCycles (s : Graph N) (p : N) (wouldCreateCycle : N → Bool) : Prop :=
  ∀ n, wouldCreateCycle n = true ↔ Relation.ReflTransGen s.ChildOf p n

/-- **A call in range** keeps the structure, and changes nothing if it is refused. -/
theorem Inv.call {p : N} (h : Inv s)
    (hcycles : FindsCycles s p wouldCreateCycle) (hrange : c.InRange (s.children p).children) :
    Inv (s.call wouldCreateCycle p c).2 ∧
      ∀ ex, (s.call wouldCreateCycle p c).1 = .error ex → Unchanged s (s.call wouldCreateCycle p c).2 := by
  rcases Children.call_cases (check wouldCreateCycle) (h.consistent p) (h.idle p) hrange with
    ⟨ex, b, hcall⟩ | ⟨hnone, -, hcall⟩ | ⟨pr, new, removed, hp, hperform, hdescribes, hnodup, hperm, hchecked, hcall⟩
  · -- refused
    rw [call_error hcall]
    refine ⟨h.permute p ⟨(h.consistent p).nodup, (h.consistent p).childSet⟩ (h.idle p) (List.Perm.refl _), fun _ _ => ?_⟩
    refine ⟨fun q => ?_, fun q => ?_, rfl⟩
    · show (update s.children p _ q).children = _
      by_cases hq : q = p
      · rw [hq, update_self]
      · rw [update_of_ne hq]
    · show (update s.children p _ q).childSet = _
      by_cases hq : q = p
      · rw [hq, update_self]
      · rw [update_of_ne hq]
  · -- nothing is proposed
    have hgone : letGo c (s.children p) (s.children p) = [] := by rw [letGo, hnone]
    have hsame : ({ s with children := update s.children p (s.children p) } : Graph N) = s := by
      rw [update_eq_self]
    have hchange := change_ok_nil hcall hgone
    rw [hsame] at hchange
    rw [call_ok hchange]
    refine ⟨?_, fun ex hex => by cases hex⟩
    cases hmodified : (s.children p).childSetModified with
    | false =>
      rw [foldl_onChanged_unmodified _ hmodified]
      exact h
    | true =>
      have hdone := ((h.pending_self p).onChangedAll (c.fired (s.children p).children) hmodified).of_iff fun n =>
        or_iff_left_of_imp mem_of_announced
      refine hdone.done (h.consistent p) (h.idle p) (h.notNull p) (h.acyclic.mono fun a b hab => ?_)
      by_cases hb : b = p
      · rw [hb] at hab ⊢
        exact (h.linked a p).mpr ((hdone.present a).mp hab)
      · exact hdone.kept a b hb hab
  · cases hmodifies : (s.children p).modifies pr with
    | false =>
      rw [hmodifies] at hcall
      rw [call_unmodified hcall rfl]
      exact ⟨h.permute p ⟨hnodup, rfl⟩ (h.idle p) (hperm.mp hmodifies), fun ex hex => by cases hex⟩
    | true =>
      rw [hmodifies] at hcall
      have hgone : letGo c (s.children p) { s.children p with
          children := new, childSet := new.toFinset, childSetModified := true } = removed := by
        rw [letGo, hp]
        exact Proposal.removed_eq hdescribes.taken
      rw [call_ok (change_ok hcall removed hgone)]
      refine ⟨?_, fun ex hex => by cases hex⟩
      obtain ⟨kept, hold, hnew⟩ := hdescribes.kept
      have hdisjoint : kept.Disjoint removed :=
        disjoint_of_nodup_append (hold.nodup_iff.mp (h.consistent p).nodup)
      have hadded := check_of_checkEach (hchecked hmodifies)
      have hpending := h.pending p { s.children p with
        children := new, childSet := new.toFinset, childSetModified := true } removed
      have hdone := (hpending.onChangedAll (c.fired (s.children p).children) rfl).of_iff fun n => by
        constructor
        · rintro (⟨hn, hnot⟩ | hn)
          · have hkept := (List.mem_append.mp (hold.mem_iff.mp hn)).resolve_right hnot
            exact hnew.mem_iff.mpr (mem_append_left _ hkept)
          · exact mem_of_announced hn
        · intro hn
          rcases List.mem_append.mp (hnew.mem_iff.mp hn) with hn | hn
          · exact .inl ⟨hold.mem_iff.mpr (mem_append_left _ hn), fun hn' => hdisjoint hn hn'⟩
          · exact .inr (ChildrenCall.announced hrange hp hperform hdescribes hnodup hn)
      refine hdone.done ⟨hnodup, rfl⟩ (h.idle p) (fun hnull => ?_) (h.acyclic.attach (p := p) fun a b hab => ?_)
      · rcases List.mem_append.mp (hnew.mem_iff.mp hnull) with hnull | hnull
        · exact h.notNull p (hold.mem_iff.mpr (mem_append_left _ hnull))
        · cases hadded none hnull
      · by_cases hb : b = p
        · subst hb
          rcases List.mem_append.mp (hnew.mem_iff.mp ((hdone.present a).mp hab)) with ha | ha
          · exact .inl ((h.linked a b).mpr (hold.mem_iff.mpr (mem_append_left _ ha)))
          · -- no ancestor of the parent is let in
            refine .inr ⟨rfl, fun hreached => ?_⟩
            have hrefused := hadded (some a) ha
            rw [check, if_pos ((hcycles a).mpr hreached)] at hrefused
            cases hrefused
        · exact .inl (hdone.kept a b hb hab)

/-! ### To the front and to the back -/

theorem setTrigger_children (p : N) (value : Bool) (s : Graph N) : (s.setTrigger p value).children p
    = { s.children p with childrenTriggerPermutation := value } := update_self ..

variable {pr : Proposal (Option N)} {new : List (Option N)}

/-- **A child changes its place.** -/
theorem replace_eq {p : N}
    (hn : some n ∈ (s.children p).children) (hc : c.proposal (((s.children p).without (some n)).children) = some pr)
    (hperform : c.perform (((s.children p).without (some n)).children) = .ok new) : s.replace p n c = (.ok (),
      { s with children := update s.children p { s.children p with
          children := new, childSetModified := false, childrenTriggerPermutation := false } }) := by
  have htrigger := setTrigger_children p true s
  have hfirst : ((s.setTrigger p true).children p).call (check fun _ => false) (.remove (some n)) = (.ok (), { s.children p with
      children := ((s.children p).without (some n)).children
      childSetModified := false
      childrenTriggerPermutation := true }) := by
    rw [htrigger]
    exact Children.call_triggered _ rfl (if_pos hn) rfl
  have hcall := call_unmodified hfirst rfl
  obtain ⟨s₁, hs₁⟩ : ∃ s₁, s₁ = { s.setTrigger p true with
      children := update (s.setTrigger p true).children p { s.children p with
        children := ((s.children p).without (some n)).children
        childSetModified := false
        childrenTriggerPermutation := true } } := ⟨_, rfl⟩
  rw [← hs₁] at hcall
  have hat : s₁.children p = { s.children p with
      children := ((s.children p).without (some n)).children
      childSetModified := false
      childrenTriggerPermutation := true } := by
    rw [hs₁]
    exact update_self ..
  have hsecond : (s₁.children p).call (check fun _ => false) c = (.ok (), { s.children p with
      children := new, childSetModified := false, childrenTriggerPermutation := true }) := by
    rw [hat]
    exact Children.call_triggered _ rfl hc hperform
  have hcall₂ := call_unmodified hsecond rfl
  rw [replace, hcall]
  simp only
  rw [hcall₂, hs₁]
  simp only [setTrigger, update_self, update_idem]

theorem Inv.replace {p : N} (h : Inv s)
    (hn : some n ∈ (s.children p).children) (hc : c.proposal (((s.children p).without (some n)).children) = some pr)
    (hperform : c.perform (((s.children p).without (some n)).children) = .ok new)
    (hperm : new.Perm (some n :: ((s.children p).without (some n)).children)) :
    Inv (s.replace p n c).2 ∧ (s.replace p n c).1 = .ok () := by
  rw [replace_eq hn hc hperform]
  have hsame : new.Perm (s.children p).children := hperm.trans (Children.perm_without hn)
  refine ⟨h.permute p ⟨hsame.nodup_iff.mpr (h.consistent p).nodup, ?_⟩ rfl hsame, rfl⟩
  rw [show (s.children p).childSet = (s.children p).children.toFinset from (h.consistent p).childSet]
  exact toFinset_eq_of_perm _ _ hsame.symm

theorem Inv.toFront (h : Inv s) (n : N) : Inv (s.toFront n).2 ∧ (s.toFront n).1 = .ok () := by
  unfold Graph.toFront
  cases hparent : s.getParent n with
  | none => exact ⟨h, rfl⟩
  | some p =>
    simp only
    split
    · exact h.replace ((h.linked n p).mp hparent) rfl rfl perm_append_comm
    · exact ⟨h, rfl⟩

theorem Inv.toBack (h : Inv s) (n : N) : Inv (s.toBack n).2 ∧ (s.toBack n).1 = .ok () := by
  unfold Graph.toBack
  cases hparent : s.getParent n with
  | none => exact ⟨h, rfl⟩
  | some p =>
    simp only
    split
    · refine h.replace ((h.linked n p).mp hparent) rfl ?_ (List.Perm.refl _)
      rfl
    · exact ⟨h, rfl⟩

/-! ### Runs -/

/-- A call on the list of a parent, with what `wouldCreateCycle` answers meanwhile, or a change of place. -/
inductive Action (N : Type)
  | call (wouldCreateCycle : N → Bool) (p : N) (c : ChildrenCall (Option N))
  | toFront (n : N)
  | toBack (n : N)

namespace Action

def run (s : Graph N) : Action N → Except JavaException Unit × Graph N
  | .call wouldCreateCycle p c => s.call wouldCreateCycle p c
  | .toFront n => s.toFront n
  | .toBack n => s.toBack n

/-- `wouldCreateCycle` finds the cycles. -/
def Possible (s : Graph N) : Action N → Prop
  | .call wouldCreateCycle p _ => FindsCycles s p wouldCreateCycle
  | .toFront _ | .toBack _ => True

/-- A call has no index outside of the list. -/
def InRange (s : Graph N) : Action N → Prop
  | .call _ p c => c.InRange (s.children p).children
  | .toFront _ | .toBack _ => True

end Action

theorem Inv.run {a : Action N} (h : Inv s) (hpossible : a.Possible s) (hrange : a.InRange s) :
    Inv (a.run s).2 ∧ ∀ ex, (a.run s).1 = .error ex → Unchanged s (a.run s).2 := by
  cases a with
  | call wouldCreateCycle p c => exact h.call hpossible hrange
  | toFront n =>
    obtain ⟨hinv, hok⟩ := h.toFront n
    refine ⟨hinv, fun ex hex => ?_⟩
    cases hok.symm.trans hex
  | toBack n =>
    obtain ⟨hinv, hok⟩ := h.toBack n
    refine ⟨hinv, fun ex hex => ?_⟩
    cases hok.symm.trans hex

/-- The scene graphs that allowed actions lead to, from nodes without children. -/
inductive Run (allowed : Graph N → Action N → Prop) : Graph N → Prop
  | new : Run allowed {}
  | step {s : Graph N} (a : Action N) (h : Run allowed s) (hpossible : a.Possible s) (hallowed : allowed s a) :
    Run allowed (a.run s).2

theorem Run.inv (h : Run (fun s a => a.InRange s) s) : Inv s := by
  induction h with
  | new => exact inv_new
  | step a _ hpossible hrange ih => exact (ih.run hpossible hrange).1

/-- The scene graph is a forest, and every set of children is right. -/
structure IsForest (s : Graph N) : Prop where
  childSet : ∀ p, (s.children p).childSet = (s.children p).children.toFinset
  nodup : ∀ p, (s.children p).children.Nodup
  getParent : ∀ n p, s.getParent n = some p ↔ some n ∈ (s.children p).children
  acyclic : Acyclic s.ChildOf

/-- A refused action changes nothing. -/
def Refuses (allowed : Graph N → Action N → Prop) (s : Graph N) : Prop :=
  ∀ a : Action N, a.Possible s → allowed s a → ∀ ex, (a.run s).1 = .error ex → Unchanged s (a.run s).2

/-- **In a run of calls in range** the scene graph is a forest at every moment, and a call that is
refused leaves it as it is. -/
theorem isForest_of_inRange (h : Run (fun s a => a.InRange s) s) : IsForest s ∧ Refuses (fun s a => a.InRange s) s :=
  ⟨⟨fun p => (h.inv.consistent p).childSet, fun p => (h.inv.consistent p).nodup, h.inv.linked, h.inv.acyclic⟩,
    fun _ hpossible hrange => (h.inv.run hpossible hrange).2⟩

/-! ### Two parents -/

theorem findsCycles_root {p : N} (hroot : s.getParent p = none) : FindsCycles s p fun n => n = p := by
  intro n
  rw [decide_eq_true_iff]
  constructor
  · rintro rfl
    exact .refl
  · intro h
    rcases Relation.ReflTransGen.cases_head h with heq | ⟨m, hm, -⟩
    · exact heq.symm
    · cases hroot.symm.trans hm

theorem findsCycles_child {p q : N} (hparent : s.getParent p = some q) (h : FindsCycles s q wouldCreateCycle) :
    FindsCycles s p fun n => n = p ∨ wouldCreateCycle n = true := by
  intro n
  rw [decide_eq_true_iff, h n]
  constructor
  · rintro (rfl | hn)
    · exact .refl
    · exact .head hparent hn
  · intro hn
    rcases Relation.ReflTransGen.cases_head hn with heq | ⟨m, hm, hrest⟩
    · exact .inl heq.symm
    · cases hparent.symm.trans hm
      exact .inr hrest

/-- A node with two children. -/
def addition : Action Nat := .call (fun n => n = 0) 0 (.addAll [some 1, some 2])

/-- Another node takes the second one over. -/
def takingOver : Action Nat := .call (fun n => n = 3) 3 (.addAt 0 (some 2))

/-- The first one is to have its own parent for a child. -/
def addingParent : Action Nat := .call (fun n => n = 1 ∨ decide (n = 0) = true) 1 (.add (some 0))

def twoParents : Graph Nat := (takingOver.run (addition.run {}).2).2

theorem run_twoParents : Run (fun s a => a.InRange s) twoParents := by
  have hroot : (addition.run {}).2.getParent 3 = none := by decide +kernel
  have hindex : takingOver.InRange (addition.run {}).2 := ⟨Int.le_refl 0, Int.natCast_nonneg _⟩
  have hadded : Run (fun s a => a.InRange s) (addition.run {}).2 := .step addition .new (findsCycles_root rfl) trivial
  exact .step takingOver hadded (findsCycles_root hroot) hindex

theorem isForest_twoParents :
    (twoParents.getParent 1 = some 0 ∧ twoParents.getParent 2 = some 3 ∧
      (addingParent.run twoParents).1 = .error .illegalArgument) ∧
    IsForest (addingParent.run twoParents).2 ∧ Refuses (fun s a => a.InRange s) (addingParent.run twoParents).2 := by
  have hparent : twoParents.getParent 1 = some 0 := by decide +kernel
  have hroot : twoParents.getParent 0 = none := by decide +kernel
  refine ⟨⟨hparent, by decide +kernel, by decide +kernel⟩,
    isForest_of_inRange (.step addingParent run_twoParents ?_ trivial)⟩
  exact findsCycles_child hparent (findsCycles_root hroot)

/-- An addition beyond the end of the list. -/
def additionBeyond : Action Nat := .call (fun n => n = 0) 0 (.addAt 5 (some 1))

theorem possible_additionBeyond : additionBeyond.Possible {} := findsCycles_root rfl

/-- The addition fails, but the set of children has the node. -/
theorem refused_but_kept : ∃ s : Graph Nat, Run (fun _ _ => True) s ∧
    ¬ (IsForest s ∧ Refuses (fun _ _ => True) s) := by
  refine ⟨_, .step additionBeyond .new possible_additionBeyond trivial, fun h => ?_⟩
  have hset := h.1.childSet 0
  revert hset
  decide

end Graph

end JavaFX.SceneGraph
