/-
The two parts of a tree, what it denotes and what dispatching visits.

A level that is dispatched loses the tail at its first leaf: `dispatchEvent` moves the tail
to the root before it saves the state, and what it restores is a tree without tail.  Only
the level above has a saved state with the tail in it.  What is visited is therefore the
tail below the first leaf of each level (`visited`), which is the tree denoted exactly if
no leaf has a sibling behind it.
-/
import JavaFX.Proofs.Event.EventDispatchTree.Merging

namespace JavaFX.EventDispatchTree

open Program List Option Function

variable {D E : Type} {t t' : EventDispatchTree D} {f below beside tail : Slots D} {a : Nat × D}
  {l : List (Nat × D)} {i : Nat}

/-! ### The two parts -/

/-- The root part is `f` and the tail is the chain `l`. -/
structure Parts (t : EventDispatchTree D) (f : Slots D) (l : List (Nat × D)) : Prop where
  rootIndex : t.rootIndex = first f
  tailFirstIndex : t.tailFirstIndex = first (.chain l)
  tailLastIndex : t.tailLastIndex = l.getLast?.map Prod.fst
  holds : Holds t.nodes none f
  holdsTail : Holds t.nodes none (.chain l)
  nodup : (indices f ++ indices (.chain l)).Nodup
  distinct : (dispatchersOf f).Distinct

@[simp] theorem indices_chain : indices (.chain l) = l.map Prod.fst := by
  simp [indices]

theorem shows_chain (hlast : t.tailLastIndex = l.getLast?.map Prod.fst)
    (h : Holds t.nodes none (.chain l)) : Shows t (.chain l) := by
  induction l with
  | nil => trivial
  | cons a l ih =>
    obtain ⟨hnode, hbelow, -⟩ := h
    cases l with
    | nil =>
      refine ⟨⟨none, by simpa [Forest.chain, first] using hnode, ?_⟩, trivial, trivial⟩
      simp [childOf, hlast, Forest.chain, first]
    | cons b l =>
      refine ⟨⟨some b.1, by simpa [Forest.chain, first] using hnode, by simp [childOf, Forest.chain, first]⟩,
        ih (by simpa using hlast) hbelow, trivial⟩

theorem shows_graft (htail : t.tailFirstIndex = first tail) (hshow : Shows t tail)
    (hlast : ∀ i ∈ indices f, some i ≠ t.tailLastIndex) (h : Holds t.nodes none f) :
    Shows t (Forest.graft tail f) := by
  induction f with
  | nil => trivial
  | cons a below beside ihc ihs =>
    obtain ⟨hnode, hbelow, hbeside⟩ := h
    simp only [indices_cons, mem_cons, mem_append] at hlast
    have hs := ihs (fun i hi => hlast i (.inr (.inr hi))) hbeside
    have hfirst : first (Forest.graft tail beside) = first beside := by
      rcases beside with _ | ⟨b, _ | c, d⟩ <;> rfl
    cases below with
    | nil =>
      refine ⟨⟨none, ?_, ?_⟩, hshow, hs⟩
      · rw [hfirst]
        simpa [first] using hnode
      · rw [childOf, if_pos ⟨rfl, hlast a.1 (.inl rfl)⟩, htail]
    | cons b c d =>
      refine ⟨⟨some b.1, ?_, ?_⟩, ihc (fun i hi => hlast i (.inr (.inl hi))) hbelow, hs⟩
      · rw [hfirst]
        simpa [first] using hnode
      · rcases c with _ | c <;> rfl

/-- What a tree with these parts denotes. -/
def whole (f tail : Forest D) : Forest D :=
  match f with
  | .nil => tail
  | .cons a below beside => Forest.graft tail (.cons a below beside)

namespace Parts

theorem hasTail (h : Parts t f l) : HasTail t (.chain l) where
  start := h.tailFirstIndex
  shows := shows_chain h.tailLastIndex h.holdsTail
  holds := h.holdsTail
  nodup := (List.nodup_append.mp h.nodup).2.1

theorem tail_free (h : Parts t f l) : ∀ i ∈ indices (.chain l), i ∉ indices f :=
  fun i hi hmem => (List.nodup_append.mp h.nodup).2.2 i hmem i hi rfl

theorem exists_shows (h : Parts t f l) : ∃ g, Shows t g ∧ first g = t.levelIndex ∧
    dispatchersOf g = whole (dispatchersOf f) (dispatchersOf (.chain l)) := by
  cases f with
  | nil =>
    refine ⟨.chain l, h.hasTail.shows, ?_, rfl⟩
    have hroot : t.rootIndex = none := h.rootIndex
    simp [levelIndex, hroot, h.tailFirstIndex]
  | cons a below beside =>
    refine ⟨Forest.graft (.chain l) (.cons a below beside), ?_, ?_, Forest.map_graft _ _ _⟩
    · refine shows_graft h.tailFirstIndex h.hasTail.shows ?_ h.holds
      intro i hi heq
      rw [h.tailLastIndex] at heq
      obtain ⟨b, hb, rfl⟩ := Option.map_eq_some_iff.mp heq.symm
      have hmem : b.1 ∈ indices (.chain l) := by
        rw [indices_chain]
        exact mem_map_of_mem (mem_of_getLast? hb)
      exact h.tail_free b.1 hmem hi
    · have hroot : t.rootIndex = some a.1 := h.rootIndex
      rw [levelIndex, hroot]
      rcases below with _ | b <;> rfl

theorem distinct_whole (h : Parts t f l) : (whole (dispatchersOf f) (dispatchersOf (.chain l))).Distinct := by
  have hchain : (dispatchersOf (.chain l)).Distinct := by
    rw [dispatchersOf, Forest.map_chain]
    exact Forest.distinct_chain _
  cases f with
  | nil => exact hchain
  | cons a below beside => exact Forest.distinct_graft hchain h.distinct

end Parts

/-! ### Building -/

theorem newSlot_spec (t : EventDispatchTree D) (d : D) : ∃ t₁ t₂ t₃, reserve t = (.ok t.nodes.length, t₁) ∧
      setDispatcher t.nodes.length (some d) t₁ = (.ok (), t₂) ∧
      setNextSibling t.nodes.length none t₂ = (.ok (), t₃) ∧ Keeps t t₃ [] ∧
      t₃.nodes[t.nodes.length]? = some ⟨some d, some 0, none⟩ := by
  set t₁ : EventDispatchTree D := { t with nodes := t.nodes ++ [⟨none, some 0, some 0⟩] } with ht₁
  have hkeep₁ : Keeps t t₁ [] := keeps_reserve t _
  have hnew₁ : t₁.nodes[t.nodes.length]? = some ⟨none, some 0, some 0⟩ := by simp [ht₁]
  obtain ⟨t₂, hset₂, hkeep₂, hnew₂, -⟩ := setDispatcher_spec (some d) hnew₁
  obtain ⟨t₃, hset₃, hkeep₃, hnew₃, -⟩ := setNextSibling_spec none hnew₂
  refine ⟨t₁, t₂, t₃, rfl, hset₂, hset₃, ?_, hnew₃⟩
  exact (hkeep₁.trans_new hkeep₂ (Nat.le_refl _)).trans_new hkeep₃ (Nat.le_refl _)

variable {nodes : List (TreeNode D)}

theorem holds_chain_snoc {nodes' : List (TreeNode D)} {b c : Nat × D} (h : Holds nodes none (.chain (l ++ [b])))
    (hsame : ∀ i ∈ indices (.chain l), nodes'[i]? = nodes[i]?)
    (hb : nodes'[b.1]? = some ⟨some b.2, some c.1, none⟩)
    (hc : nodes'[c.1]? = some ⟨some c.2, none, none⟩) :
    Holds nodes' none (.chain (l ++ [b] ++ [c])) := by
  induction l with
  | nil => exact ⟨hb, ⟨hc, trivial, trivial⟩, trivial⟩
  | cons a l ih =>
    obtain ⟨hnode, hbelow, -⟩ := h
    rw [indices_chain] at hsame
    refine ⟨?_, ih hbelow fun i hi => hsame i (by rw [indices_chain] at hi; exact .tail _ hi), trivial⟩
    rw [hsame a.1 (.head _), hnode]
    cases l <;> rfl

theorem holds_chain_last {b : Nat × D}
    (h : Holds nodes none (.chain (l ++ [b]))) : nodes[b.1]? = some ⟨some b.2, none, none⟩ := by
  induction l with
  | nil => exact h.1
  | cons a l ih => exact ih h.2.1

theorem append_spec (h : Parts t f l) (d : D) :
    ∃ t', append d t = (.ok (), t') ∧ Parts t' f (l ++ [(t.nodes.length, d)]) := by
  obtain ⟨t₁, t₂, t₃, hret₁, hret₂, hret₃, hkeep, hnode⟩ := newSlot_spec t d
  obtain ⟨t₄, hset₄, hkeep₄, hnode₄, -⟩ := setNextChild_spec none hnode
  have hkeep' : Keeps t t₄ [] := hkeep.trans_new hkeep₄ (Nat.le_refl _)
  have happend : ∀ u, linkTail t.nodes.length t₄ = (.ok (), u) →
      append d t = (.ok (), { u with tailLastIndex := some t.nodes.length }) := by
    intro u hu
    rw [append, bind_ok hret₁, bind_ok hret₂, bind_ok hret₃, bind_ok hset₄, bind_ok hu]
    rfl
  have hlt : ∀ i ∈ indices f ++ indices (.chain l), i < t.nodes.length := by
    intro i hi
    rcases List.mem_append.mp hi with hi | hi
    · exact h.holds.lt i hi
    · exact h.holdsTail.lt i hi
  have hnodup : (indices f ++ indices (.chain (l ++ [(t.nodes.length, d)]))).Nodup := by
    have hold := h.nodup
    rw [indices_chain] at hold hlt ⊢
    rw [map_append, ← append_assoc, nodup_append]
    refine ⟨hold, by simp, fun i hi j hj heq => ?_⟩
    have := hlt i hi
    simp only [map_cons, map_nil, mem_singleton] at hj
    omega
  have hfree : ∀ i ∈ indices f, i ∉ ([] : List Nat) := fun _ _ => not_mem_nil
  rcases eq_nil_or_concat l with rfl | ⟨l, b, rfl⟩
  · have htail : t₄.tailFirstIndex = none := hkeep'.tailFirstIndex.trans h.tailFirstIndex
    have hlink : linkTail t.nodes.length t₄ = (.ok (), { t₄ with tailFirstIndex := some t.nodes.length }) := by
      rw [linkTail, bind_ok (read_apply id t₄)]
      simp only [id, htail]
      rfl
    refine ⟨_, happend _ hlink, ⟨?_, rfl, rfl, hkeep'.holds h.holds hfree, ⟨hnode₄, trivial, trivial⟩,
      hnodup, h.distinct⟩⟩
    exact hkeep'.rootIndex.trans h.rootIndex
  · rw [concat_eq_append] at *
    have hlast : t₄.tailLastIndex = some b.1 := by
      rw [hkeep'.tailLastIndex, h.tailLastIndex]
      simp
    obtain ⟨k, htail⟩ : ∃ k, t₄.tailFirstIndex = some k := by
      rw [hkeep'.tailFirstIndex, h.tailFirstIndex]
      cases l <;> exact ⟨_, rfl⟩
    have hb : t.nodes[b.1]? = some ⟨some b.2, none, none⟩ := holds_chain_last h.holdsTail
    have hb₄ := hkeep'.getElem? hb not_mem_nil
    obtain ⟨t₅, hset₅, hkeep₅, hb₅, -⟩ := setNextChild_spec (some t.nodes.length) hb₄
    have hlink : linkTail t.nodes.length t₄ = (.ok (), t₅) := by
      rw [linkTail, bind_ok (read_apply id t₄)]
      simp only [id, htail, hlast]
      exact hset₅
    have hbfree : ∀ i ∈ indices f ++ indices (.chain l), i ∉ [b.1] := by
      intro i hi hmem
      simp only [indices_chain, map_append, map_cons, map_nil, nodup_append, mem_append, mem_singleton] at *
      grind
    refine ⟨_, happend _ hlink, ⟨?_, ?_, by simp, ?_, ?_, hnodup, h.distinct⟩⟩
    · exact (hkeep₅.rootIndex.trans hkeep'.rootIndex).trans h.rootIndex
    · refine ((hkeep₅.tailFirstIndex.trans hkeep'.tailFirstIndex).trans h.tailFirstIndex).trans ?_
      cases l <;> rfl
    · exact hkeep₅.holds (hkeep'.holds h.holds hfree) fun i hi => hbfree i (mem_append_left _ hi)
    · refine holds_chain_snoc h.holdsTail ?_ hb₅ (hkeep₅.getElem? hnode₄ ?_)
      · intro i hi
        have hi' : i ∈ indices f ++ indices (.chain (l ++ [b])) := by
          simp only [indices_chain, map_append, mem_append] at hi ⊢
          exact .inr (.inl hi)
        rw [hkeep₅.same i (Nat.lt_of_lt_of_le (hlt i hi') hkeep'.length)
          (hbfree i (mem_append_right _ hi)), hkeep'.same i (hlt i hi') not_mem_nil]
      · have := (List.getElem?_eq_some_iff.mp hb).1
        simp only [mem_singleton]
        omega

theorem prepend_spec (h : Parts t f l) (d : D) :
    ∃ t', prepend d t = (.ok (), t') ∧ Parts t' (.cons (t.nodes.length, d) f .nil) l := by
  obtain ⟨t₁, t₂, t₃, hret₁, hret₂, hret₃, hkeep, hnode⟩ := newSlot_spec t d
  obtain ⟨t₄, hset₄, hkeep₄, hnode₄, -⟩ := setNextChild_spec (first f) hnode
  have hkeep' : Keeps t t₄ [] := hkeep.trans_new hkeep₄ (Nat.le_refl _)
  have hroot : t₃.rootIndex = first f := hkeep.rootIndex.trans h.rootIndex
  refine ⟨{ t₄ with rootIndex := some t.nodes.length }, ?_, ?_⟩
  · rw [prepend, bind_ok hret₁, bind_ok hret₂, bind_ok hret₃, bind_ok (read_apply id t₃)]
    simp only [id, hroot]
    rw [bind_ok hset₄]
    rfl
  · refine ⟨rfl, hkeep'.tailFirstIndex.trans h.tailFirstIndex, hkeep'.tailLastIndex.trans h.tailLastIndex,
      ⟨hnode₄, hkeep'.holds h.holds fun _ _ => not_mem_nil, trivial⟩,
      hkeep'.holds h.holdsTail fun _ _ => not_mem_nil, ?_,
      ⟨not_mem_nil, h.distinct, trivial⟩⟩
    have hold := h.nodup
    rw [indices_cons, indices_nil, append_nil, cons_append, nodup_cons]
    refine ⟨fun hmem => ?_, hold⟩
    rcases List.mem_append.mp hmem with hmem | hmem
    · exact absurd (h.holds.lt _ hmem) (Nat.lt_irrefl _)
    · exact absurd (h.holdsTail.lt _ hmem) (Nat.lt_irrefl _)

theorem Parts.untailed {f' : Slots D} (hroot : t.rootIndex = first f') (hholds : Holds t.nodes none f')
    (hnodup : (indices f').Nodup) (hdistinct : (dispatchersOf f').Distinct) :
    Parts { t with tailFirstIndex := none, tailLastIndex := none } f' [] :=
  ⟨hroot, rfl, rfl, hholds, trivial, by simpa using hnodup, hdistinct⟩

/-- **Joining the tail.**  The tree denotes what it denoted, and now without a tail. -/
theorem joinTail_spec (h : Parts t f l) : ∃ f' t', Returns joinTail t () t' ∧ Parts t' f' [] ∧
    dispatchersOf f' = whole (dispatchersOf f) (dispatchersOf (.chain l)) := by
  have hstart : ∀ {t'}, t.tailFirstIndex ≠ none → Returns (fun fuel => attachTail fuel (first f)) t () t' →
      Returns joinTail t () { t' with tailFirstIndex := none, tailLastIndex := none } := by
    intro t' htail hret
    refine Returns.after (read_apply id t) ?_
    simp only [id, htail, h.rootIndex]
    exact Returns.bind hret (returns_of_eq rfl)
  cases l with
  | nil =>
    refine ⟨f, t, ?_, h, ?_⟩
    · have htail : t.tailFirstIndex = none := h.tailFirstIndex
      refine Returns.after (read_apply id t) ?_
      simp only [id, htail]
      exact returns_pure () t
    · cases f with
      | nil => rfl
      | cons a below beside => exact (Forest.graft_nil _).symm
  | cons b l =>
    have htail : t.tailFirstIndex ≠ none := by simp [h.tailFirstIndex, Forest.chain, first]
    cases f with
    | nil =>
      have hattach : Returns (fun fuel => attachTail fuel (first (.nil : Slots D))) t ()
          { t with rootIndex := t.tailFirstIndex } := returns_of_eq rfl
      refine ⟨.chain (b :: l), _, hstart htail hattach, Parts.untailed h.tailFirstIndex h.holdsTail
        h.hasTail.nodup ?_, rfl⟩
      rw [dispatchersOf, Forest.map_chain]
      exact Forest.distinct_chain _
    | cons a below beside =>
      set t₀ : EventDispatchTree D := { t with expandTailFirstPath := true } with ht₀
      have htail₀ : HasTail t₀ (.chain (b :: l)) :=
        ⟨h.tailFirstIndex, shows_chain h.tailLastIndex h.holdsTail, h.holdsTail, h.hasTail.nodup⟩
      obtain ⟨f', t', hret, hgrown, hdisp⟩ := expand_spec (.chain (b :: l)) (.cons a below beside)
        t₀ htail₀ (by simp) h.holds (List.nodup_append.mp h.nodup).1 h.tail_free
      have hattach : Returns (fun fuel => attachTail fuel (first (.cons a below beside))) t () t' :=
        Returns.after rfl hret
      refine ⟨f', _, hstart htail hattach, Parts.untailed ?_ hgrown.holds hgrown.nodup ?_, hdisp⟩
      · exact (hgrown.keeps.rootIndex.trans h.rootIndex).trans hgrown.start.symm
      · rw [hdisp]
        exact h.distinct_whole

section
variable [DecidableEq D] {tree : EventDispatchTree D} {g : Slots D} {m : List (Nat × D)}

/-- **Merging.**  The tree becomes the union of what the two denote. -/
theorem mergeTree_spec (h : Parts t f l) (htree : Parts tree g m) :
    ∃ f' t', Returns (mergeTree (some tree)) t () t' ∧ Parts t' f' [] ∧
      dispatchersOf f' = (whole (dispatchersOf f) (dispatchersOf (.chain l))).union
        (whole (dispatchersOf g) (dispatchersOf (.chain m))) := by
  obtain ⟨f₁, t₁, hret₁, hparts₁, hdisp₁⟩ := joinTail_spec h
  obtain ⟨g', hshow, hfirst, hdisp⟩ := htree.exists_shows
  have hdistinct : (dispatchersOf g').Distinct := hdisp ▸ htree.distinct_whole
  rcases hroot : t₁.rootIndex with _ | k
  · -- The tree was empty.
    obtain ⟨f', t₂, hret₂, hkeep, hcopy⟩ := (copy_spec (some tree) g').1 t₁ hshow
    rw [hfirst] at hret₂
    refine ⟨f', { t₂ with rootIndex := first f' }, ?_, ?_, ?_⟩
    · refine Returns.bind hret₁ (Returns.after (read_apply _ t₁) (Returns.after (read_apply id t₁) ?_))
      simp only [id, hroot]
      exact Returns.bind hret₂ (returns_of_eq rfl)
    · refine ⟨rfl, hkeep.tailFirstIndex.trans hparts₁.tailFirstIndex,
        hkeep.tailLastIndex.trans hparts₁.tailLastIndex, hcopy.holds, trivial, ?_, ?_⟩
      · simpa using hcopy.nodup
      · rw [hcopy.dispatchers]
        exact hdistinct
    · obtain rfl := first_eq_none_iff.mp (hparts₁.rootIndex.symm.trans hroot)
      rw [← hdisp₁, ← hdisp, hcopy.dispatchers]
      exact (Forest.nil_union hdistinct).symm
  · obtain ⟨f', t₂, hret₂, hgrown, hdisp₂⟩ := merge_spec tree g' hshow hdistinct t₁ f₁ k
      (hparts₁.rootIndex.symm.trans hroot) hparts₁.holds (List.nodup_append.mp hparts₁.nodup).1
      hparts₁.distinct
    rw [hfirst] at hret₂
    refine ⟨f', t₂, ?_, ?_, by rw [hdisp₂, hdisp₁, hdisp]⟩
    · refine Returns.bind hret₁ (Returns.after (read_apply _ t₁) (Returns.after (read_apply id t₁) ?_))
      simp only [id, hroot]
      exact hret₂
    · refine ⟨?_, hgrown.keeps.tailFirstIndex.trans hparts₁.tailFirstIndex,
        hgrown.keeps.tailLastIndex.trans hparts₁.tailLastIndex, hgrown.holds, trivial, ?_,
        hdisp₂ ▸ Forest.distinct_union hparts₁.distinct hdistinct⟩
      · exact (hgrown.keeps.rootIndex.trans hparts₁.rootIndex).trans hgrown.start.symm
      · simpa using hgrown.nodup

theorem mergeThis_spec (h : Parts t f l) : ∃ f' t', Returns (mergeTree none) t () t' ∧ Parts t' f' [] ∧
      dispatchersOf f' = whole (dispatchersOf f) (dispatchersOf (.chain l)) := by
  obtain ⟨f₁, t₁, hret₁, hparts₁, hdisp₁⟩ := joinTail_spec h
  have htail : t₁.tailFirstIndex = none := hparts₁.tailFirstIndex
  rcases hroot : t₁.rootIndex with _ | k
  · have hlevel : t₁.levelIndex = none := by simp [levelIndex, hroot, htail]
    refine ⟨f₁, t₁, ?_, hparts₁, hdisp₁⟩
    refine Returns.bind hret₁ (Returns.after (read_apply _ t₁) (Returns.after (read_apply id t₁) ?_))
    simp only [id, hroot, getD_none, hlevel]
    refine Returns.bind (Returns.succ (returns_pure none t₁) fun fuel => by rw [copyTreeLevel]) (returns_of_eq ?_)
    show (_, { t₁ with rootIndex := none }) = _
    rw [← hroot]
  · have hlevel : t₁.levelIndex = first f₁ := by
      simp [levelIndex, hroot, ← hparts₁.rootIndex]
    refine ⟨f₁, t₁, ?_, hparts₁, hdisp₁⟩
    refine Returns.bind hret₁ (Returns.after (read_apply _ t₁) (Returns.after (read_apply id t₁) ?_))
    simp only [id, hroot, getD_none, hlevel]
    exact mergeSelf_spec htail f₁ .nil k (hparts₁.rootIndex.symm.trans hroot) hparts₁.holds hparts₁.distinct

end

/-! ### Printing -/

theorem forestFrom_spec (h : Shows t f) :
    ∃ bound, ∀ fuel, bound ≤ fuel → t.forestFrom fuel (first f) = .ok (dispatchersOf f) := by
  induction f with
  | nil =>
    refine ⟨1, fun fuel hfuel => ?_⟩
    obtain ⟨fuel, rfl⟩ : ∃ n, fuel = n + 1 := ⟨fuel - 1, by omega⟩
    rfl
  | cons a below beside ihc ihs =>
    obtain ⟨⟨child, hnode, hchild⟩, hbelow, hbeside⟩ := h
    obtain ⟨m, hm⟩ := ihc hbelow
    obtain ⟨n, hn⟩ := ihs hbeside
    refine ⟨max m n + 1, fun fuel hfuel => ?_⟩
    obtain ⟨fuel, rfl⟩ : ∃ k, fuel = k + 1 := ⟨fuel - 1, by omega⟩
    rw [first, forestFrom, nodeAt_eq hnode, getChildIndex_eq hnode]
    simp only [hchild, bind, Except.bind, hm fuel (by omega), hn fuel (by omega)]
    rfl

theorem Parts.denotes (h : Parts t f l) : Denotes t (whole (dispatchersOf f) (dispatchersOf (.chain l))) := by
  obtain ⟨g, hshow, hfirst, hdisp⟩ := h.exists_shows
  obtain ⟨bound, hbound⟩ := forestFrom_spec hshow
  refine ⟨bound, fun fuel hfuel => ?_⟩
  rw [← hfirst, hbound fuel hfuel, hdisp]

theorem Parts.denotes_untailed (h : Parts t f []) : Denotes t (dispatchersOf f) := by
  have hwhole : whole (dispatchersOf f) (dispatchersOf (.chain ([] : List (Nat × D)))) = dispatchersOf f := by
    cases f with
    | nil => rfl
    | cons a below beside => exact Forest.graft_nil _
  exact hwhole ▸ h.denotes

theorem Denotes.unique {f g : Forest D} (h : Denotes t f) (h' : Denotes t g) : f = g := by
  obtain ⟨m, hm⟩ := h
  obtain ⟨n, hn⟩ := h'
  exact Except.ok.inj ((hm (max m n) (by omega)).symm.trans (hn (max m n) (by omega)))

/-! ### Dispatching -/

/-- What a level visits: below its first leaf the tail, and no tail from there on. -/
def visited (tail : Forest D) : Forest D → Forest D
  | .nil => .nil
  | .cons a .nil beside => .cons a tail beside
  | .cons a (.cons b c d) beside => .cons a (visited tail (.cons b c d)) (visited tail beside)

theorem visited_nil (f : Forest D) : visited .nil f = f := by
  induction f with
  | nil => rfl
  | cons a below beside ihc ih =>
    cases below with
    | nil => rfl
    | cons b c d => rw [visited, ihc, ih]

theorem visited_without_tail (f : Slots D) : visited (dispatchersOf .nil) (dispatchersOf f) = dispatchersOf f :=
  visited_nil _

/-- What a tree with these parts visits. -/
def visitedWhole (f tail : Forest D) : Forest D :=
  match f with
  | .nil => tail
  | .cons a below beside => visited tail (.cons a below beside)

section
variable (forward : D → E → E) (reply : D → E → Option E → Option E)

/-- Only where the root and the tail begin may have changed. -/
structure SameSlots (t t' : EventDispatchTree D) : Prop where
  nodes : t'.nodes = t.nodes
  expandTailFirstPath : t'.expandTailFirstPath = t.expandTailFirstPath

theorem withSavedState_spec {α : Type} {body : Nat → Op D α} {r : α} (h : Returns body t r t')
    (hsame : SameSlots t t') : Returns (fun fuel => withSavedState (body fuel)) t r t := by
  refine Returns.after (read_apply id t) (Returns.bind h (Returns.after rfl ?_))
  have heq : { t' with
      nodes := t'.nodes.take t.nodes.length
      rootIndex := t.rootIndex
      tailFirstIndex := t.tailFirstIndex
      tailLastIndex := t.tailLastIndex } = t := by
    rw [hsame.nodes, take_length, hsame.expandTailFirstPath]
  simp only [id]
  rw [heq]
  exact returns_pure r t

/-- What the loop visits at a level `f` whose tail is `tail`, whatever the event. -/
def Visits (tail f : Slots D) : Prop :=
  ∀ t event returnEvent, t.tailFirstIndex = first tail → Holds t.nodes none tail → Holds t.nodes none f →
    ∃ answer t', Returns (fun fuel => dispatchLevel forward reply fuel event returnEvent (first f)) t
      (answer, (visited (dispatchersOf tail) (dispatchersOf f)).prefixes) t' ∧ SameSlots t t'

variable {forward reply}

theorem dispatchEvent_empty (event : E) (hroot : t.rootIndex = none) (htail : t.tailFirstIndex = none) :
    Returns (fun fuel => dispatchEvent forward reply fuel event) t (some event, []) t := by
  refine Returns.succ ?_ fun fuel => by rw [dispatchEvent]
  have henter : enterRoot t = (.ok none, t) := by
    rw [enterRoot, bind_ok (read_apply id t)]
    simp only [id, hroot, htail]
    rfl
  exact Returns.after henter (returns_pure _ t)

theorem dispatchEvent_root (event : E) (h : Visits forward reply tail f) (hne : f ≠ .nil)
    (hroot : t.rootIndex = first f) (htail : t.tailFirstIndex = first tail)
    (hholds : Holds t.nodes none tail) (hf : Holds t.nodes none f) :
    ∃ answer, Returns (fun fuel => dispatchEvent forward reply fuel event) t
      (answer, (visited (dispatchersOf tail) (dispatchersOf f)).prefixes) t := by
  obtain ⟨answer, t', hret, hsame⟩ := h t event none htail hholds hf
  obtain ⟨k, hk⟩ : ∃ k, first f = some k :=
    Option.ne_none_iff_exists'.mp fun hnone => hne (first_eq_none_iff.mp hnone)
  refine ⟨answer, Returns.succ ?_ fun fuel => by rw [dispatchEvent]⟩
  have henter : enterRoot t = (.ok (some k), t) := by
    rw [enterRoot, bind_ok (read_apply id t)]
    simp only [id, hroot, hk]
    rfl
  rw [hk] at hret
  exact Returns.after henter (withSavedState_spec hret hsame)

theorem dispatchEvent_tail (event : E) (h : Visits forward reply .nil tail) (hne : tail ≠ .nil)
    (hroot : t.rootIndex = none) (htail : t.tailFirstIndex = first tail)
    (hholds : Holds t.nodes none tail) :
    ∃ answer, Returns (fun fuel => dispatchEvent forward reply fuel event) t (answer, (dispatchersOf tail).prefixes)
      { t with rootIndex := first tail, tailFirstIndex := none, tailLastIndex := none } := by
  set t₁ : EventDispatchTree D :=
    { t with rootIndex := first tail, tailFirstIndex := none, tailLastIndex := none } with ht₁
  obtain ⟨answer, t', hret, hsame⟩ := h t₁ event none rfl trivial hholds
  obtain ⟨k, hk⟩ : ∃ k, first tail = some k :=
    Option.ne_none_iff_exists'.mp fun hnone => hne (first_eq_none_iff.mp hnone)
  refine ⟨answer, Returns.succ ?_ fun fuel => by rw [dispatchEvent]⟩
  have henter : enterRoot t = (.ok (some k), t₁) := by
    rw [enterRoot, bind_ok (read_apply id t)]
    simp only [id, hroot, htail]
    rw [ht₁, hk]
    rfl
  rw [hk] at hret
  refine Returns.after henter ?_
  rw [visited_without_tail] at hret
  exact withSavedState_spec hret hsame

theorem dispatchLevel_cons {event : E} {returnEvent answer answer' : Option E}
    {seen seen' : List (List D)} {t₁ t₂ : EventDispatchTree D}
    (hnode : t.nodes[a.1]? = some ⟨some a.2, first below, first beside⟩)
    (hbelow : Returns (fun fuel => dispatchEvent forward reply fuel (forward a.2 event))
      { t with rootIndex := first below } (answer, seen) t₁)
    (hsame : SameSlots t t₁)
    (hbeside : Returns (fun fuel => dispatchLevel forward reply fuel event
      (joinReturnEvent event returnEvent (reply a.2 event answer)) (first beside)) t₁
      (answer', seen') t₂) :
    Returns (fun fuel => dispatchLevel forward reply fuel event returnEvent (some a.1)) t
      (answer', [a.2] :: (seen.map (a.2 :: ·) ++ seen')) t₂ := by
  refine Returns.succ ?_ fun fuel => by rw [dispatchLevel]
  refine Returns.after (node_apply hnode) (Returns.after rfl ?_)
  have hnode₁ : t₁.nodes[a.1]? = some ⟨some a.2, first below, first beside⟩ := by
    rw [hsame.nodes, hnode]
  exact Returns.bind hbelow (Returns.after (node_apply hnode₁) (Returns.bind hbeside (returns_pure _ _)))

theorem visits_nil (tail : Slots D) : Visits forward reply tail .nil := by
  intro t event returnEvent _ _ _
  refine ⟨returnEvent, t, Returns.succ (returns_pure _ t) fun fuel => ?_, ⟨rfl, rfl⟩⟩
  rfl

theorem visits_inner {b : Nat × D} {c d : Slots D} (hbelow : Visits forward reply tail (.cons b c d))
    (hbeside : Visits forward reply tail beside) :
    Visits forward reply tail (.cons a (.cons b c d) beside) := by
  intro t event returnEvent htail hholds h
  obtain ⟨hnode, hc, hs⟩ := h
  rw [or_none] at hnode
  obtain ⟨answer, hret⟩ := dispatchEvent_root (t := { t with rootIndex := some b.1 })
    (forward a.2 event) hbelow (by simp) rfl htail hholds hc
  obtain ⟨answer', t₂, hret', hsame⟩ := hbeside { t with rootIndex := some b.1 } event
    (joinReturnEvent event returnEvent (reply a.2 event answer)) htail hholds hs
  exact ⟨answer', t₂, dispatchLevel_cons hnode hret ⟨rfl, rfl⟩ hret', ⟨hsame.nodes, hsame.expandTailFirstPath⟩⟩

theorem visits_plain (f : Slots D) : Visits forward reply .nil f := by
  induction f with
  | nil => exact visits_nil .nil
  | cons a below beside ihc ihs =>
    cases below with
    | cons b c d => exact visits_inner ihc ihs
    | nil =>
      intro t event returnEvent htail hholds h
      obtain ⟨hnode, -, hs⟩ := h
      rw [or_none] at hnode
      have hret : Returns (fun fuel => dispatchEvent forward reply fuel (forward a.2 event))
          { t with rootIndex := none } (some (forward a.2 event), []) { t with rootIndex := none } :=
        dispatchEvent_empty _ rfl htail
      obtain ⟨answer', t₂, hret', hsame⟩ := ihs { t with rootIndex := none } event
        (joinReturnEvent event returnEvent (reply a.2 event (some (forward a.2 event)))) htail hholds hs
      refine ⟨answer', t₂, ?_, ⟨hsame.nodes, hsame.expandTailFirstPath⟩⟩
      rw [visited_without_tail] at hret' ⊢
      exact dispatchLevel_cons hnode hret ⟨rfl, rfl⟩ hret'

/-- **Dispatching a level.** -/
theorem visits_spec (tail f : Slots D) : Visits forward reply tail f := by
  by_cases hne : tail = .nil
  · rw [hne]
    exact visits_plain f
  induction f with
  | nil => exact visits_nil tail
  | cons a below beside ihc ihs =>
    cases below with
    | cons b c d => exact visits_inner ihc ihs
    | nil =>
      -- The dispatcher finds no root and takes the tail with it.
      intro t event returnEvent htail hholds h
      obtain ⟨hnode, -, hs⟩ := h
      rw [or_none] at hnode
      obtain ⟨answer, hret⟩ := dispatchEvent_tail (t := { t with rootIndex := none })
        (forward a.2 event) (visits_plain tail) hne rfl htail hholds
      obtain ⟨answer', t₂, hret', hsame⟩ := visits_plain beside
        { t with rootIndex := first tail, tailFirstIndex := none, tailLastIndex := none } event
        (joinReturnEvent event returnEvent (reply a.2 event answer)) rfl trivial hs
      refine ⟨answer', t₂, ?_, ⟨hsame.nodes, hsame.expandTailFirstPath⟩⟩
      rw [visited_without_tail] at hret'
      exact dispatchLevel_cons hnode hret ⟨rfl, rfl⟩ hret'

variable (forward reply) in
theorem dispatchEvent_spec (h : Parts t f l) (event : E) : ∃ answer t' f' l',
    Returns (fun fuel => dispatchEvent forward reply fuel event) t
      (answer, (visitedWhole (dispatchersOf f) (dispatchersOf (.chain l))).prefixes) t' ∧ Parts t' f' l' ∧
      whole (dispatchersOf f') (dispatchersOf (.chain l')) = whole (dispatchersOf f) (dispatchersOf (.chain l)) := by
  cases f with
  | cons a below beside =>
    obtain ⟨answer, hret⟩ := dispatchEvent_root event (visits_spec (.chain l) (.cons a below beside))
      (by simp) h.rootIndex h.tailFirstIndex h.holdsTail h.holds
    exact ⟨answer, t, _, l, hret, h, rfl⟩
  | nil =>
    cases l with
    | nil => exact ⟨_, t, .nil, [], dispatchEvent_empty event h.rootIndex h.tailFirstIndex, h, rfl⟩
    | cons b l =>
      obtain ⟨answer, hret⟩ := dispatchEvent_tail event (visits_plain (.chain (b :: l)))
        (by simp [Forest.chain]) h.rootIndex h.tailFirstIndex h.holdsTail
      refine ⟨answer, _, .chain (b :: l), [], hret, ⟨rfl, rfl, rfl, h.holdsTail, trivial, ?_, ?_⟩, ?_⟩
      · simpa using h.hasTail.nodup
      · rw [dispatchersOf, Forest.map_chain]
        exact Forest.distinct_chain _
      · exact Forest.graft_nil _

end

/-! ### When the whole tree is visited -/

/-- No leaf has a sibling behind it. -/
def LastLeaves : Forest D → Prop
  | .nil => True
  | .cons _ .nil beside => beside = .nil
  | .cons _ (.cons b c d) beside => LastLeaves (.cons b c d) ∧ LastLeaves beside

theorem visited_eq_graft {tail f : Forest D} (h : LastLeaves f) : visited tail f = Forest.graft tail f := by
  induction f with
  | nil => rfl
  | cons a below beside ihc ihs =>
    cases below with
    | nil =>
      have hnil : beside = .nil := h
      rw [hnil]
      rfl
    | cons b c d => rw [visited, ihc h.1, ihs h.2, Forest.graft]

theorem length_visited_le (tail f : Forest D) :
    (visited tail f).labels.length ≤ (Forest.graft tail f).labels.length := by
  induction f with
  | nil => exact Nat.le_refl _
  | cons a below beside ihc ihs =>
    cases below with
    | nil =>
      have := Forest.length_labels_graft tail beside
      simp only [visited, Forest.graft, Forest.labels, length_cons, length_append]
      omega
    | cons b c d =>
      rw [visited, Forest.graft, Forest.labels, Forest.labels, length_cons, length_cons, length_append, length_append]
      omega

/-- A leaf with a sibling behind it: the leaves from there on have nothing below them. -/
theorem length_visited_lt {tail f : Forest D} (htail : tail ≠ .nil) (h : ¬LastLeaves f) :
    (visited tail f).labels.length < (Forest.graft tail f).labels.length := by
  induction f with
  | nil => exact absurd trivial h
  | cons a below beside ihc ihs =>
    cases below with
    | nil =>
      have hne : beside ≠ .nil := h
      have hpos : 0 < tail.labels.length := by
        cases tail with
        | nil => exact absurd rfl htail
        | cons b c d => simp [Forest.labels]
      have := Nat.mul_pos (Forest.leaves_pos hne) hpos
      have := Forest.length_labels_graft tail beside
      simp only [visited, Forest.graft, Forest.labels, length_cons, length_append]
      omega
    | cons b c d =>
      have hle := length_visited_le tail (.cons b c d)
      have hle' := length_visited_le tail beside
      have hlt : (visited tail (.cons b c d)).labels.length < (Forest.graft tail (.cons b c d)).labels.length ∨
          (visited tail beside).labels.length < (Forest.graft tail beside).labels.length := by
        by_cases hbelow : LastLeaves (.cons b c d)
        · exact .inr (ihs fun hbeside => h ⟨hbelow, hbeside⟩)
        · exact .inl (ihc hbelow)
      rw [visited, Forest.graft, Forest.labels, Forest.labels, length_cons, length_cons, length_append, length_append]
      omega

theorem prefixes_visited_iff {tail f : Forest D} :
    (visited tail f).prefixes = (Forest.graft tail f).prefixes ↔ tail = .nil ∨ LastLeaves f := by
  constructor
  · intro heq
    by_contra hnot
    rw [not_or] at hnot
    have hlt := length_visited_lt hnot.1 hnot.2
    rw [← Forest.length_prefixes, ← Forest.length_prefixes, heq] at hlt
    exact absurd hlt (Nat.lt_irrefl _)
  · rintro (rfl | h)
    · rw [visited_nil, Forest.graft_nil]
    · rw [visited_eq_graft h]

/-! ### The slots of the root part -/

theorem mem_of_first (h : first f = some i) : i ∈ indices f := by
  cases f with
  | nil => simp [first] at h
  | cons a below beside =>
    have ha : a.1 = i := Option.some.inj h
    simp [← ha]

/-- The links lead from slots of a forest to slots of it. -/
theorem Holds.closed {n : TreeNode D} (h : Holds nodes none f) (hi : i ∈ indices f) (hn : nodes[i]? = some n) :
    (∀ j, n.nextChild = some j → j ∈ indices f) ∧ ∀ j, n.nextSibling = some j → j ∈ indices f := by
  induction f with
  | nil => simp at hi
  | cons a below beside ihc ihs =>
    obtain ⟨hnode, hbelow, hbeside⟩ := h
    rw [indices_cons, mem_cons, mem_append] at hi
    simp only [indices_cons, mem_cons, mem_append]
    rcases hi with rfl | hi | hi
    · obtain rfl := Option.some.inj (hnode.symm.trans hn)
      rw [or_none]
      exact ⟨fun j hj => .inr (.inl (mem_of_first hj)), fun j hj => .inr (.inr (mem_of_first hj))⟩
    · obtain ⟨hchild, hsibling⟩ := ihc hbelow hi
      exact ⟨fun j hj => .inr (.inl (hchild j hj)), fun j hj => .inr (.inl (hsibling j hj))⟩
    · obtain ⟨hchild, hsibling⟩ := ihs hbeside hi
      exact ⟨fun j hj => .inr (.inr (hchild j hj)), fun j hj => .inr (.inr (hsibling j hj))⟩

theorem inRoot_of_first (h : Holds t.nodes none f) (hfirst : ∀ i, first f = some i → InRoot t i) :
    ∀ i ∈ indices f, InRoot t i := by
  induction f with
  | nil => simp
  | cons a below beside ihc ihs =>
    obtain ⟨hnode, hbelow, hbeside⟩ := h
    rw [or_none] at hnode
    have ha : InRoot t a.1 := hfirst a.1 rfl
    intro i hi
    rw [indices_cons, mem_cons, mem_append] at hi
    rcases hi with rfl | hi | hi
    · exact ha
    · exact ihc hbelow (fun j hj => .child ha hnode hj) i hi
    · exact ihs hbeside (fun j hj => .sibling ha hnode hj) i hi

theorem Parts.inRoot_iff (h : Parts t f l) : InRoot t i ↔ i ∈ indices f := by
  constructor
  · intro hi
    induction hi with
    | root hroot => exact mem_of_first (h.rootIndex.symm.trans hroot)
    | child _ hn hj ih => exact (h.holds.closed ih hn).1 _ hj
    | sibling _ hn hj ih => exact (h.holds.closed ih hn).2 _ hj
  · exact inRoot_of_first h.holds (fun j hj => .root (h.rootIndex.trans hj)) i

theorem lastLeaves_iff (h : Holds t.nodes none f) : LastLeaves (dispatchersOf f) ↔
    ∀ i ∈ indices f, ∀ n, t.nodes[i]? = some n → n.nextChild = none → n.nextSibling = none := by
  induction f with
  | nil => simp [LastLeaves, dispatchersOf, Forest.map]
  | cons a below beside ihc ihs =>
    obtain ⟨hnode, hbelow, hbeside⟩ := h
    rw [or_none] at hnode
    cases below with
    | nil =>
      have hleaf : LastLeaves (dispatchersOf (.cons a .nil beside)) ↔ beside = .nil := by
        show dispatchersOf beside = .nil ↔ _
        cases beside <;> simp [dispatchersOf, Forest.map]
      rw [hleaf]
      constructor
      · rintro rfl i hi n hn _
        obtain rfl : i = a.1 := by simpa using hi
        rw [Option.some.inj (hn.symm.trans hnode)]
        rfl
      · exact fun hlast => first_eq_none_iff.mp (hlast a.1 (by simp) _ hnode rfl)
    | cons b c d =>
      have hinner : LastLeaves (dispatchersOf (.cons a (.cons b c d) beside)) ↔
          LastLeaves (dispatchersOf (.cons b c d)) ∧ LastLeaves (dispatchersOf beside) := Iff.rfl
      rw [hinner, ihc hbelow, ihs hbeside]
      constructor
      · rintro ⟨hc, hs⟩ i hi n hn hchild
        rw [indices_cons, mem_cons, mem_append] at hi
        rcases hi with rfl | hi | hi
        · rw [Option.some.inj (hn.symm.trans hnode)] at hchild
          simp [first] at hchild
        · exact hc i hi n hn hchild
        · exact hs i hi n hn hchild
      · intro hlast
        constructor
        · exact fun i hi => hlast i (by rw [indices_cons, mem_cons, mem_append]; exact .inr (.inl hi))
        · exact fun i hi => hlast i (by rw [indices_cons, mem_cons, mem_append]; exact .inr (.inr hi))

theorem Parts.leavesLast_iff (h : Parts t f l) : LeavesLast t ↔ LastLeaves (dispatchersOf f) := by
  rw [lastLeaves_iff h.holds]
  constructor
  · exact fun hleaves i hi n => hleaves i n (h.inRoot_iff.mpr hi)
  · exact fun hleaves i n hi => hleaves i (h.inRoot_iff.mp hi) n

/-! ### Every tree -/

section
variable [DecidableEq D]

theorem Built.parts (h : Built t) : ∃ f l, Parts t f l := by
  induction h with
  | new => exact ⟨.nil, [], rfl, rfl, rfl, trivial, trivial, by simp, trivial⟩
  | reset _ hret _ =>
    obtain rfl := (Prod.mk.inj hret).2
    exact ⟨.nil, [], rfl, rfl, rfl, trivial, trivial, by simp, trivial⟩
  | append d _ hret ih =>
    obtain ⟨f, l, hparts⟩ := ih
    obtain ⟨t', hret', hparts'⟩ := append_spec hparts d
    obtain rfl := (Prod.mk.inj (hret'.symm.trans hret)).2
    exact ⟨_, _, hparts'⟩
  | prepend d _ hret ih =>
    obtain ⟨f, l, hparts⟩ := ih
    obtain ⟨t', hret', hparts'⟩ := prepend_spec hparts d
    obtain rfl := (Prod.mk.inj (hret'.symm.trans hret)).2
    exact ⟨_, _, hparts'⟩
  | mergeTree _ _ hret ih ihtree =>
    obtain ⟨f, l, hparts⟩ := ih
    obtain ⟨g, m, htree⟩ := ihtree
    obtain ⟨f', t', hret', hparts', -⟩ := mergeTree_spec hparts htree
    obtain rfl := (hret'.unique hret).2
    exact ⟨_, _, hparts'⟩
  | mergeThis _ hret ih =>
    obtain ⟨f, l, hparts⟩ := ih
    obtain ⟨f', t', hret', hparts', -⟩ := mergeThis_spec hparts
    obtain rfl := (hret'.unique hret).2
    exact ⟨_, _, hparts'⟩
  | dispatchEvent forward reply event answer _ hret ih =>
    obtain ⟨f, l, hparts⟩ := ih
    obtain ⟨_, t', f', l', hret', hparts', -⟩ := dispatchEvent_spec forward reply hparts event
    obtain rfl := (hret'.unique hret).2
    exact ⟨_, _, hparts'⟩

/-- What is left of the call on the one tree in the call on all of them. -/
theorem mergeAt_returns {trees : Nat → EventDispatchTree D} {this other : Nat} {t' : EventDispatchTree D}
    (h : Returns (mergeTree (if other = this then none else some (trees other))) (trees this) () t') :
    Returns (mergeAt this other) trees () (update trees this t') := by
  obtain ⟨bound, hbound⟩ := h
  refine ⟨bound, fun fuel hfuel => ?_⟩
  rw [mergeAt, hbound fuel hfuel]

/-- **Merging is the union of tries.**  Every call returns.  The tree it is made on then
denotes the union of what the two denoted, which has the paths of both; every other tree,
the argument among them, is as it was, and a tree that denotes the same adds nothing. -/
theorem mergeAt_union (trees : Nat → EventDispatchTree D) (this other : Nat) (h : Built (trees this))
    (hother : Built (trees other)) :
    ∃ f g trees', Denotes (trees this) f ∧ Denotes (trees other) g ∧ f.Distinct ∧ g.Distinct ∧
      Returns (mergeAt this other) trees () trees' ∧ Denotes (trees' this) (f.union g) ∧
      (∀ p, p ∈ (f.union g).prefixes ↔ p ∈ f.prefixes ∨ p ∈ g.prefixes) ∧ (f.union g).Distinct ∧
      Denotes (trees' other) g ∧ (∀ k, k ≠ this → trees' k = trees k) ∧ (g = f → f.union g = f) := by
  obtain ⟨f, l, hparts⟩ := h.parts
  obtain ⟨g, m, htree⟩ := hother.parts
  have hframe : ∀ (t' : EventDispatchTree D) k, k ≠ this → update trees this t' k = trees k :=
    fun t' k hk => update_of_ne hk t' trees
  have hself : ∀ {f g : Forest D}, f.Distinct → g = f → f.union g = f := by
    rintro f g hf rfl
    exact Forest.union_self hf
  by_cases hsame : other = this
  · -- The tree is merged into itself, while its slots are read.
    subst hsame
    obtain ⟨f', t', hret, hparts', hdisp⟩ := mergeThis_spec hparts
    have hdenotes := hparts'.denotes_untailed
    rw [hdisp] at hdenotes
    have hunion := Forest.union_self hparts.distinct_whole
    refine ⟨_, _, _, hparts.denotes, hparts.denotes, hparts.distinct_whole, hparts.distinct_whole,
      mergeAt_returns (by rwa [if_pos rfl]), ?_, fun p => Forest.mem_prefixes_union, ?_, ?_, hframe t',
      fun _ => hunion⟩
    · rw [update_self, hunion]
      exact hdenotes
    · exact hunion.symm ▸ hparts.distinct_whole
    · rw [update_self]
      exact hdenotes
  · obtain ⟨f', t', hret, hparts', hdisp⟩ := mergeTree_spec hparts htree
    have hdenotes := hparts'.denotes_untailed
    rw [hdisp] at hdenotes
    refine ⟨_, _, _, hparts.denotes, htree.denotes, hparts.distinct_whole, htree.distinct_whole,
      mergeAt_returns (by rwa [if_neg hsame]), ?_, fun p => Forest.mem_prefixes_union,
      Forest.distinct_union hparts.distinct_whole htree.distinct_whole, ?_, hframe t',
      hself hparts.distinct_whole⟩
    · rw [update_self]
      exact hdenotes
    · rw [hframe t' other hsame]
      exact htree.denotes

/-- **What `dispatchEvent` covers.**  The calls of dispatchers follow the paths of the tree
that is printed, and it is printed the same afterwards, exactly if there is no tail or
every leaf of the root part is the last of its siblings. -/
theorem covers_iff (h : Built t) (forward : D → E → E) (reply : D → E → Option E → Option E)
    (event : E) : Covers forward reply event t ↔ t.tailFirstIndex = none ∨ LeavesLast t := by
  obtain ⟨f, l, hparts⟩ := h.parts
  obtain ⟨answer, t', f', l', hret, hparts', hwhole⟩ :=
    dispatchEvent_spec forward reply hparts event
  have hdenotes' := hwhole ▸ hparts'.denotes
  have htail : t.tailFirstIndex = none ↔ dispatchersOf (.chain l) = .nil := by
    rw [hparts.tailFirstIndex]
    cases l <;> simp [Forest.chain, first, dispatchersOf, Forest.map]
  rw [htail, hparts.leavesLast_iff]
  cases f with
  | nil => exact iff_of_true ⟨_, answer, t', hparts.denotes, hret, hdenotes'⟩ (.inr trivial)
  | cons a below beside =>
    rw [← prefixes_visited_iff]
    constructor
    · rintro ⟨g, answer', t'', hg, hret', -⟩
      have hseen := (hret.unique hret').1
      rw [hg.unique hparts.denotes] at hseen
      exact (Prod.mk.inj hseen).2
    · intro hseen
      refine ⟨_, answer, t', hparts.denotes, ?_, hdenotes'⟩
      have hsame : (whole (dispatchersOf (.cons a below beside)) (dispatchersOf (.chain l))).prefixes =
          (visitedWhole (dispatchersOf (.cons a below beside)) (dispatchersOf (.chain l))).prefixes :=
        hseen.symm
      rw [hsame]
      exact hret

/-- Chains `1, 2` and `3`, merged, with `4` behind both. -/
def forked : EventDispatchTree Nat where
  nodes := [⟨some 1, some 1, some 2⟩, ⟨some 2, none, none⟩, ⟨some 3, none, none⟩, ⟨some 4, none, none⟩]
  rootIndex := some 0
  tailFirstIndex := some 3
  tailLastIndex := some 3

theorem built_forked : Built forked := by
  have h₃ : Built ⟨[⟨some 3, none, none⟩], none, some 0, some 0, false⟩ :=
    .append 3 .new rfl
  have h₁₂ : Built ⟨[⟨some 1, some 1, none⟩, ⟨some 2, none, none⟩], none, some 0, some 1, false⟩ :=
    .append 2 (.append 1 .new rfl) rfl
  have hmerged : Built
      ⟨[⟨some 1, some 1, some 2⟩, ⟨some 2, none, none⟩, ⟨some 3, none, none⟩], some 0, none, none, false⟩ := by
    refine .mergeTree h₁₂ h₃ ⟨5, fun fuel hfuel => ?_⟩
    obtain ⟨k, rfl⟩ := Nat.exists_eq_add_of_le' hfuel
    rfl
  exact .append 4 hmerged rfl

theorem covers_iff_forked : Built forked ∧ Covers (fun _ event => event) (fun _ _ answer => answer) () forked := by
  refine ⟨built_forked, (covers_iff built_forked _ _ _).mpr (.inr ?_)⟩
  intro i n _ hn hchild
  match i with
  | 0 => cases hn; cases hchild
  | 1 | 2 | 3 => cases hn; rfl
  | _ + 4 => cases hn

/-- Chains `1` and `2`, merged, with `3` behind both. -/
def twoLeaves : EventDispatchTree Nat where
  nodes := [⟨some 1, none, some 1⟩, ⟨some 2, none, none⟩, ⟨some 3, none, none⟩]
  rootIndex := some 0
  tailFirstIndex := some 2
  tailLastIndex := some 2

theorem built_twoLeaves : Built twoLeaves := by
  have h₂ : Built ⟨[⟨some 2, none, none⟩], none, some 0, some 0, false⟩ :=
    .append 2 .new rfl
  have h₁ : Built ⟨[⟨some 1, none, none⟩], none, some 0, some 0, false⟩ :=
    .append 1 .new rfl
  have hmerged : Built ⟨[⟨some 1, none, some 1⟩, ⟨some 2, none, none⟩], some 0, none, none, false⟩ := by
    refine .mergeTree h₁ h₂ ⟨5, fun fuel hfuel => ?_⟩
    obtain ⟨k, rfl⟩ := Nat.exists_eq_add_of_le' hfuel
    rfl
  exact .append 3 hmerged rfl

theorem mergeAt_union_twoLeaves :
    let trees : Nat → EventDispatchTree Nat := fun k => if k = 0 then forked else twoLeaves
    Built (trees 0) ∧ Built (trees 1) ∧ ∃ f g trees', Denotes (trees 0) f ∧ Denotes (trees 1) g ∧
      f.Distinct ∧ g.Distinct ∧ Returns (mergeAt 0 1) trees () trees' ∧ Denotes (trees' 0) (f.union g) ∧
      (∀ p, p ∈ (f.union g).prefixes ↔ p ∈ f.prefixes ∨ p ∈ g.prefixes) ∧ (f.union g).Distinct ∧
      Denotes (trees' 1) g ∧ (∀ k, k ≠ 0 → trees' k = trees k) ∧ (g = f → f.union g = f) := by
  intro trees
  exact ⟨built_forked, built_twoLeaves, mergeAt_union trees 0 1 built_forked built_twoLeaves⟩

/-- It prints as `(1->(3),2->(3))`; the second `3` gets no event. -/
theorem twoLeaves_not_covered : Built twoLeaves ∧
    ¬Covers (fun _ event => event) (fun _ _ answer => answer) () twoLeaves := by
  refine ⟨built_twoLeaves, ?_⟩
  rintro ⟨f, answer, t', ⟨m, hm⟩, ⟨n, hn⟩, -⟩
  have hf := hm (m + n + 10) (by omega)
  have hseen := hn (m + n + 10) (by omega)
  have hprint : forestFrom twoLeaves (m + n + 10) twoLeaves.levelIndex =
      .ok (.cons 1 (.cons 3 .nil .nil) (.cons 2 (.cons 3 .nil .nil) .nil)) := rfl
  obtain rfl := Except.ok.inj (hprint.symm.trans hf)
  have hcalls : (dispatchEvent (fun _ event => event) (fun _ _ answer => answer) (m + n + 10) ()
      twoLeaves).1 = .ok (some (), [[1], [1, 3], [2]]) := rfl
  have := hcalls.symm.trans (congrArg Prod.fst hseen)
  simp [Forest.prefixes] at this

end

end JavaFX.EventDispatchTree
