/-
What an event dispatch tree denotes, and what dispatching visits.

A tree is read as two forests of slots, the root part and the chain of the tail
(`Parts`): no slot is in both or twice in one, and no two siblings have the same
dispatcher.  `append`, `prepend` and `mergeTree` keep that.  The copying functions add
slots behind the others and leave these alone; merging writes the slots of the level it
merges into and of what is below it (`Keeps`).
-/
import JavaFX.Event.EventDispatchTree

namespace JavaFX.EventDispatchTree

open Program List

variable {D E : Type}

/-! ### Forests of slots -/

/-- A forest of slots, each with its dispatcher. -/
abbrev Slots (D : Type) : Type := Forest (Nat × D)

/-- Where a level begins. -/
def first : Slots D → Option Nat
  | .nil => none
  | .cons a _ _ => some a.1

def indices (f : Slots D) : List Nat := f.labels.map Prod.fst

def dispatchersOf (f : Slots D) : Forest D := f.map Prod.snd

/-- The links between the slots are those of the forest; the last root is linked to `r`. -/
def Holds (nodes : List (TreeNode D)) (r : Option Nat) : Slots D → Prop
  | .nil => True
  | .cons a below beside =>
    nodes[a.1]? = some ⟨some a.2, first below, (first beside).or r⟩ ∧ Holds nodes none below ∧ Holds nodes r beside

variable {nodes nodes' : List (TreeNode D)} {r : Option Nat} {f g below beside : Slots D}
  {a : Nat × D} {t t' t₁ t₂ : EventDispatchTree D} {i : Nat} {n : TreeNode D}

@[simp] theorem indices_nil : indices (.nil : Slots D) = [] := rfl

@[simp] theorem indices_cons : indices (.cons a below beside) = a.1 :: (indices below ++ indices beside) := by
  simp [indices, Forest.labels]

@[simp] theorem indices_append : indices (f.append g) = indices f ++ indices g := by
  simp [indices]

@[simp] theorem first_append : first (f.append g) = (first f).or (first g) := by
  cases f <;> simp [first, Forest.append]

theorem first_eq_none_iff : first f = none ↔ f = .nil := by
  cases f <;> simp [first]

theorem Holds.congr (h : Holds nodes r f) (hsame : ∀ i ∈ indices f, nodes'[i]? = nodes[i]?) : Holds nodes' r f := by
  induction f generalizing r with
  | nil => trivial
  | cons a below beside ihc ihs =>
    obtain ⟨ha, hc, hs⟩ := h
    simp only [indices_cons, mem_cons, mem_append] at hsame
    refine ⟨?_, ihc hc fun i hi => hsame i (.inr (.inl hi)), ihs hs fun i hi => hsame i (.inr (.inr hi))⟩
    rw [hsame a.1 (.inl rfl), ha]

theorem Holds.lt (h : Holds nodes r f) : ∀ i ∈ indices f, i < nodes.length := by
  induction f generalizing r with
  | nil => simp
  | cons a below beside ihc ihs =>
    obtain ⟨ha, hc, hs⟩ := h
    intro i hi
    simp only [indices_cons, mem_cons, mem_append] at hi
    rcases hi with rfl | hi | hi
    · exact (List.getElem?_eq_some_iff.mp ha).1
    · exact ihc hc i hi
    · exact ihs hs i hi

theorem holds_append : Holds nodes r (f.append g) ↔ Holds nodes ((first g).or r) f ∧ Holds nodes r g := by
  induction f with
  | nil => simp [Forest.append, Holds]
  | cons a below beside _ ih =>
    simp only [Forest.append, Holds, first_append, Option.or_assoc]
    grind

/-! ### What a step leaves alone -/

/-- From `t` to `t'` the links of at most the slots in `touched` change, and slots are
added. -/
structure Keeps (t t' : EventDispatchTree D) (touched : List Nat) : Prop where
  rootIndex : t'.rootIndex = t.rootIndex
  tailFirstIndex : t'.tailFirstIndex = t.tailFirstIndex
  tailLastIndex : t'.tailLastIndex = t.tailLastIndex
  expandTailFirstPath : t'.expandTailFirstPath = t.expandTailFirstPath
  length : t.nodes.length ≤ t'.nodes.length
  same : ∀ i, i < t.nodes.length → i ∉ touched → t'.nodes[i]? = t.nodes[i]?

variable {touched touched' : List Nat}

theorem Keeps.refl (t : EventDispatchTree D) (touched : List Nat) : Keeps t t touched :=
  ⟨rfl, rfl, rfl, rfl, Nat.le_refl _, fun _ _ _ => rfl⟩

theorem Keeps.trans (h : Keeps t t₁ touched) (h' : Keeps t₁ t₂ touched')
    (hsub : ∀ i ∈ touched', i < t.nodes.length → i ∈ touched) : Keeps t t₂ touched where
  rootIndex := h'.rootIndex.trans h.rootIndex
  tailFirstIndex := h'.tailFirstIndex.trans h.tailFirstIndex
  tailLastIndex := h'.tailLastIndex.trans h.tailLastIndex
  expandTailFirstPath := h'.expandTailFirstPath.trans h.expandTailFirstPath
  length := Nat.le_trans h.length h'.length
  same := by
    intro i hi hnot
    have hi' : i ∉ touched' := fun hmem => hnot (hsub i hmem hi)
    rw [h'.same i (Nat.lt_of_lt_of_le hi h.length) hi', h.same i hi hnot]

theorem Keeps.trans_new {k : Nat} (h : Keeps t t₁ touched) (h' : Keeps t₁ t₂ [k])
    (hk : t.nodes.length ≤ k) : Keeps t t₂ touched := by
  refine h.trans h' fun i hi hlt => ?_
  simp only [mem_singleton] at hi
  omega

theorem Keeps.mono (h : Keeps t t' touched) (hsub : touched ⊆ touched') : Keeps t t' touched' :=
  { h with same := fun i hi hnot => h.same i hi fun hmem => hnot (hsub hmem) }

theorem Keeps.getElem? (h : Keeps t t' touched) (hi : t.nodes[i]? = some n) (hnot : i ∉ touched) :
    t'.nodes[i]? = some n := by
  rw [h.same i (List.getElem?_eq_some_iff.mp hi).1 hnot, hi]

theorem Keeps.holds (h : Keeps t t' touched) (hf : Holds t.nodes r f)
    (hnot : ∀ i ∈ indices f, i ∉ touched) : Holds t'.nodes r f :=
  hf.congr fun i hi => h.same i (hf.lt i hi) (hnot i hi)

theorem keeps_set (t : EventDispatchTree D) (i : Nat) (n : TreeNode D) :
    Keeps t { t with nodes := t.nodes.set i n } [i] where
  rootIndex := rfl
  tailFirstIndex := rfl
  tailLastIndex := rfl
  expandTailFirstPath := rfl
  length := by simp
  same := by
    intro j _ hj
    have hne : i ≠ j := fun h => hj (by simp [h])
    simp [getElem?_set_ne hne]

theorem keeps_reserve (t : EventDispatchTree D) (n : TreeNode D) : Keeps t { t with nodes := t.nodes ++ [n] } [] where
  rootIndex := rfl
  tailFirstIndex := rfl
  tailLastIndex := rfl
  expandTailFirstPath := rfl
  length := by simp
  same := fun j hj _ => getElem?_append_left hj

/-! ### Single steps -/

theorem nodeAt_eq (h : t.nodes[i]? = some n) : t.nodeAt i = .ok n := by
  have hget : getAt t.nodes (i : Int) = .ok n := by
    rw [getAt_eq_ok]
    exact ⟨by omega, by simpa using h⟩
  rw [nodeAt, hget]
  rfl

theorem node_apply (h : t.nodes[i]? = some n) : node i t = (.ok n, t) := by
  rw [node, nodeAt_eq h]

theorem sourceNode_apply {src : Option (EventDispatchTree D)} (h : (src.getD t).nodes[i]? = some n) :
    sourceNode src i t = (.ok n, t) := by
  rw [sourceNode, nodeAt_eq h]

variable {change : TreeNode D → TreeNode D}

theorem setNode_spec (h : t.nodes[i]? = some n) :
    ∃ t', setNode i change t = (.ok (), t') ∧ Keeps t t' [i] ∧ t'.nodes[i]? = some (change n) ∧
      t'.nodes.length = t.nodes.length := by
  refine ⟨{ t with nodes := t.nodes.set i (change n) }, ?_, keeps_set t i _, ?_, by simp⟩
  · rw [setNode, bind_ok (node_apply h)]
    rfl
  · have hi := (List.getElem?_eq_some_iff.mp h).1
    simp [getElem?_set_self hi]

theorem setNode_self (h : t.nodes[i]? = some n) (hn : change n = n) : setNode i change t = (.ok (), t) := by
  obtain ⟨hi, hget⟩ := List.getElem?_eq_some_iff.mp h
  rw [setNode, bind_ok (node_apply h), hn]
  show (_, { t with nodes := t.nodes.set i n }) = _
  rw [← hget, set_getElem_self hi]

theorem setDispatcher_spec (dispatcher : Option D) (h : t.nodes[i]? = some n) :
    ∃ t', setDispatcher i dispatcher t = (.ok (), t') ∧ Keeps t t' [i] ∧
      t'.nodes[i]? = some { n with dispatcher } ∧ t'.nodes.length = t.nodes.length :=
  setNode_spec h

theorem setNextChild_spec (nextChild : Option Nat) (h : t.nodes[i]? = some n) :
    ∃ t', setNextChild i nextChild t = (.ok (), t') ∧ Keeps t t' [i] ∧
      t'.nodes[i]? = some { n with nextChild } ∧ t'.nodes.length = t.nodes.length :=
  setNode_spec h

theorem setNextSibling_spec (nextSibling : Option Nat) (h : t.nodes[i]? = some n) :
    ∃ t', setNextSibling i nextSibling t = (.ok (), t') ∧ Keeps t t' [i] ∧
      t'.nodes[i]? = some { n with nextSibling } ∧ t'.nodes.length = t.nodes.length :=
  setNode_spec h

/-! ### Following `getChildIndex` -/

/-- The child of a slot whose link is `child`. -/
def childOf (t : EventDispatchTree D) (i : Nat) (child : Option Nat) : Option Nat :=
  if child = none ∧ some i ≠ t.tailLastIndex then t.tailFirstIndex else child

/-- The forest that `getChildIndex` and the sibling links show. -/
def Shows (t : EventDispatchTree D) : Slots D → Prop
  | .nil => True
  | .cons a below beside =>
    (∃ child, t.nodes[a.1]? = some ⟨some a.2, child, first beside⟩ ∧
      childOf t a.1 child = first below) ∧ Shows t below ∧ Shows t beside

theorem getChildIndex_eq (h : t.nodes[i]? = some n) : getChildIndex t i = .ok (childOf t i n.nextChild) := by
  rw [getChildIndex, nodeAt_eq h, childOf]
  show (if n.nextChild = none ∧ some i ≠ t.tailLastIndex then _ else _) = _
  split <;> rfl

theorem Keeps.childOf (h : Keeps t t' touched) (i : Nat) (child : Option Nat) :
    childOf t' i child = childOf t i child := by
  rw [EventDispatchTree.childOf, EventDispatchTree.childOf, h.tailFirstIndex, h.tailLastIndex]

theorem Keeps.shows (h : Keeps t t' touched) (hf : Shows t f) (hnot : ∀ i ∈ indices f, i ∉ touched) : Shows t' f := by
  induction f with
  | nil => trivial
  | cons a below beside ihc ihs =>
    obtain ⟨⟨child, ha, hchild⟩, hc, hs⟩ := hf
    simp only [indices_cons, mem_cons, mem_append] at hnot
    refine ⟨⟨child, h.getElem? ha (hnot a.1 (.inl rfl)), ?_⟩,
      ihc hc fun i hi => hnot i (.inr (.inl hi)), ihs hs fun i hi => hnot i (.inr (.inr hi))⟩
    rw [h.childOf, hchild]

theorem Shows.lt (h : Shows t f) : ∀ i ∈ indices f, i < t.nodes.length := by
  induction f with
  | nil => simp
  | cons a below beside ihc ihs =>
    obtain ⟨⟨child, ha, -⟩, hc, hs⟩ := h
    intro i hi
    simp only [indices_cons, mem_cons, mem_append] at hi
    rcases hi with rfl | hi | hi
    · exact (List.getElem?_eq_some_iff.mp ha).1
    · exact ihc hc i hi
    · exact ihs hs i hi

/-- A source that is another tree does not change; `this` changes in `touched` only. -/
theorem Keeps.source {src : Option (EventDispatchTree D)} (h : Keeps t t' touched)
    (hf : Shows (src.getD t) f) (hnot : src = none → ∀ i ∈ indices f, i ∉ touched) :
    Shows (src.getD t') f := by
  cases src with
  | some s => exact hf
  | none => exact h.shows hf (hnot rfl)

/-! ### Copying -/

/-- `f` is a copy of `g` in slots that `t` does not have. -/
structure Copied (t t' : EventDispatchTree D) (f g : Slots D) : Prop where
  holds : Holds t'.nodes none f
  dispatchers : dispatchersOf f = dispatchersOf g
  nodup : (indices f).Nodup
  new : ∀ i ∈ indices f, t.nodes.length ≤ i

variable {src : Option (EventDispatchTree D)}

/-- What a call of `copyTreeLevel` for a level that shows `g` comes to. -/
def CopiesLevel (src : Option (EventDispatchTree D)) (g : Slots D) : Prop :=
  ∀ t, Shows (src.getD t) g → ∃ f t', Returns (fun fuel => copyTreeLevel src fuel (first g)) t
    (first f) t' ∧ Keeps t t' [] ∧ Copied t t' f g

/-- What its loop comes to: the copies are linked to the slot `last`. -/
def CopiesSiblings (src : Option (EventDispatchTree D)) (g : Slots D) : Prop :=
  ∀ t last n, t.nodes[last]? = some n → Shows (src.getD t) g → (src = none → last ∉ indices g) →
    ∃ f t', Returns (fun fuel => copySiblings src fuel last (first g) >>= (setNextSibling · none))
      t () t' ∧ Keeps t t' [last] ∧ t'.nodes[last]? = some { n with nextSibling := first f } ∧
      Copied t t' f g

theorem copySubtree_spec (hbelow : CopiesLevel src below) (h : Shows (src.getD t) (.cons a below beside)) :
    ∃ f t', Returns (fun fuel => copySubtree src fuel a.1) t t.nodes.length t' ∧ Keeps t t' [] ∧
      t'.nodes[t.nodes.length]? = some ⟨some a.2, first f, some 0⟩ ∧
      Copied t t' f below ∧ t.nodes.length ∉ indices f := by
  -- The new slot.
  set t₁ : EventDispatchTree D := { t with nodes := t.nodes ++ [⟨none, some 0, some 0⟩] } with ht₁
  have hkeep₁ : Keeps t t₁ [] := keeps_reserve t _
  have hnew₁ : t₁.nodes[t.nodes.length]? = some ⟨none, some 0, some 0⟩ := by simp [ht₁]
  have hlen₁ : t₁.nodes.length = t.nodes.length + 1 := by simp [ht₁]
  have hsrc₁ := hkeep₁.source h fun _ _ _ => not_mem_nil
  obtain ⟨⟨child₁, ha₁, hchild₁⟩, hc₁, -⟩ := id hsrc₁
  -- Its children.
  obtain ⟨f, t₂, hret, hkeep₂, hcopy⟩ := hbelow t₁ hc₁
  have hsrc₂ := hkeep₂.source hsrc₁ fun _ _ _ => not_mem_nil
  obtain ⟨⟨child₂, ha₂, -⟩, -, -⟩ := hsrc₂
  have hnew₂ := hkeep₂.getElem? hnew₁ not_mem_nil
  have hnot : t.nodes.length ∉ indices f := fun hmem => by
    have := hcopy.new _ hmem
    omega
  -- Its dispatcher and its link.
  obtain ⟨t₃, hset₃, hkeep₃, hnew₃, -⟩ := setDispatcher_spec (some a.2) hnew₂
  obtain ⟨t₄, hset₄, hkeep₄, hnew₄, -⟩ := setNextChild_spec (first f) hnew₃
  refine ⟨f, t₄, ?_, ?_, hnew₄, ⟨?_, hcopy.dispatchers, hcopy.nodup, ?_⟩, hnot⟩
  · refine Returns.succ ?_ fun fuel => by rw [copySubtree]
    have hreserve : reserve t = (.ok t.nodes.length, t₁) := rfl
    refine Returns.after hreserve ?_
    have hsci : sourceChildIndex src a.1 t₁ = (.ok (first below), t₁) := by
      rw [sourceChildIndex, getChildIndex_eq ha₁, hchild₁]
    refine Returns.after hsci (Returns.bind hret ?_)
    refine Returns.after (sourceNode_apply ha₂) (Returns.after hset₃ (Returns.after hset₄ ?_))
    exact returns_pure _ _
  · have hkeep : Keeps t t₂ [] := hkeep₁.trans hkeep₂ fun i hi => absurd hi not_mem_nil
    have hkeep' : Keeps t t₃ [] := hkeep.trans hkeep₃ fun i hi hlt => by
      simp only [mem_singleton] at hi
      omega
    exact hkeep'.trans hkeep₄ fun i hi hlt => by
      simp only [mem_singleton] at hi
      omega
  · have hne : ∀ i ∈ indices f, i ∉ [t.nodes.length] := fun i hi hmem => by
      simp only [mem_singleton] at hmem
      exact hnot (hmem ▸ hi)
    exact hkeep₄.holds (hkeep₃.holds hcopy.holds hne) hne
  · intro i hi
    have := hcopy.new i hi
    omega

theorem Copied.cons {f₁ f₂ : Slots D} {k : Nat} (hlt : k < t₁.nodes.length)
    (hk : t.nodes.length ≤ k) (hnot : k ∉ indices f₁)
    (hnode : t₂.nodes[k]? = some ⟨some a.2, first f₁, first f₂⟩) (h₁ : Copied t t₁ f₁ below)
    (hkeep : Keeps t₁ t₂ [k]) (h₂ : Copied t₁ t₂ f₂ beside) :
    Copied t t₂ (.cons (k, a.2) f₁ f₂) (.cons a below beside) where
  holds := by
    refine ⟨by simpa using hnode, hkeep.holds h₁.holds fun i hi hmem => ?_, h₂.holds⟩
    simp only [mem_singleton] at hmem
    exact hnot (hmem ▸ hi)
  dispatchers := by
    have hd₁ := h₁.dispatchers
    have hd₂ := h₂.dispatchers
    simp only [dispatchersOf] at hd₁ hd₂
    simp [dispatchersOf, Forest.map, hd₁, hd₂]
  nodup := by
    have hbelow : ∀ i ∈ indices f₁, i < t₁.nodes.length := h₁.holds.lt
    rw [indices_cons, nodup_cons, nodup_append]
    refine ⟨?_, h₁.nodup, h₂.nodup, ?_⟩
    · intro hmem
      rcases List.mem_append.mp hmem with hmem | hmem
      · exact hnot hmem
      · have := h₂.new k hmem
        omega
    · rintro i hi j hj rfl
      have := hbelow i hi
      have := h₂.new i hj
      omega
  new := by
    intro i hi
    simp only [indices_cons, mem_cons, mem_append] at hi
    rcases hi with rfl | hi | hi
    · exact hk
    · exact h₁.new i hi
    · have := h₂.new i hi
      omega

/-- **Copying a level.**  The new level has the dispatchers the source shows, with the tail
of the source below its leaves. -/
theorem copy_spec (src : Option (EventDispatchTree D)) (g : Slots D) : CopiesLevel src g ∧ CopiesSiblings src g := by
  induction g with
  | nil =>
    constructor
    · intro t _
      refine ⟨.nil, t, ?_, Keeps.refl t [], ⟨trivial, rfl, by simp, by simp⟩⟩
      exact Returns.succ (returns_pure none t) fun fuel => by rw [first, copyTreeLevel]
    · intro t last n hn _ _
      obtain ⟨t', hset, hkeep, hn', -⟩ := setNextSibling_spec none hn
      refine ⟨.nil, t', ?_, hkeep, hn', ⟨trivial, rfl, by simp, by simp⟩⟩
      refine Returns.bind (Returns.succ (returns_pure last t) fun fuel => ?_) (returns_of_eq hset)
      rw [first, copySiblings]
  | cons a below beside ihc ihs =>
    constructor
    · intro t h
      obtain ⟨f₁, t₁, hret₁, hkeep₁, hnode₁, hcopy₁, hnot⟩ := copySubtree_spec ihc.1 h
      have hlt : t.nodes.length < t₁.nodes.length := (List.getElem?_eq_some_iff.mp hnode₁).1
      have hsrc₁ := hkeep₁.source h fun _ _ _ => not_mem_nil
      obtain ⟨⟨child, ha, -⟩, -, hs⟩ := id hsrc₁
      have hfree : src = none → t.nodes.length ∉ indices beside := by
        rintro rfl hmem
        exact absurd (Shows.lt h.2.2 _ hmem) (Nat.lt_irrefl _)
      obtain ⟨f₂, t₂, hret₂, hkeep₂, hnode₂, hcopy₂⟩ :=
        ihs.2 t₁ t.nodes.length _ hnode₁ hs hfree
      refine ⟨.cons (t.nodes.length, a.2) f₁ f₂, t₂, ?_, ?_,
        Copied.cons hlt (Nat.le_refl _) hnot hnode₂ hcopy₁ hkeep₂ hcopy₂⟩
      · refine Returns.succ ?_ fun fuel => by rw [first]
        refine Returns.bind hret₁ (Returns.after (sourceNode_apply ha) ?_)
        simpa only [seq_assoc] using Returns.bind hret₂ (returns_pure (some t.nodes.length) t₂)
      · refine hkeep₁.trans hkeep₂ fun i hi hlt => ?_
        simp only [mem_singleton] at hi
        omega
    · intro t last n hn h hlast
      obtain ⟨f₁, t₁, hret₁, hkeep₁, hnode₁, hcopy₁, hnot⟩ := copySubtree_spec ihc.1 h
      have hlt : t.nodes.length < t₁.nodes.length := (List.getElem?_eq_some_iff.mp hnode₁).1
      have hltLast : last < t.nodes.length := (List.getElem?_eq_some_iff.mp hn).1
      have hsrc₁ := hkeep₁.source h fun _ _ _ => not_mem_nil
      -- The new subtree is linked to the one before.
      obtain ⟨t₂, hset, hkeep₂, hn₂, hlen₂⟩ :=
        setNextSibling_spec (some t.nodes.length) (hkeep₁.getElem? hn not_mem_nil)
      have hne : t.nodes.length ∉ [last] := by
        simp only [mem_singleton]
        omega
      have hnode₂ := hkeep₂.getElem? hnode₁ hne
      have hsrc₂ := hkeep₂.source hsrc₁ fun hnone i hi hmem => by
        simp only [mem_singleton] at hmem
        exact hlast hnone (hmem ▸ hi)
      obtain ⟨⟨child, ha, -⟩, -, hs⟩ := id hsrc₂
      have hfree : src = none → t.nodes.length ∉ indices beside := by
        rintro rfl hmem
        exact absurd (Shows.lt h.2.2 _ hmem) (Nat.lt_irrefl _)
      have hbelow : ∀ i ∈ indices f₁, i ∉ [last] := fun i hi hmem => by
        simp only [mem_singleton] at hmem
        have := hcopy₁.new i hi
        omega
      have hcopy₁' : Copied t t₂ f₁ below :=
        ⟨hkeep₂.holds hcopy₁.holds hbelow, hcopy₁.dispatchers, hcopy₁.nodup, hcopy₁.new⟩
      obtain ⟨f₂, t₃, hret₃, hkeep₃, hnode₃, hcopy₃⟩ :=
        ihs.2 t₂ t.nodes.length _ hnode₂ hs hfree
      refine ⟨.cons (t.nodes.length, a.2) f₁ f₂, t₃, ?_, ?_, ?_,
        Copied.cons (by omega) (Nat.le_refl _) hnot hnode₃ hcopy₁' hkeep₃ hcopy₃⟩
      · have hstep : ∀ fuel, (copySiblings src (fuel + 1) last (some a.1) >>=
              (setNextSibling · none)) = copySubtree src fuel a.1 >>= fun dst =>
                setNextSibling last (some dst) >>= fun _ => sourceNode src a.1 >>= fun n =>
                  copySiblings src fuel dst n.nextSibling >>= (setNextSibling · none) := by
          intro fuel
          simp only [copySiblings, seq_assoc]
        refine Returns.succ ?_ hstep
        exact Returns.bind hret₁ (Returns.after hset (Returns.after (sourceNode_apply ha) hret₃))
      · have hkeep : Keeps t t₂ [last] :=
          (hkeep₁.mono (by simp)).trans hkeep₂ fun i hi _ => hi
        refine hkeep.trans hkeep₃ fun i hi hlt => ?_
        simp only [mem_singleton] at hi
        omega
      · exact hkeep₃.getElem? hn₂ fun hmem => hne (by simpa [eq_comm] using hmem)

/-! ### Changing a level in place -/

/-- The level `f` has become `f'`: it begins at the same slot, and what is not from `f` is
from `extra` or new. -/
structure Grown (t t' : EventDispatchTree D) (extra : List Nat) (f f' : Slots D) : Prop where
  keeps : Keeps t t' (indices f)
  holds : Holds t'.nodes none f'
  start : first f' = first f
  nodup : (indices f').Nodup
  origin : ∀ i ∈ indices f', i ∈ indices f ∨ i ∈ extra ∨ t.nodes.length ≤ i

variable {extra : List Nat} {f' f'' below' beside' : Slots D}

theorem Grown.trans (h : Grown t t₁ [] f f') (h' : Grown t₁ t₂ [] f' f'') : Grown t t₂ [] f f'' where
  keeps := by
    refine h.keeps.trans h'.keeps fun i hi hlt => ?_
    rcases h.origin i hi with hi' | hi' | hi'
    · exact hi'
    · exact absurd hi' not_mem_nil
    · omega
  holds := h'.holds
  start := h'.start.trans h.start
  nodup := h'.nodup
  origin := by
    intro i hi
    have hlen := h.keeps.length
    rcases h'.origin i hi with hi | hi | hi
    · exact h.origin i hi
    · exact absurd hi not_mem_nil
    · exact .inr (.inr (by omega))

theorem Grown.then_beside (h : Grown t t₁ extra (.cons a below beside) (.cons a below' beside))
    (h' : Grown t₁ t₂ [] beside beside') :
    Grown t t₂ extra (.cons a below beside) (.cons a below' beside') := by
  obtain ⟨hnode, hbelow, hbeside⟩ := h.holds
  have hnodup := h.nodup
  have hnodup' := h'.nodup
  have hlt := h.holds.lt
  have hlen := h.keeps.length
  have horigin := h.origin
  have horigin' := h'.origin
  have hfree : ∀ i, i = a.1 ∨ i ∈ indices below' → i ∉ indices beside := by
    intro i hi hmem
    simp only [indices_cons, nodup_cons, nodup_append] at hnodup
    grind
  constructor
  · refine h.keeps.trans h'.keeps fun i hi hlt => ?_
    simp [hi]
  · refine ⟨?_, h'.keeps.holds hbelow fun i hi => hfree i (.inr hi), h'.holds⟩
    rw [h'.start]
    exact h'.keeps.getElem? hnode (hfree a.1 (.inl rfl))
  · rfl
  · simp only [indices_cons, nodup_cons, nodup_append, mem_append, mem_cons] at *
    grind
  · intro i hi
    simp only [indices_cons, mem_append, mem_cons] at *
    grind

theorem grown_child (above : Slots D) (h : Holds t.nodes none (above.append (.cons a below beside)))
    (hnodup : (indices (above.append (.cons a below beside))).Nodup)
    (hextra : ∀ i ∈ extra, i ∉ indices (above.append (.cons a below beside)))
    (hkeep : Keeps t t' (a.1 :: indices below))
    (hnode : t'.nodes[a.1]? = some ⟨some a.2, first below', first beside⟩)
    (hbelow : Holds t'.nodes none below') (hnodup' : (indices below').Nodup)
    (horigin : ∀ i ∈ indices below', i ∈ indices below ∨ i ∈ extra ∨ t.nodes.length ≤ i) :
    Grown t t' extra (above.append (.cons a below beside)) (above.append (.cons a below' beside)) := by
  have hlt := h.lt
  simp only [indices_append, indices_cons] at hnodup hextra hlt
  constructor
  · exact hkeep.mono fun i hi => by
      simp only [indices_append, indices_cons, mem_append, mem_cons] at hi ⊢
      grind
  · rw [holds_append] at h ⊢
    obtain ⟨habove, -, -, hbeside⟩ := h
    have hfree : ∀ i, i ∈ indices above ∨ i ∈ indices beside → i ∉ a.1 :: indices below := by
      intro i hi hmem
      grind
    refine ⟨hkeep.holds habove fun i hi => hfree i (.inl hi), by simpa using hnode, hbelow,
      hkeep.holds hbeside fun i hi => hfree i (.inr hi)⟩
  · rw [first_append, first_append]
    rfl
  · simp only [indices_append, indices_cons, nodup_append] at *
    grind
  · intro i hi
    simp only [indices_append, indices_cons, mem_append, mem_cons] at hi ⊢
    have := horigin i
    grind

/-! ### Expanding the tail -/

/-- `tail` is the tail of the tree, also for those who look through `getChildIndex`. -/
structure HasTail (t : EventDispatchTree D) (tail : Slots D) : Prop where
  start : t.tailFirstIndex = first tail
  shows : Shows t tail
  holds : Holds t.nodes none tail
  nodup : (indices tail).Nodup

variable {tail : Slots D}

theorem HasTail.keep (h : HasTail t tail) (hkeep : Keeps t t' touched)
    (hfree : ∀ i ∈ indices tail, i ∉ touched) : HasTail t' tail where
  start := hkeep.tailFirstIndex.trans h.start
  shows := hkeep.shows h.shows hfree
  holds := hkeep.holds h.holds hfree
  nodup := h.nodup

/-- The tree after the first leaf got the tail itself. -/
abbrev firstPathDone (t : EventDispatchTree D) : EventDispatchTree D :=
  { t with expandTailFirstPath := false }

theorem Keeps.firstPathDone (h : Keeps t t' touched) :
    Keeps (firstPathDone t) (EventDispatchTree.firstPathDone t') touched :=
  { h with expandTailFirstPath := rfl }

theorem firstPathDone_eq (h : t.expandTailFirstPath = false) : firstPathDone t = t := by
  rw [firstPathDone, ← h]

theorem HasTail.firstPathDone (h : HasTail t tail) : HasTail (EventDispatchTree.firstPathDone t) tail := by
  refine ⟨h.start, ?_, h.holds, h.nodup⟩
  have hshows : ∀ f : Slots D, Shows t f → Shows (EventDispatchTree.firstPathDone t) f := by
    intro f
    induction f with
    | nil => exact id
    | cons a below beside ihc ihs => exact fun ⟨ha, hc, hs⟩ => ⟨ha, ihc hc, ihs hs⟩
  exact hshows tail h.shows

/-- The slots of the tail itself go to the first leaf only. -/
abbrev spent (t : EventDispatchTree D) (tail : Slots D) : List Nat :=
  if t.expandTailFirstPath then indices tail else []

/-- What a call of `expandTail` comes to.  If the first leaf has been there already, every
leaf gets a copy. -/
def Expands (tail f : Slots D) : Prop :=
  ∀ t, HasTail t tail → (t.expandTailFirstPath = true → f ≠ .nil) → Holds t.nodes none f →
    (indices f).Nodup → (∀ i ∈ indices tail, i ∉ indices f) →
    ∃ f' t', Returns (fun fuel => expandTail fuel (first f)) t () t' ∧ Grown (firstPathDone t) t' (spent t tail) f f' ∧
      dispatchersOf f' = Forest.graft (dispatchersOf tail) (dispatchersOf f)

theorem spent_free (hfree : ∀ i ∈ indices tail, i ∉ indices f) : ∀ i ∈ spent t tail, i ∉ indices f := by
  intro i hi
  rw [spent] at hi
  split at hi
  · exact hfree i hi
  · exact absurd hi not_mem_nil

theorem expandNode_leaf (htail : HasTail t tail) (h : Holds t.nodes none (.cons a .nil beside))
    (hnodup : (indices (.cons a .nil beside)).Nodup)
    (hfree : ∀ i ∈ indices tail, i ∉ indices (.cons a .nil beside)) :
    ∃ below' t', Returns (fun fuel => expandNode fuel a.1) t () t' ∧
      Grown (firstPathDone t) t' (spent t tail) (.cons a .nil beside) (.cons a below' beside) ∧
      dispatchersOf below' = dispatchersOf tail := by
  have hnode : t.nodes[a.1]? = some ⟨some a.2, none, first beside⟩ := by simpa [first] using h.1
  have ha : ∀ i ∈ indices tail, i ∉ [a.1] := fun i hi hmem =>
    hfree i hi (by simp [List.mem_singleton.mp hmem])
  by_cases hflag : t.expandTailFirstPath = true
  · obtain ⟨t₁, hset, hkeep, hnode₁, -⟩ := setNextChild_spec (first tail) hnode
    refine ⟨tail, firstPathDone t₁, ?_, ?_, rfl⟩
    · refine Returns.succ ?_ fun fuel => by rw [expandNode]
      refine Returns.after (node_apply hnode) (Returns.after (read_apply id t) ?_)
      rw [← htail.start] at hset
      simp only [id, hflag]
      exact Returns.after hset (returns_of_eq rfl)
    · refine grown_child .nil h hnodup (spent_free hfree) ?_ hnode₁ ?_ htail.nodup ?_
      · exact hkeep.firstPathDone.mono (by simp)
      · exact hkeep.holds htail.holds ha
      · intro i hi
        simp [hflag, hi]
  · have hflag' : t.expandTailFirstPath = false := by simpa using hflag
    obtain ⟨below', t₁, hret, hkeep, hcopy⟩ := (copy_spec none tail).1 t htail.shows
    obtain ⟨t₂, hset, hkeep₂, hnode₂, -⟩ :=
      setNextChild_spec (first below') (hkeep.getElem? hnode not_mem_nil)
    have hlt : a.1 < t.nodes.length := (List.getElem?_eq_some_iff.mp hnode).1
    rw [firstPathDone_eq hflag']
    refine ⟨below', t₂, ?_, ?_, hcopy.dispatchers⟩
    · refine Returns.succ ?_ fun fuel => by rw [expandNode]
      refine Returns.after (node_apply hnode) (Returns.after (read_apply id t) ?_)
      rw [← htail.start] at hret
      simp only [id, hflag]
      exact Returns.bind hret (returns_of_eq hset)
    · refine grown_child .nil h hnodup (spent_free hfree) ?_ hnode₂ ?_ hcopy.nodup ?_
      · exact (hkeep.mono (by simp)).trans hkeep₂ fun i hi _ => by simpa using hi
      · refine hkeep₂.holds hcopy.holds fun i hi hmem => ?_
        have := hcopy.new i hi
        simp only [mem_singleton] at hmem
        omega
      · exact fun i hi => .inr (.inr (hcopy.new i hi))

theorem expandNode_inner (hbelow : Expands tail below) (hne : below ≠ .nil) (htail : HasTail t tail)
    (h : Holds t.nodes none (.cons a below beside))
    (hnodup : (indices (.cons a below beside)).Nodup)
    (hfree : ∀ i ∈ indices tail, i ∉ indices (.cons a below beside)) :
    ∃ below' t', Returns (fun fuel => expandNode fuel a.1) t () t' ∧
      Grown (firstPathDone t) t' (spent t tail) (.cons a below beside) (.cons a below' beside) ∧
      dispatchersOf below' = Forest.graft (dispatchersOf tail) (dispatchersOf below) := by
  obtain ⟨hnode, hholds, hbeside⟩ := id h
  have hnodups := hnodup
  simp only [indices_cons, nodup_cons, nodup_append, mem_append, not_or] at hnodups
  obtain ⟨below', t₁, hret, hgrown, hdisp⟩ := hbelow t htail (fun _ => hne) hholds hnodups.2.1
    (fun i hi hmem => hfree i hi (by simp [hmem]))
  refine ⟨below', t₁, ?_, ?_, hdisp⟩
  · refine Returns.succ ?_ fun fuel => by rw [expandNode]
    refine Returns.after (node_apply hnode) ?_
    obtain ⟨child, hchild⟩ : ∃ child, first below = some child :=
      Option.ne_none_iff_exists'.mp fun hnone => hne (first_eq_none_iff.mp hnone)
    rw [hchild] at hret ⊢
    exact hret
  · refine grown_child .nil h hnodup (spent_free hfree) ?_ ?_ hgrown.holds hgrown.nodup hgrown.origin
    · exact hgrown.keeps.mono (by simp)
    · rw [hgrown.start]
      have hnode' : (firstPathDone t).nodes[a.1]? = some ⟨some a.2, first below, first beside⟩ := by
        simpa using hnode
      exact hgrown.keeps.getElem? hnode' hnodups.1.1

/-- **Expanding the tail.** -/
theorem expand_spec (tail f : Slots D) : Expands tail f := by
  induction f with
  | nil =>
    intro t htail hflag h hnodup _
    have hflag' : t.expandTailFirstPath = false := by
      by_contra hne
      exact hflag (by simpa using hne) rfl
    rw [firstPathDone_eq hflag']
    refine ⟨.nil, t, ?_, ⟨Keeps.refl t _, trivial, rfl, by simp, by simp⟩, rfl⟩
    exact Returns.succ (returns_pure () t) fun fuel => by rw [first, expandTail]
  | cons a below beside ihc ihs =>
    intro t htail _ h hnodup hfree
    -- The body of the loop, whichever branch it takes.
    obtain ⟨below', t₁, hret₁, hgrown₁, hdisp₁⟩ : ∃ below' t₁, Returns (fun fuel => expandNode fuel a.1) t () t₁ ∧
        Grown (firstPathDone t) t₁ (spent t tail) (.cons a below beside) (.cons a below' beside) ∧
        Forest.cons a.2 (dispatchersOf below') (Forest.graft (dispatchersOf tail) (dispatchersOf beside)) =
          Forest.graft (dispatchersOf tail) (dispatchersOf (.cons a below beside)) := by
      cases below with
      | nil =>
        obtain ⟨below', t₁, hret, hgrown, hdisp⟩ := expandNode_leaf htail h hnodup hfree
        exact ⟨below', t₁, hret, hgrown, by rw [hdisp]; rfl⟩
      | cons b c d =>
        obtain ⟨below', t₁, hret, hgrown, hdisp⟩ :=
          expandNode_inner ihc (by simp) htail h hnodup hfree
        exact ⟨below', t₁, hret, hgrown, by rw [hdisp]; rfl⟩
    obtain ⟨hnode₁, hbelow₁, hbeside₁⟩ := id hgrown₁.holds
    have htail₁ : HasTail t₁ tail := htail.firstPathDone.keep hgrown₁.keeps hfree
    have hnodups := hgrown₁.nodup
    simp only [indices_cons, nodup_cons, nodup_append] at hnodups
    obtain ⟨beside', t₂, hret₂, hgrown₂, hdisp₂⟩ := ihs t₁ htail₁
      (fun hflag => by rw [hgrown₁.keeps.expandTailFirstPath] at hflag; simp at hflag) hbeside₁
      hnodups.2.2.1 (fun i hi hmem => hfree i hi (by simp [hmem]))
    have hflag₁ : t₁.expandTailFirstPath = false := hgrown₁.keeps.expandTailFirstPath
    rw [firstPathDone_eq hflag₁, spent, hflag₁] at hgrown₂
    refine ⟨.cons a below' beside', t₂, ?_, hgrown₁.then_beside hgrown₂, ?_⟩
    · refine Returns.succ ?_ fun fuel => by rw [first]
      refine Returns.bind hret₁ (Returns.after (node_apply hnode₁) ?_)
      simpa using hret₂
    · rw [← hdisp₁, ← hdisp₂]
      rfl

/-! ### Merging -/

section
variable [DecidableEq D] {d : D}

theorem exists_root (d : D) (f : Slots D) :
    d ∉ (dispatchersOf f).roots ∨ ∃ (above : Slots D) (k : Nat) (below beside : Slots D),
      f = above.append (.cons (k, d) below beside) ∧ d ∉ (dispatchersOf above).roots := by
  induction f with
  | nil => exact .inl not_mem_nil
  | cons a below beside _ ih =>
    by_cases hd : d = a.2
    · exact .inr ⟨.nil, a.1, below, beside, by rw [hd]; rfl, not_mem_nil⟩
    rcases ih with hnot | ⟨above, k, below', beside', rfl, hnot⟩
    · exact .inl (by simpa [dispatchersOf, Forest.roots, hd] using hnot)
    · refine .inr ⟨.cons a below above, k, below', beside', rfl, ?_⟩
      simpa [dispatchersOf, Forest.roots, hd] using hnot

theorem exists_last (hne : f ≠ .nil) :
    ∃ (above : Slots D) (a : Nat × D) (below : Slots D), f = above.append (.cons a below .nil) := by
  induction f with
  | nil => exact absurd rfl hne
  | cons a below beside _ ih =>
    cases beside with
    | nil => exact ⟨.nil, a, below, rfl⟩
    | cons b c d =>
      obtain ⟨above, a', below', heq⟩ := ih (by simp)
      exact ⟨.cons a below above, a', below', by rw [heq]; rfl⟩

variable {k : Nat}

theorem findSibling_found (above : Slots D) (last : Nat)
    (h : Holds t.nodes none (above.append (.cons (k, d) below beside)))
    (hnot : d ∉ (dispatchersOf above).roots) :
    ∃ last', Returns (fun fuel => findSibling (some d) fuel last
      (first (above.append (.cons (k, d) below beside)))) t (some k, last') t := by
  induction above generalizing last with
  | nil =>
    refine ⟨last, Returns.succ ?_ fun fuel => by rw [Forest.append]⟩
    refine Returns.after (node_apply h.1) ?_
    simp only [ne_eq]
    exact returns_pure _ t
  | cons a c above _ ih =>
    simp only [dispatchersOf, Forest.map, Forest.roots, mem_cons, not_or] at hnot
    obtain ⟨last', hret⟩ := ih a.1 h.2.2 hnot.2
    refine ⟨last', Returns.succ ?_ fun fuel => by rw [Forest.append]⟩
    refine Returns.after (node_apply h.1) ?_
    have hne : some d ≠ some a.2 := fun heq => hnot.1 (Option.some.inj heq)
    simpa only [hne, ne_eq, not_false_eq_true, if_true, Option.or_none] using hret

theorem findSibling_missing (above : Slots D) (last : Nat)
    (h : Holds t.nodes none (above.append (.cons a below .nil)))
    (hnot : d ∉ (dispatchersOf (above.append (.cons a below .nil))).roots) :
    Returns (fun fuel => findSibling (some d) fuel last (first (above.append (.cons a below .nil)))) t
      (none, a.1) t := by
  induction above generalizing last with
  | nil =>
    have hne : some d ≠ some a.2 := by
      simpa [dispatchersOf, Forest.roots] using hnot
    refine Returns.succ ?_ fun fuel => by rw [Forest.append]
    refine Returns.after (node_apply h.1) ?_
    simp only [hne, ne_eq, not_false_eq_true, if_true]
    refine Returns.succ (returns_pure _ t) fun fuel => ?_
    simp only [first, Option.or_none]
    rw [findSibling]
  | cons b c above _ ih =>
    simp only [dispatchersOf, Forest.append, Forest.map, Forest.roots, mem_cons, not_or] at hnot
    have hne : some d ≠ some b.2 := fun heq => hnot.1 (Option.some.inj heq)
    refine Returns.succ ?_ fun fuel => by rw [Forest.append]
    refine Returns.after (node_apply h.1) ?_
    simpa only [hne, ne_eq, not_false_eq_true, if_true, Option.or_none] using ih b.1 h.2.2 hnot.2

theorem grown_sibling (above : Slots D) (h : Holds t.nodes none (above.append (.cons a below .nil)))
    (hnodup : (indices (above.append (.cons a below .nil))).Nodup)
    (hkeep : Keeps t t' [a.1]) (hnode : t'.nodes[a.1]? = some ⟨some a.2, first below, some k⟩)
    (hk : t.nodes.length ≤ k) (hnode' : t'.nodes[k]? = some ⟨some d, first below', none⟩)
    (hbelow : Holds t'.nodes none below') (hnodup' : (indices below').Nodup)
    (hnew : ∀ i ∈ indices below', t.nodes.length ≤ i) (hnot : k ∉ indices below') :
    Grown t t' [] (above.append (.cons a below .nil)) (above.append (.cons a below (.cons (k, d) below' .nil))) := by
  have hlt := h.lt
  constructor
  · exact hkeep.mono (by simp)
  · rw [holds_append] at h ⊢
    obtain ⟨habove, -, hc, -⟩ := h
    have hfree : ∀ i, i ∈ indices above ∨ i ∈ indices below → i ∉ [a.1] := by
      intro i hi hmem
      simp only [indices_append, indices_cons, nodup_append, nodup_cons, mem_append, mem_cons] at *
      grind
    exact ⟨hkeep.holds habove fun i hi => hfree i (.inl hi), by simpa [first] using hnode,
      hkeep.holds hc fun i hi => hfree i (.inr hi), by simpa [first] using hnode', hbelow, trivial⟩
  · rw [first_append, first_append]
    rfl
  · simp only [indices_append, indices_cons, indices_nil, append_nil, nodup_append, mem_append, mem_cons] at *
    grind
  · intro i hi
    simp only [indices_append, indices_cons] at *
    grind

/-- What a call of `mergeTreeLevel` comes to, for a source level that shows `g`. -/
def Merges (src : EventDispatchTree D) (g : Slots D) : Prop :=
  ∀ t f i, first f = some i → Holds t.nodes none f → (indices f).Nodup → (dispatchersOf f).Distinct →
    ∃ f' t', Returns (fun fuel => mergeTreeLevel (some src) fuel i (first g)) t () t' ∧
      Grown t t' [] f f' ∧ dispatchersOf f' = (dispatchersOf f).union (dispatchersOf g)

/-- What its body comes to: a root of the level becomes the union with `a`, or `a` is new. -/
def MergesRoot (src : EventDispatchTree D) (a : Nat × D) (below f : Slots D) (t : EventDispatchTree D)
    (i : Nat) : Prop :=
  ∃ f' t', Returns (fun fuel => mergeSubtree (some src) fuel i a.1) t () t' ∧ Grown t t' [] f f' ∧
    dispatchersOf f' = (dispatchersOf f).change a.2 (fun c => c.union (dispatchersOf below)) (dispatchersOf below)

variable {srcTree : EventDispatchTree D}

theorem mergeSubtree_missing (hshow : Shows srcTree (.cons a below beside)) (hfirst : first f = some i)
    (h : Holds t.nodes none f) (hnodup : (indices f).Nodup) (hnot : a.2 ∉ (dispatchersOf f).roots) :
    MergesRoot srcTree a below f t i := by
  obtain ⟨above, b, c, rfl⟩ := exists_last (f := f) (by rintro rfl; simp [first] at hfirst)
  have hsrc : Shows ((some srcTree).getD t) (.cons a below beside) := hshow
  obtain ⟨⟨child, ha, -⟩, -, -⟩ := id hsrc
  obtain ⟨f₁, t₁, hret₁, hkeep₁, hnode₁, hcopy₁, hnot₁⟩ :=
    copySubtree_spec (copy_spec (some srcTree) below).1 hsrc
  have hb : t.nodes[b.1]? = some ⟨some b.2, first c, none⟩ := by
    simpa [first] using (holds_append.mp h).2.1
  have hlt : b.1 < t.nodes.length := (List.getElem?_eq_some_iff.mp hb).1
  obtain ⟨t₂, hset₂, hkeep₂, hb₂, -⟩ :=
    setNextSibling_spec (some t.nodes.length) (hkeep₁.getElem? hb not_mem_nil)
  have hne : t.nodes.length ∉ [b.1] := by
    simp only [mem_singleton]
    omega
  obtain ⟨t₃, hset₃, hkeep₃, hnode₃, -⟩ := setNextSibling_spec none (hkeep₂.getElem? hnode₁ hne)
  have hbelow : ∀ i ∈ indices f₁, i ∉ [b.1] ∧ i ∉ [t.nodes.length] := fun i hi => by
    have := hcopy₁.new i hi
    simp only [mem_singleton]
    exact ⟨by omega, fun heq => hnot₁ (heq ▸ hi)⟩
  refine ⟨above.append (.cons b c (.cons (t.nodes.length, a.2) f₁ .nil)), t₃, ?_, ?_, ?_⟩
  · refine Returns.succ ?_ fun fuel => by rw [mergeSubtree]
    refine Returns.after (sourceNode_apply ha) ?_
    rw [← hfirst]
    refine Returns.bind (findSibling_missing above i h hnot) ?_
    exact Returns.bind hret₁ (Returns.after hset₂ (returns_of_eq hset₃))
  · refine grown_sibling above h hnodup ?_ (hkeep₃.getElem? hb₂ ?_) (Nat.le_refl _) hnode₃
      (hkeep₃.holds (hkeep₂.holds hcopy₁.holds fun i hi => (hbelow i hi).1)
        fun i hi => (hbelow i hi).2) hcopy₁.nodup hcopy₁.new hnot₁
    · refine ((hkeep₁.mono (by simp)).trans hkeep₂ fun i hi _ => hi).trans hkeep₃ fun i hi hlt => ?_
      simp only [mem_singleton] at hi
      omega
    · exact fun hmem => hne (by simpa [eq_comm] using hmem)
  · rw [Forest.change_of_notMem hnot, ← hcopy₁.dispatchers]
    have heq : above.append (.cons b c (.cons (t.nodes.length, a.2) f₁ .nil)) =
        (above.append (.cons b c .nil)).append (.cons (t.nodes.length, a.2) f₁ .nil) := by
      rw [Forest.append_assoc]
      rfl
    rw [heq, dispatchersOf, Forest.map_append]
    rfl

theorem mergeSubtree_found (hbelow : Merges srcTree below) (hshow : Shows srcTree (.cons a below beside))
    (hdistinct : (dispatchersOf below).Distinct) (above : Slots D) {c post : Slots D}
    (hfirst : first (above.append (.cons (k, a.2) c post)) = some i)
    (h : Holds t.nodes none (above.append (.cons (k, a.2) c post)))
    (hnodup : (indices (above.append (.cons (k, a.2) c post))).Nodup)
    (hf : (dispatchersOf (above.append (.cons (k, a.2) c post))).Distinct)
    (hnot : a.2 ∉ (dispatchersOf above).roots) :
    MergesRoot srcTree a below (above.append (.cons (k, a.2) c post)) t i := by
  have hsrc : Shows ((some srcTree).getD t) (.cons a below beside) := hshow
  obtain ⟨⟨child, ha, hchild⟩, hc, -⟩ := id hsrc
  obtain ⟨last, hfind⟩ := findSibling_found above i h hnot
  have hnode : t.nodes[k]? = some ⟨some a.2, first c, first post⟩ := by
    simpa using (holds_append.mp h).2.1
  have hsci : sourceChildIndex (some srcTree) a.1 t = (.ok (first below), t) := by
    rw [sourceChildIndex, getChildIndex_eq ha, hchild]
  have hk : k ∉ indices c := by
    simp only [indices_append, indices_cons, nodup_append, nodup_cons, mem_append] at hnodup
    grind
  -- What the two branches have in common.
  have hchange : ∀ c' : Slots D, dispatchersOf c' = (dispatchersOf c).union (dispatchersOf below) →
      dispatchersOf (above.append (.cons (k, a.2) c' post)) =
        (dispatchersOf (above.append (.cons (k, a.2) c post))).change a.2
          (fun c => c.union (dispatchersOf below)) (dispatchersOf below) := by
    intro c' hc'
    have hsplit : ∀ c : Slots D, dispatchersOf (above.append (.cons (k, a.2) c post)) =
        (dispatchersOf above).append (.cons a.2 (dispatchersOf c) (dispatchersOf post)) :=
      fun c => Forest.map_append _ _ _
    rw [hsplit, hsplit, Forest.change_append_cons hnot, hc']
  have hholds := (holds_append.mp h).2.2.1
  rcases hcase : first c with _ | j
  · -- There is nothing below the dispatcher yet: the source level is copied.
    obtain rfl := first_eq_none_iff.mp hcase
    obtain ⟨c', t₁, hret, hkeep, hcopy⟩ := (copy_spec (some srcTree) below).1 t hc
    obtain ⟨t₂, hset, hkeep₂, hnode₂, -⟩ :=
      setNextChild_spec (first c') (hkeep.getElem? hnode not_mem_nil)
    have hcopied : Returns (fun fuel => mergeSubtree (some srcTree) fuel i a.1) t () t₂ := by
      refine Returns.succ ?_ fun fuel => by rw [mergeSubtree]
      refine Returns.after (sourceNode_apply ha) ?_
      rw [← hfirst]
      exact Returns.bind hfind (Returns.after (node_apply hnode) (Returns.after hsci
        (Returns.bind hret (returns_of_eq hset))))
    refine ⟨_, t₂, hcopied, ?_, hchange c' ?_⟩
    · refine grown_child above h hnodup (by simp) ?_ hnode₂ ?_ hcopy.nodup ?_
      · exact (hkeep.mono (by simp)).trans hkeep₂ fun i hi _ => by simpa using hi
      · refine hkeep₂.holds hcopy.holds fun j hj hmem => ?_
        have := hcopy.new j hj
        have := (List.getElem?_eq_some_iff.mp hnode).1
        simp only [mem_singleton] at hmem
        omega
      · exact fun j hj => .inr (.inr (hcopy.new j hj))
    · rw [hcopy.dispatchers]
      exact (Forest.nil_union hdistinct).symm
  · -- The source level is merged into the one below the dispatcher.
    rw [indices_append, indices_cons] at hnodup
    have hnodupc : (indices c).Nodup :=
      (List.nodup_append.mp (List.nodup_cons.mp (List.nodup_append.mp hnodup).2.1).2).1
    rw [dispatchersOf, Forest.map_append, Forest.distinct_append] at hf
    obtain ⟨c', t₁, hret, hgrown, hc'⟩ := hbelow t c j hcase hholds hnodupc hf.2.1.2.1
    have hmerged : Returns (fun fuel => mergeSubtree (some srcTree) fuel i a.1) t () t₁ := by
      refine Returns.succ ?_ fun fuel => by rw [mergeSubtree]
      refine Returns.after (sourceNode_apply ha) ?_
      rw [← hfirst]
      rw [hcase] at hnode
      exact Returns.bind hfind (Returns.after (node_apply hnode) (Returns.after hsci hret))
    refine ⟨_, t₁, hmerged, ?_, hchange c' hc'⟩
    refine grown_child above h (by simpa using hnodup) (by simp) ?_ ?_ hgrown.holds hgrown.nodup hgrown.origin
    · exact hgrown.keeps.mono (by simp)
    · rw [hgrown.start]
      exact hgrown.keeps.getElem? hnode hk

theorem mergeSubtree_spec (hbelow : Merges srcTree below)
    (hshow : Shows srcTree (.cons a below beside)) (hdistinct : (dispatchersOf below).Distinct)
    (hfirst : first f = some i) (h : Holds t.nodes none f) (hnodup : (indices f).Nodup)
    (hf : (dispatchersOf f).Distinct) : MergesRoot srcTree a below f t i := by
  rcases exists_root a.2 f with hnot | ⟨above, k, c, post, rfl, hnot⟩
  · exact mergeSubtree_missing hshow hfirst h hnodup hnot
  · exact mergeSubtree_found hbelow hshow hdistinct above hfirst h hnodup hf hnot

/-- **Merging a level.**  The level begins where it began, its slots and those it was linked
to are still its own, and its dispatchers are those of both levels. -/
theorem merge_spec (srcTree : EventDispatchTree D) (g : Slots D) (hshow : Shows srcTree g)
    (hdistinct : (dispatchersOf g).Distinct) : Merges srcTree g := by
  induction g with
  | nil =>
    intro t f i hfirst h hnodup hf
    refine ⟨f, t, ?_, ⟨Keeps.refl t _, h, rfl, hnodup, fun j hj => .inl hj⟩, rfl⟩
    exact Returns.succ (returns_pure () t) fun fuel => by rw [first, mergeTreeLevel]
  | cons a below beside ihc ihs =>
    intro t f i hfirst h hnodup hf
    obtain ⟨-, hdbelow, hdbeside⟩ := hdistinct
    obtain ⟨f₁, t₁, hret₁, hgrown₁, hf₁⟩ :=
      mergeSubtree_spec (ihc hshow.2.1 hdbelow) hshow hdbelow hfirst h hnodup hf
    have hdist : (dispatchersOf f₁).Distinct :=
      hf₁ ▸ Forest.distinct_change hf (fun _ hc => Forest.distinct_union hc hdbelow) hdbelow
    obtain ⟨f₂, t₂, hret₂, hgrown₂, hf₂⟩ := ihs hshow.2.2 hdbeside t₁ f₁ i
      (hgrown₁.start.trans hfirst) hgrown₁.holds hgrown₁.nodup hdist
    refine ⟨f₂, t₂, ?_, hgrown₁.trans hgrown₂, hf₂.trans (hf₁ ▸ rfl)⟩
    obtain ⟨⟨child, ha, -⟩, -, -⟩ := id hshow
    have hsrc : ((some srcTree).getD t₁).nodes[a.1]? = some ⟨some a.2, child, first beside⟩ := ha
    refine Returns.succ ?_ fun fuel => by rw [first]
    exact Returns.bind hret₁ (Returns.after (sourceNode_apply hsrc) hret₂)

/-- Merging a tree into itself finds every dispatcher where it is. -/
theorem mergeSelf_spec (htail : t.tailFirstIndex = none) (f : Slots D) : ∀ (above : Slots D) i,
    first (above.append f) = some i → Holds t.nodes none (above.append f) →
    (dispatchersOf (above.append f)).Distinct →
    Returns (fun fuel => mergeTreeLevel none fuel i (first f)) t () t := by
  induction f with
  | nil =>
    intro above i _ _ _
    exact Returns.succ (returns_pure () t) fun fuel => by rw [first, mergeTreeLevel]
  | cons a below beside ihc ihs =>
    intro above i hfirst h hdistinct
    obtain ⟨-, hnode, hbelow, -⟩ := holds_append.mp h
    rw [Option.or_none] at hnode
    have hd := hdistinct
    rw [dispatchersOf, Forest.map_append, Forest.distinct_append] at hd
    obtain ⟨-, ⟨-, hdbelow, -⟩, hroots⟩ := hd
    have hnot : a.2 ∉ (dispatchersOf above).roots := fun hmem => hroots a.2 hmem (by
      simp [Forest.roots])
    obtain ⟨last, hfind⟩ := findSibling_found above i h hnot
    have hchild : childOf t a.1 (first below) = first below := by
      rw [childOf, htail]
      split
      · rename_i hnone
        exact hnone.1.symm
      · rfl
    have hsci : sourceChildIndex none a.1 t = (.ok (first below), t) := by
      have hsrc : ((none : Option (EventDispatchTree D)).getD t).nodes[a.1]? = _ := hnode
      rw [sourceChildIndex, getChildIndex_eq hsrc]
      exact congrArg (fun c => (Except.ok c, t)) hchild
    have hinner : Returns (fun fuel => mergeSubtree none fuel i a.1) t () t := by
      refine Returns.succ ?_ fun fuel => by rw [mergeSubtree]
      refine Returns.after (sourceNode_apply hnode) ?_
      rw [← hfirst]
      refine Returns.bind hfind (Returns.after (node_apply hnode) (Returns.after hsci ?_))
      rcases hcase : first below with _ | j
      · refine Returns.bind (Returns.succ (returns_pure none t) fun fuel => by
          rw [copyTreeLevel]) (returns_of_eq ?_)
        rw [hcase] at hnode
        exact setNode_self hnode rfl
      · have hret := ihc .nil j hcase hbelow hdbelow
        rw [hcase] at hret
        exact hret
    refine Returns.succ ?_ fun fuel => by rw [first]
    refine Returns.bind hinner (Returns.after (sourceNode_apply hnode) ?_)
    have heq : (above.append (.cons a below .nil)).append beside = above.append (.cons a below beside) := by
      rw [Forest.append_assoc]
      rfl
    exact ihs (above.append (.cons a below .nil)) i (by rw [heq]; exact hfirst)
      (by rw [heq]; exact h) (by rw [heq]; exact hdistinct)

end

end JavaFX.EventDispatchTree
