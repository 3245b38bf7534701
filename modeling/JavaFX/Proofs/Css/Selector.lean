/-
What a compound selector finds, and what it collects on the way.

The search goes from the node to its ancestors and from the last selector to the
first.  A step to a parent is forced, and a step to an ancestor tries one after the
other, so the search finds a chain of nodes if there is one.  Collecting never takes
anything back, so what the failed attempts have collected does no harm.
-/
import JavaFX.Css.Selector
import JavaFX.Lib.Ascent
import Mathlib.Logic.Equiv.List
import JavaFX.Proofs.Css.BitSet

namespace JavaFX

/-! ### Sets that only grew -/

namespace BitSet

theorem bitCount_pos {x : Long} : 0 < bitCount x ↔ ∃ b < 64, x.getLsbD b = true := by
  unfold bitCount
  rw [List.countP_pos_iff]
  simp only [List.mem_range]

theorem size_pos_iff (s : BitSet) : 0 < s.size ↔ ∃ t, s.Mem t := by
  have hsum : 0 < s.size ↔ ∃ n < s.bits.length, 0 < bitCount (s.word n) := by
    unfold size word
    rw [List.sum_pos_iff_exists_pos_nat]
    constructor
    · rintro ⟨count, hmem, hpos⟩
      obtain ⟨x, hx, rfl⟩ := List.mem_map.mp hmem
      obtain ⟨n, hn, rfl⟩ := List.mem_iff_getElem.mp hx
      exact ⟨n, hn, by simpa [hn] using hpos⟩
    · rintro ⟨n, hn, hpos⟩
      refine ⟨_, List.mem_map.mpr ⟨s.bits[n], List.getElem_mem hn, rfl⟩, ?_⟩
      simpa [hn] using hpos
  rw [hsum]
  constructor
  · rintro ⟨n, -, hpos⟩
    obtain ⟨b, hb, hbit⟩ := bitCount_pos.mp hpos
    exact exists_element (p := fun n b => (s.word n).getLsbD b = true) |>.mpr ⟨n, b, hb, hbit⟩
  · rintro ⟨t, ht⟩
    exact ⟨t / 64, ht.lt, bitCount_pos.mpr ⟨t % 64, Nat.mod_lt _ (by decide), ht⟩⟩

theorem and_eq_right_iff {x y : Long} : x &&& y = y ↔ ∀ b < 64, y.getLsbD b = true → x.getLsbD b = true := by
  constructor
  · intro h b _ hy
    have := congrArg (fun z : Long => z.getLsbD b) h
    simp only [BitVec.getLsbD_and, hy, Bool.and_true] at this
    exact this
  · intro h
    apply BitVec.eq_of_getLsbD_eq
    intro i hi
    rw [BitVec.getLsbD_and]
    cases hy : y.getLsbD i with
    | true => simp [h i hi hy]
    | false => simp

theorem Trimmed.exists_mem {s : BitSet} (h : s.Trimmed) (hne : s.bits ≠ []) :
    ∃ t, s.Mem t ∧ t / 64 + 1 = s.bits.length := by
  have hpos : 0 < s.bits.length := List.length_pos_iff.mpr hne
  have hlast : s.word (s.bits.length - 1) ≠ 0 := by
    intro hz
    apply h
    rw [List.getLast?_eq_getElem?, List.getElem?_eq_getElem (by omega)]
    unfold word at hz
    rw [List.getD_eq_getElem?_getD, List.getElem?_eq_getElem (by omega), Option.getD_some] at hz
    rw [hz]
  obtain ⟨b, hb, hbit⟩ := word_ne_iff.mp hlast
  refine ⟨(s.bits.length - 1) * 64 + b, ?_, by omega⟩
  unfold Mem
  rw [show ((s.bits.length - 1) * 64 + b) / 64 = s.bits.length - 1 by omega,
    show ((s.bits.length - 1) * 64 + b) % 64 = b by omega]
  simpa using hbit

theorem containsAll_iff {s other : BitSet} (h : other.Trimmed) :
    s.containsAll (some other) = true ↔ other.members ⊆ s.members := by
  have hwords : ((List.range other.bits.length).all fun n =>
      decide (s.word n &&& other.word n = other.word n)) = true ↔ other.members ⊆ s.members := by
    rw [List.all_eq_true]
    constructor
    · intro hall t ht
      have ht := mem_members.mp ht
      have := hall (t / 64) (List.mem_range.mpr ht.lt)
      rw [decide_eq_true_eq, and_eq_right_iff] at this
      exact mem_members.mpr (this _ (Nat.mod_lt _ (by decide)) ht)
    · intro hsub n _
      rw [decide_eq_true_eq, and_eq_right_iff]
      intro b hb hbit
      have ht : other.Mem (n * 64 + b) := by
        unfold Mem
        rw [show (n * 64 + b) / 64 = n by omega, show (n * 64 + b) % 64 = b by omega]
        exact hbit
      have := mem_members.mp (hsub (mem_members.mpr ht))
      unfold Mem at this
      rwa [show (n * 64 + b) / 64 = n by omega, show (n * 64 + b) % 64 = b by omega] at this
  unfold containsAll
  by_cases hempty : s.bits.length = 0 ∧ other.bits.length = 0
  · simp only [if_pos hempty, true_iff]
    intro t ht
    have := (mem_members.mp ht).lt
    omega
  · simp only [if_neg hempty]
    by_cases hlt : s.bits.length < other.bits.length
    · simp only [if_pos hlt, Bool.false_eq_true, false_iff]
      intro hsub
      -- the last word of the other set holds an element that this array has no word for
      obtain ⟨t, ht, hlen⟩ := h.exists_mem (fun hnil => by simp [hnil] at hlt)
      have := (mem_members.mp (hsub (mem_members.mpr ht))).lt
      omega
    · simp only [if_neg hlt]
      exact hwords

end BitSet

namespace Styleable

/-- No style class has a name of blanks. -/
def WellNamed (x : Styleable) : Prop :=
  ∀ name, some name ∈ x.styleClass → name.isEmpty = false → isBlank name = false

/-- The style classes of a node. -/
def classes (registry : Registry) (x : Styleable) : Set Nat :=
  { i | ∃ name, some name ∈ x.styleClass ∧ name.isEmpty = false ∧ registry.index name = i }

end Styleable

namespace GrownSet

theorem addStyleClasses_spec (registry : Registry) : ∀ (names : List (Option String)) (s : GrownSet),
    (∀ name, some name ∈ names → name.isEmpty = false → isBlank name = false) →
    ∃ s', addStyleClasses registry names s = .ok s' ∧ ∀ t, s'.set.Mem t ↔ s.set.Mem t ∨
      ∃ name, some name ∈ names ∧ name.isEmpty = false ∧ registry.index name = t := by
  intro names
  induction names with
  | nil => intro s _; exact ⟨s, rfl, by simp⟩
  | cons name names ih =>
    intro s h
    have hrest : ∀ name, some name ∈ names → name.isEmpty = false → isBlank name = false :=
      fun n hn => h n (List.mem_cons_of_mem _ hn)
    cases name with
    | none =>
      obtain ⟨s', hs', hmem⟩ := ih s hrest
      exact ⟨s', hs', by simpa using hmem⟩
    | some name =>
      by_cases hempty : name.isEmpty = true
      · obtain ⟨s', hs', hmem⟩ := ih s hrest
        refine ⟨s', ?_, fun t => (hmem t).trans ?_⟩
        · unfold addStyleClasses
          simp only [hempty]
          exact hs'
        · constructor
          · rintro (hs | ⟨n, hn, he, ht⟩)
            · exact .inl hs
            · exact .inr ⟨n, List.mem_cons_of_mem _ hn, he, ht⟩
          · rintro (hs | ⟨n, hn, he, ht⟩)
            · exact .inl hs
            · rcases List.mem_cons.mp hn with heq | hn
              · obtain rfl : n = name := by simpa using heq
                rw [he] at hempty
                simp at hempty
              · exact .inr ⟨n, hn, he, ht⟩
      · have hempty : name.isEmpty = false := by simpa using hempty
        have hblank := h name (by simp) hempty
        obtain ⟨s', hs', hmem⟩ := ih (s.add (registry.index name)) hrest
        refine ⟨s', ?_, fun t => (hmem t).trans ?_⟩
        · unfold addStyleClasses
          simp only [hempty, Registry.get, hblank]
          exact hs'
        · show (s.set.add (some (registry.index name))).set.Mem t ∨ _ ↔ _
          rw [BitSet.add_mem]
          constructor
          · rintro ((rfl | hs) | ⟨n, hn, he, ht⟩)
            · exact .inr ⟨name, by simp, hempty, rfl⟩
            · exact .inl hs
            · exact .inr ⟨n, List.mem_cons_of_mem _ hn, he, ht⟩
          · rintro (hs | ⟨n, hn, he, ht⟩)
            · exact .inl (.inr hs)
            · rcases List.mem_cons.mp hn with heq | hn
              · obtain rfl : n = name := by simpa using heq
                exact .inl (.inl ht.symm)
              · exact .inr ⟨n, hn, he, ht⟩

theorem addStyleClasses_ok {registry : Registry} : ∀ {names : List (Option String)} {s s' : GrownSet},
    addStyleClasses registry names s = .ok s' →
      ∀ name, some name ∈ names → name.isEmpty = false → isBlank name = false := by
  intro names
  induction names with
  | nil => intro s s' _ name hname; simp at hname
  | cons name names ih =>
    intro s s' h n hn hne
    cases name with
    | none => exact ih h n (by simpa using hn) hne
    | some name =>
      unfold addStyleClasses at h
      by_cases hempty : name.isEmpty = true
      · simp only [hempty] at h
        rcases List.mem_cons.mp hn with heq | hn
        · obtain rfl : n = name := by simpa using heq
          rw [hne] at hempty
          simp at hempty
        · exact ih h n hn hne
      · simp only [hempty, Registry.get] at h
        cases hblank : isBlank name with
        | true => simp [hblank, bind, Except.bind] at h
        | false =>
          simp only [hblank] at h
          rcases List.mem_cons.mp hn with heq | hn
          · obtain rfl : n = name := by simpa using heq
            exact hblank
          · exact ih h n hn hne

end GrownSet

/-! ### Simple selectors -/

namespace SimpleSelector

/-- A selector matches a node by type, id and style classes. -/
def Matches (registry : Registry) (s : SimpleSelector) (x : Styleable) : Prop :=
  (s.name = "" ∨ s.name = "*" ∨ x.typeSelector = some s.name) ∧
    (s.id = "" ∨ x.id = some s.id) ∧ s.styleClassSet.set.members ⊆ x.classes registry

variable {x : Styleable}

theorem classes_eq {registry : Registry} {other : GrownSet}
    (h : GrownSet.addStyleClasses registry x.styleClass .empty = .ok other) :
    other.set.members = x.classes registry := by
  obtain ⟨other', hother', hmem⟩ := GrownSet.addStyleClasses_spec registry x.styleClass .empty
    (GrownSet.addStyleClasses_ok h)
  obtain rfl : other = other' := Except.ok.inj (h.symm.trans hother')
  ext t
  rw [BitSet.mem_members, hmem]
  constructor
  · rintro (h | h)
    · have := h.lt
      simp [GrownSet.empty] at this
    · exact h
  · exact .inr

/-- **A simple selector applies** to a node that it matches, if the orientation is not
the wrong one. -/
theorem applies_ok {registry : Registry} {s : SimpleSelector} {b : Bool} (h : s.applies registry x = .ok b) :
    b = true ↔ s.matchOrientation x = true ∧ s.Matches registry x := by
  unfold applies at h
  by_cases horient : s.matchOrientation x = true
  · simp only [horient] at h
    simp only [horient, true_and]
    by_cases hid : s.matchOnId = true ∧ x.id ≠ some s.id
    · rw [if_pos hid] at h
      obtain rfl : false = b := Except.ok.inj h
      simp only [Bool.false_eq_true, false_iff]
      rintro ⟨-, h | h, -⟩
      · have := hid.1
        simp [matchOnId, h] at this
      · exact hid.2 h
    · rw [if_neg hid] at h
      have hid' : s.id = "" ∨ x.id = some s.id := by
        by_contra hno
        rw [not_or] at hno
        exact hid ⟨by simpa [matchOnId] using hno.1, hno.2⟩
      by_cases hname : s.matchOnName = true ∧ x.typeSelector ≠ some s.name
      · rw [if_pos hname] at h
        obtain rfl : false = b := Except.ok.inj h
        simp only [Bool.false_eq_true, false_iff]
        rintro ⟨h | h | h, -, -⟩
        · have := hname.1
          simp [matchOnName, h] at this
        · have := hname.1
          simp [matchOnName, h] at this
        · exact hname.2 h
      · rw [if_neg hname] at h
        have hname' : s.name = "" ∨ s.name = "*" ∨ x.typeSelector = some s.name := by
          by_contra hno
          rw [not_or, not_or] at hno
          exact hname ⟨by simpa [matchOnName] using ⟨hno.1, hno.2.1⟩, hno.2.2⟩
        by_cases hclass : s.matchOnStyleClass = true
        · rw [if_pos hclass] at h
          cases hother : GrownSet.addStyleClasses registry x.styleClass .empty with
          | error e => simp [hother, bind, Except.bind] at h
          | ok other =>
            rw [hother] at h
            obtain rfl : other.set.containsAll (some s.styleClassSet.set) = b := Except.ok.inj h
            rw [BitSet.containsAll_iff s.styleClassSet.trimmed, classes_eq hother]
            exact ⟨fun h => ⟨hname', hid', h⟩, fun h => h.2.2⟩
        · rw [if_neg hclass] at h
          obtain rfl : true = b := Except.ok.inj h
          simp only [true_iff]
          refine ⟨hname', hid', ?_⟩
          intro t ht
          have hpos := (BitSet.size_pos_iff s.styleClassSet.set).mpr ⟨t, BitSet.mem_members.mp ht⟩
          simp [matchOnStyleClass, hpos] at hclass
  · simp only [horient] at h
    obtain rfl : false = b := Except.ok.inj h
    simp [horient]

theorem applies_returns (registry : Registry) (s : SimpleSelector)
    (hx : x.WellNamed) : ∃ b, s.applies registry x = .ok b := by
  obtain ⟨other, hother, -⟩ := GrownSet.addStyleClasses_spec registry x.styleClass .empty hx
  unfold applies
  rw [hother]
  split
  · exact ⟨_, rfl⟩
  · split
    · exact ⟨_, rfl⟩
    · split
      · exact ⟨_, rfl⟩
      · split
        · exact ⟨_, rfl⟩
        · exact ⟨_, rfl⟩

/-! ### Collected states -/

/-- At this depth the pseudo-classes of the selector have been collected, if there is a
place for them. -/
def Collected (s : SimpleSelector) (states : TriggerStates) (depth : Nat) : Prop :=
  ∀ l, states = some l → depth < l.length →
    ∃ set, l[depth]? = some (some set) ∧ s.pseudoClassState.set.members ⊆ set.members

/-- Nothing that has been collected is lost. -/
structure Grows (states states' : TriggerStates) : Prop where
  lengths : states'.map List.length = states.map List.length
  sets : ∀ (l : List (Option BitSet)) (depth : Nat) (set : BitSet), states = some l →
    l[depth]? = some (some set) → ∃ (l' : List (Option BitSet)) (set' : BitSet), states' = some l' ∧ l'[depth]? = some (some set') ∧ set.members ⊆ set'.members

theorem Grows.refl (states : TriggerStates) : Grows states states :=
  ⟨rfl, fun l _ set hl hset => ⟨l, set, hl, hset, fun _ h => h⟩⟩

variable {states states' : TriggerStates}

theorem Grows.trans {states'' : TriggerStates} (h : Grows states states')
    (h' : Grows states' states'') : Grows states states'' := by
  refine ⟨h'.lengths.trans h.lengths, ?_⟩
  intro l depth set hl hset
  obtain ⟨l', set', hl', hset', hsub⟩ := h.sets l depth set hl hset
  obtain ⟨l'', set'', hl'', hset'', hsub'⟩ := h'.sets l' depth set' hl' hset'
  exact ⟨l'', set'', hl'', hset'', hsub.trans hsub'⟩

theorem Collected.grows {s : SimpleSelector} {depth : Nat}
    (h : s.Collected states depth) (hgrows : Grows states states') : s.Collected states' depth := by
  intro l' hl' hlt
  have hlen := hgrows.lengths
  rw [hl'] at hlen
  cases hst : states with
  | none => rw [hst] at hlen; simp at hlen
  | some l =>
    rw [hst] at hlen
    obtain ⟨set, hset, hsub⟩ := h l hst (by simp at hlen; omega)
    obtain ⟨l'', set', hl'', hset', hsub'⟩ := hgrows.sets l depth set hst hset
    rw [hl'] at hl''
    obtain rfl : l' = l'' := Option.some.inj hl''
    exact ⟨set', hset', hsub.trans hsub'⟩

theorem collect_spec (s : SimpleSelector) (states : TriggerStates) (depth : Nat) :
    Grows states (s.collect states depth) ∧ s.Collected (s.collect states depth) depth := by
  cases states with
  | none =>
    refine ⟨Grows.refl none, ?_⟩
    intro l hl
    simp [collect] at hl
  | some l =>
    by_cases hlt : depth < l.length
    · have heq : s.collect (some l) depth = some (l.set depth
          (some (((l.getD depth none).getD {}).addAll (some s.pseudoClassState.set)).set)) := by
        simp [collect, hlt]
      have hmem := (BitSet.addAll_spec ((l.getD depth none).getD {}) s.pseudoClassState.set).1
      rw [heq]
      refine ⟨⟨by simp, ?_⟩, ?_⟩
      · intro l₁ d set hl₁ hset
        obtain rfl : l = l₁ := Option.some.inj hl₁
        by_cases hd : d = depth
        · subst hd
          refine ⟨_, _, rfl, List.getElem?_set_self hlt, ?_⟩
          intro t ht
          rw [BitSet.mem_members, hmem]
          left
          have hget : (l.getD d none).getD {} = set := by
            rw [List.getD_eq_getElem?_getD, hset]
            rfl
          rw [hget]
          exact BitSet.mem_members.mp ht
        · refine ⟨_, set, rfl, ?_, fun _ h => h⟩
          rw [List.getElem?_set_ne (Ne.symm hd)]
          exact hset
      · intro l' hl' _
        obtain rfl := Option.some.inj hl'
        refine ⟨_, List.getElem?_set_self hlt, ?_⟩
        intro t ht
        rw [BitSet.mem_members, hmem]
        exact .inr (BitSet.mem_members.mp ht)
    · have heq : s.collect (some l) depth = some l := by
        simp [collect, hlt]
      rw [heq]
      refine ⟨Grows.refl _, ?_⟩
      intro l' hl' hlt'
      obtain rfl : l = l' := Option.some.inj hl'
      exact absurd hlt' hlt

end SimpleSelector

/-! ### Compound selectors -/

/-- How the places of two nodes are related, the node first and its ancestors behind it. -/
def Combinator.Leads : Combinator → Nat → Nat → Prop
  | .child, p, q => q = p + 1
  | .descendant, p, q => p < q

namespace CompoundSelector

open SimpleSelector List

/-- The `i`-th combinator leads from one place to the other. -/
def Step (s : CompoundSelector) (i p q : Nat) : Prop :=
  ∃ c, s.relationships[i]? = some c ∧ c.Leads p q

/-- The `i`-th selector applies to the node at a place. -/
def Fits (registry : Registry) (s : CompoundSelector) (nodes : List Styleable) (i p : Nat) : Prop :=
  ∃ selector x, s.selectors[i]? = some selector ∧ nodes[p]? = some x ∧
    selector.matchOrientation x = true ∧ selector.Matches registry x

/-- A chain of nodes that the selectors apply to, from the node itself upwards. -/
def Chain (registry : Registry) (s : CompoundSelector) (nodes : List Styleable)
    (pos : Nat → Nat) : Prop :=
  Ascent s.Step (s.Fits registry nodes) (s.selectors.length - 1) 0 pos

/-- The `i`-th selector applies at a place, and its states have been collected there. -/
def Collects (registry : Registry) (s : CompoundSelector) (nodes : List Styleable) (base : Nat)
    (states : TriggerStates) (i p : Nat) : Prop :=
  s.Fits registry nodes i p ∧ ∀ selector, s.selectors[i]? = some selector → selector.Collected states (base + p)

/-- What a search has found that starts at one of the `places`. -/
structure Answer (registry : Registry) (s : CompoundSelector) (nodes : List Styleable) (base k : Nat)
    (places : Nat → Prop) (states : TriggerStates) (answer : Bool) (states' : TriggerStates) :
    Prop where
  grows : Grows states states'
  sound : answer = true → ∃ start, places start ∧
    ∃ pos, Ascent s.Step (s.Collects registry nodes base states') k start pos
  complete : (∃ start, places start ∧ ∃ pos, Ascent s.Step (s.Fits registry nodes) k start pos) → answer = true

theorem drop_succ {nodes parents : List Styleable} {start : Nat} {x : Styleable}
    (h : nodes.drop start = x :: parents) :
    nodes[start]? = some x ∧ nodes.drop (start + 1) = parents := by
  constructor
  · have := congrArg (fun l => l[0]?) h
    simpa using this
  · rw [← drop_drop, h]
    rfl

variable {states states' : TriggerStates}

theorem Collects.grows {registry : Registry} {s : CompoundSelector} {nodes : List Styleable} {base i p : Nat}
    (h : s.Collects registry nodes base states i p) (hgrows : Grows states states') :
    s.Collects registry nodes base states' i p :=
  ⟨h.1, fun selector hs => (h.2 selector hs).grows hgrows⟩

section
variable {registry : Registry} {s : CompoundSelector} {nodes : List Styleable} {base : Nat}

variable {k i : Nat} {selector : SimpleSelector}

/-- The loop over the parents finds the chains that start at one of them. -/
theorem searchParents_spec {search : Styleable → List Styleable → TriggerStates → Nat →
      Except JavaException (Bool × TriggerStates)}
    (hsearch : ∀ start x parents states, nodes.drop start = x :: parents →
      ∃ answer states', search x parents states (base + start) = .ok (answer, states') ∧
        s.Answer registry nodes base k (· = start) states answer states') :
    ∀ (parents : List Styleable) (start : Nat) (states : TriggerStates), nodes.drop start = parents →
      ∃ answer states', searchParents search parents states (base + start) = .ok (answer, states') ∧
        s.Answer registry nodes base k (start ≤ ·) states answer states' := by
  intro parents
  induction parents with
  | nil =>
    intro start states hdrop
    refine ⟨false, states, rfl, Grows.refl states, by simp, ?_⟩
    rintro ⟨next, hle, pos, h⟩
    -- there is no node there
    obtain ⟨-, x, -, hx, -⟩ := h.fits k (Nat.le_refl k)
    have hlt := (List.getElem?_eq_some_iff.mp hx).1
    rw [h.starts] at hlt
    have := List.drop_eq_nil_iff.mp hdrop
    omega
  | cons x parents ih =>
    intro start states hdrop
    obtain ⟨answer, states', hrun, hanswer⟩ := hsearch start x parents states hdrop
    cases answer with
    | true =>
      refine ⟨true, states', by simp [searchParents, hrun, bind, Except.bind, pure, Except.pure],
        hanswer.grows, ?_, fun _ => rfl⟩
      intro _
      obtain ⟨next, hnext, hpos⟩ := hanswer.sound rfl
      exact ⟨next, by omega, hpos⟩
    | false =>
      obtain ⟨answer, states'', hrun', hanswer'⟩ := ih (start + 1) states' (drop_succ hdrop).2
      refine ⟨answer, states'', ?_, hanswer.grows.trans hanswer'.grows, ?_, ?_⟩
      · simp only [searchParents, hrun]
        exact hrun'
      · intro h
        obtain ⟨next, hle, hpos⟩ := hanswer'.sound h
        exact ⟨next, by omega, hpos⟩
      · rintro ⟨next, hle, hpos⟩
        by_cases heq : next = start
        · have := hanswer.complete ⟨next, heq, hpos⟩
          simp at this
        · exact hanswer'.complete ⟨next, by omega, hpos⟩

theorem appliesAt_spec (registry : Registry) (base : Nat) (hnodes : ∀ x ∈ nodes, x.WellNamed)
    {start : Nat} {x : Styleable}
    (hsel : s.selectors[k]? = some selector) (hx : nodes[start]? = some x) (states : TriggerStates) :
    ∃ b states', selector.appliesAt registry x states (base + start) = .ok (b, states') ∧
      Grows states states' ∧ (b = true → s.Collects registry nodes base states' k start) ∧
      (s.Fits registry nodes k start → b = true) := by
  obtain ⟨b, hb⟩ := selector.applies_returns registry (hnodes x (mem_of_getElem? hx))
  have hiff := applies_ok hb
  refine ⟨b, if b then selector.collect states (base + start) else states,
    by simp [appliesAt, hb, bind, Except.bind, pure, Except.pure], ?_, ?_, ?_⟩
  · split
    · exact (collect_spec selector states _).1
    · exact Grows.refl states
  · intro htrue
    rw [if_pos htrue]
    refine ⟨⟨selector, x, hsel, hx, hiff.mp htrue⟩, ?_⟩
    intro selector' hsel'
    obtain rfl : selector = selector' := Option.some.inj (hsel.symm.trans hsel')
    exact (collect_spec selector states _).2
  · rintro ⟨selector', x', hsel', hx', hfits⟩
    obtain rfl : selector = selector' := Option.some.inj (hsel.symm.trans hsel')
    obtain rfl : x = x' := Option.some.inj (hx.symm.trans hx')
    exact hiff.mpr hfits

theorem selector_eq (h : s.selectors[i]? = some selector) : s.selector i = .ok selector :=
  getAt_eq_ok.mpr ⟨by omega, by simpa using h⟩

theorem relationship_eq {c : Combinator} (h : s.relationships[i]? = some c) : s.relationship i = .ok c :=
  getAt_eq_ok.mpr ⟨by omega, by simpa using h⟩

/-- **The search** from a node upwards finds a chain if there is one. -/
theorem appliesFrom_spec (hnodes : ∀ x ∈ nodes, x.WellNamed) :
    ∀ (k : Nat), k < s.selectors.length → ∀ start x parents states, nodes.drop start = x :: parents →
      ∃ answer states', s.appliesFrom registry k x parents states (base + start) = .ok (answer, states') ∧
        s.Answer registry nodes base k (· = start) states answer states' := by
  intro k
  induction k with
  | zero =>
    intro hk start x parents states hdrop
    have hx := (drop_succ hdrop).1
    have hsel := List.getElem?_eq_getElem hk
    obtain ⟨b, states', hrun, hgrows, hsound, hcomplete⟩ :=
      appliesAt_spec registry base hnodes hsel hx states
    refine ⟨b, states', ?_, hgrows, ?_, ?_⟩
    · simp only [appliesFrom, selector_eq hsel]
      exact hrun
    · intro h
      exact ⟨start, rfl, Ascent.zero.mpr (hsound h)⟩
    · rintro ⟨next, rfl, hpos⟩
      exact hcomplete (Ascent.zero.mp hpos)
  | succ k ih =>
    intro hk start x parents states hdrop
    obtain ⟨hx, hparents⟩ := drop_succ hdrop
    have hsel := List.getElem?_eq_getElem hk
    obtain ⟨b, states', hrun, hgrows, hsound, hcomplete⟩ :=
      appliesAt_spec registry base hnodes hsel hx states
    obtain ⟨c, hc⟩ : ∃ c, s.relationships[k]? = some c :=
      ⟨_, List.getElem?_eq_getElem (by have := s.shape; omega)⟩
    have hstep : ∀ next, s.Step k start next ↔ c.Leads start next := by
      intro next
      unfold Step
      rw [hc]
      simp
    cases b with
    | false =>
      refine ⟨false, states', ?_, hgrows, by simp, ?_⟩
      · simp only [appliesFrom, selector_eq hsel, hrun, bind, Except.bind]
        rfl
      · rintro ⟨next, rfl, hpos⟩
        exact hcomplete (Ascent.succ.mp hpos).1
    | true =>
      -- what the parents say is what the chain needs behind its first node
      have hrest : ∀ {places : Nat → Prop} {answer : Bool} {states'' : TriggerStates},
          (∀ next, places next ↔ c.Leads start next) →
          s.Answer registry nodes base k places states' answer states'' →
          s.Answer registry nodes base (k + 1) (· = start) states answer states'' := by
        intro places answer states'' hplaces hanswer
        refine ⟨hgrows.trans hanswer.grows, ?_, ?_⟩
        · intro h
          obtain ⟨next, hnext, hpos⟩ := hanswer.sound h
          refine ⟨start, rfl, Ascent.succ.mpr ⟨(hsound rfl).grows hanswer.grows, next, ?_, hpos⟩⟩
          exact (hstep next).mpr ((hplaces next).mp hnext)
        · rintro ⟨start', hstart, hpos⟩
          rw [hstart] at hpos
          obtain ⟨-, next, hnext, hpos⟩ := Ascent.succ.mp hpos
          exact hanswer.complete ⟨next, (hplaces next).mpr ((hstep next).mp hnext), hpos⟩
      have hk' : k < s.selectors.length := by omega
      cases c with
      | child =>
        cases parents with
        | nil =>
          refine ⟨false, states', ?_, hrest (fun _ => Iff.rfl) ⟨Grows.refl states', by simp, ?_⟩⟩
          · simp only [appliesFrom, selector_eq hsel, relationship_eq hc, hrun, bind, Except.bind]
            rfl
          · rintro ⟨next, rfl, pos, h⟩
            obtain ⟨-, y, -, hy, -⟩ := h.fits k (Nat.le_refl k)
            have hlt := (List.getElem?_eq_some_iff.mp hy).1
            rw [h.starts] at hlt
            have := List.drop_eq_nil_iff.mp hparents
            omega
        | cons parent parents =>
          obtain ⟨answer, states'', hrun', hanswer⟩ := ih hk' (start + 1) parent parents states' hparents
          refine ⟨answer, states'', ?_, hrest (fun _ => Iff.rfl) hanswer⟩
          simp only [appliesFrom, selector_eq hsel, relationship_eq hc, hrun, bind, Except.bind]
          exact hrun'
      | descendant =>
        obtain ⟨answer, states'', hrun', hanswer⟩ := searchParents_spec (ih hk') parents (start + 1) states' hparents
        refine ⟨answer, states'', ?_, hrest (fun _ => Nat.succ_le_iff) hanswer⟩
        simp only [appliesFrom, selector_eq hsel, relationship_eq hc, hrun, bind, Except.bind]
        exact hrun'

end

theorem getElem?_copyBack (triggerStates : List (Option BitSet)) {tempStates : List (Option BitSet)}
    {depth : Nat} {set : BitSet} (hlen : tempStates.length = triggerStates.length)
    (h : tempStates[depth]? = some (some set)) :
    ∃ set', (copyBack triggerStates tempStates)[depth]? = some (some set') ∧
      set.members ⊆ set'.members := by
  have hlt := (List.getElem?_eq_some_iff.mp h).1
  unfold copyBack
  rw [getElem?_zipWith, h, List.getElem?_eq_getElem (by omega)]
  cases hout : triggerStates[depth] with
  | none => exact ⟨set, rfl, fun _ h => h⟩
  | some out =>
    refine ⟨(out.addAll (some set)).set, rfl, ?_⟩
    intro t ht
    rw [BitSet.mem_members, (BitSet.addAll_spec out set).1]
    exact .inr (BitSet.mem_members.mp ht)

/-- The chain of a search that has been asked about the node itself. -/
theorem Answer.chain_iff {registry : Registry} {s : CompoundSelector} {nodes : List Styleable}
    {base : Nat} {answer : Bool}
    (h : s.Answer registry nodes base (s.selectors.length - 1) (· = 0) states answer states') :
    answer = true ↔ ∃ pos, s.Chain registry nodes pos := by
  constructor
  · intro htrue
    obtain ⟨start, hstart, pos, hpos⟩ := h.sound htrue
    subst hstart
    exact ⟨pos, hpos.mono fun i _ p hp => hp.1⟩
  · rintro ⟨pos, hpos⟩
    exact h.complete ⟨0, rfl, pos, hpos⟩

/-- **A compound selector applies** to a node if there is a chain of nodes that its parts
apply to, and what it has collected holds the states of such a chain. -/
theorem applies_iff_chain (registry : Registry) (s : CompoundSelector) (styleable : Styleable)
    (parents : List Styleable) (hnodes : ∀ x ∈ styleable :: parents, x.WellNamed) :
    (∃ b, s.applies registry styleable parents = .ok b ∧
      (b = true ↔ ∃ pos, s.Chain registry (styleable :: parents) pos)) ∧
    ∀ (triggerStates : List (Option BitSet)) (depth : Nat), depth < triggerStates.length →
      ∃ b states', s.appliesCollecting registry styleable parents triggerStates depth = .ok (b, states') ∧
        (b = true ↔ ∃ pos, s.Chain registry (styleable :: parents) pos) ∧
        (b = true → states'.length = triggerStates.length ∧ ∃ pos, s.Chain registry (styleable :: parents) pos ∧
            ∀ (i : Nat) (selector : SimpleSelector), s.selectors[i]? = some selector →
              selector.Collected (some states') (depth + pos i)) := by
  have hk : s.selectors.length - 1 < s.selectors.length := by
    have := s.shape
    omega
  constructor
  · obtain ⟨b, states', hrun, hanswer⟩ :=
      @appliesFrom_spec registry s (styleable :: parents) 0 hnodes _ hk 0 styleable parents none rfl
    refine ⟨b, ?_, hanswer.chain_iff⟩
    unfold applies
    rw [hrun]
    rfl
  · intro triggerStates depth hdepth
    obtain ⟨b, states', hrun, hanswer⟩ :=
      @appliesFrom_spec registry s (styleable :: parents) depth hnodes _ hk 0 styleable parents
        (some (replicate triggerStates.length none)) rfl
    have hrun' : s.appliesCollecting registry styleable parents triggerStates depth
        = .ok (b, if b then copyBack triggerStates (states'.getD []) else triggerStates) := by
      unfold appliesCollecting
      simp only [if_neg (Nat.not_le.mpr hdepth), bind]
      rw [show depth = depth + 0 from rfl, hrun]
      cases b <;> rfl
    refine ⟨b, _, hrun', hanswer.chain_iff, ?_⟩
    intro htrue
    rw [if_pos htrue]
    have hlen := hanswer.grows.lengths
    cases hst : states' with
    | none => rw [hst] at hlen; simp at hlen
    | some temp =>
      rw [hst] at hlen
      have hlen : temp.length = triggerStates.length := by simpa using hlen
      refine ⟨by simp [copyBack, hlen], ?_⟩
      obtain ⟨start, hstart, pos, hpos⟩ := hanswer.sound htrue
      subst hstart
      refine ⟨pos, hpos.mono fun i _ p hp => hp.1, ?_⟩
      intro i selector hsel l hl hlt
      obtain rfl := Option.some.inj hl
      have hi := (List.getElem?_eq_some_iff.mp hsel).1
      have hcollected := (hpos.fits i (by omega)).2 selector hsel
      obtain ⟨set, hset, hsub⟩ := hcollected temp hst (by
        simp [copyBack] at hlt
        omega)
      obtain ⟨set', hset', hsub'⟩ := getElem?_copyBack triggerStates hlen hset
      exact ⟨set', by simpa using hset', hsub.trans hsub'⟩

/-- A registry that has a number for every name. -/
def names : Registry where
  index s := Encodable.encode (s.toList.map Char.toNat)
  injective s s' h := by
    have h := Encodable.encode_injective h
    have hchars : s.toList = s'.toList := by
      refine List.map_injective_iff.mpr ?_ h
      intro c c' hc
      exact Char.ext (UInt32.toNat_inj.mp hc)
    exact String.toList_injective hchars

/-- `.a .b` and a node of class `b` in one of class `a`. -/
theorem applies_iff_chain_nested : ∃ b, (⟨[⟨"*", GrownSet.empty.add (names.index "a"), "", .empty, .inherit⟩,
          ⟨"*", GrownSet.empty.add (names.index "b"), "", .empty, .inherit⟩], [.descendant], rfl⟩ :
          CompoundSelector).applies names { styleClass := [some "b"] }
            [{ styleClass := [none, some ""] }, { styleClass := [some "a", some "b"] }] = .ok b ∧
      (b = true ↔ ∃ pos, (⟨[⟨"*", GrownSet.empty.add (names.index "a"), "", .empty, .inherit⟩,
          ⟨"*", GrownSet.empty.add (names.index "b"), "", .empty, .inherit⟩], [.descendant], rfl⟩ :
          CompoundSelector).Chain names [{ styleClass := [some "b"] },
            { styleClass := [none, some ""] }, { styleClass := [some "a", some "b"] }] pos) := by
  refine (applies_iff_chain names _ _ _ ?_).1
  intro x hx
  simp only [mem_cons, not_mem_nil, or_false] at hx
  have hb : isBlank "b" = false := by decide
  have ha : isBlank "a" = false := by decide
  rcases hx with rfl | rfl | rfl
  · intro name hname _
    simp at hname
    rw [hname]
    exact hb
  · intro name hname hne
    simp at hname
    rw [hname] at hne
    simp at hne
  · intro name hname _
    simp at hname
    rcases hname with rfl | rfl
    · exact ha
    · exact hb

/-- `:dir(rtl)` matches every node by type, id and style classes, but does not apply to
one that goes from left to right, and `.a` cannot be tried on a node with a blank class. -/
theorem dir_does_not_apply : (¬ ∀ (registry : Registry) (s : CompoundSelector) (styleable : Styleable)
        (parents : List Styleable), ∃ b, s.applies registry styleable parents = .ok b ∧
      (b = true ↔ ∃ pos, Ascent s.Step (fun i p => ∃ selector x, s.selectors[i]? = some selector ∧
        (styleable :: parents)[p]? = some x ∧ selector.Matches registry x)
        (s.selectors.length - 1) 0 pos)) ∧
    ∀ registry, (⟨[⟨"*", GrownSet.empty.add 0, "", .empty, .inherit⟩], [], rfl⟩ :
      CompoundSelector).applies registry { styleClass := [some " "] } [] = .error .illegalArgument := by
  refine ⟨?_, fun registry => rfl⟩
  intro h
  obtain ⟨b, hb, hiff⟩ := h names ⟨[⟨"*", .empty, "", .empty, .rightToLeft⟩], [], rfl⟩
    { orientation := some (.leftToRight, .leftToRight) } []
  have hfalse : b = false := by
    have : (.ok false : Except JavaException Bool) = .ok b := hb
    exact (Except.ok.inj this).symm
  have htrue : b = true := by
    refine hiff.mpr (Ascent.zero.mpr ⟨_, _, rfl, rfl, .inr (.inl rfl), .inl rfl, ?_⟩)
    intro t ht
    have := (BitSet.mem_members.mp ht).lt
    simp [GrownSet.empty] at this
  rw [hfalse] at htrue
  simp at htrue

end CompoundSelector

end JavaFX
