/-
What `stateMatches` finds, and what it passes by.

At a combinator for descendants, `stateMatches` looks for the nearest ancestor that the
next selector applies to, and goes on from there whatever comes of it.  What it finds is
a chain of nodes in the right states.  It finds one if there is one, unless it strays:
the nearest ancestor does not lead on, and another one would.
-/
import JavaFX.Proofs.Css.Selector

namespace JavaFX.CompoundSelector

open SimpleSelector List

/-! ### Chains of states -/

/-- All the pseudo-classes of the selector are there. -/
def Has (selector : SimpleSelector) (states : Option BitSet) : Prop :=
  ∃ set, states = some set ∧ selector.pseudoClassState.set.members ⊆ set.members

theorem stateMatches_iff_has (selector : SimpleSelector) (states : Option BitSet) :
    selector.stateMatches states = true ↔ Has selector states := by
  cases states with
  | none => simp [SimpleSelector.stateMatches, Has]
  | some set =>
    simp only [Has, Option.some.injEq, exists_eq_left']
    exact BitSet.containsAll_iff selector.pseudoClassState.trimmed

/-- The states that count for the `i`-th selector: the given ones for the last selector,
those of the node for the others. -/
def statesOf (s : CompoundSelector) (nodes : List Styleable) (states : Option BitSet) (i p : Nat) :
    Option BitSet :=
  if i + 1 = s.selectors.length then states else (nodes[p]?).map (·.pseudoClassStates)

/-- The `i`-th selector applies to the node at a place, in its states. -/
def StateFits (registry : Registry) (s : CompoundSelector) (nodes : List Styleable)
    (states : Option BitSet) (i p : Nat) : Prop :=
  s.Fits registry nodes i p ∧ ∀ selector, s.selectors[i]? = some selector → Has selector (s.statesOf nodes states i p)

/-- A chain of nodes in the right states that starts at a place. -/
def Leads (registry : Registry) (s : CompoundSelector) (nodes : List Styleable)
    (states : Option BitSet) (k start : Nat) : Prop :=
  ∃ pos, Ascent s.Step (s.StateFits registry nodes states) k start pos

/-- The nearest ancestor that a selector applies to. -/
structure Nearest (registry : Registry) (s : CompoundSelector) (nodes : List Styleable)
    (k start p : Nat) : Prop where
  above : start < p
  fits : s.Fits registry nodes k p
  first : ∀ q, start < q → q < p → ¬ s.Fits registry nodes k q

/-- On the way of `stateMatches` there is a combinator for descendants where the nearest
ancestor that the next selector applies to does not lead on, and another one does. -/
inductive Strays (registry : Registry) (s : CompoundSelector) (nodes : List Styleable)
    (states : Option BitSet) : Nat → Nat → Prop
  | here {k start p q : Nat} (hstate : s.StateFits registry nodes states (k + 1) start)
      (hrel : s.relationships[k]? = some .descendant) (hnear : s.Nearest registry nodes k start p)
      (hno : ¬ s.Leads registry nodes states k p) (hq : start < q)
      (hleads : s.Leads registry nodes states k q) : Strays registry s nodes states (k + 1) start
  | child {k start : Nat} (hstate : s.StateFits registry nodes states (k + 1) start)
      (hrel : s.relationships[k]? = some .child) (hfits : s.Fits registry nodes k (start + 1))
      (hstrays : Strays registry s nodes states k (start + 1)) :
      Strays registry s nodes states (k + 1) start
  | descendant {k start p : Nat} (hstate : s.StateFits registry nodes states (k + 1) start)
      (hrel : s.relationships[k]? = some .descendant) (hnear : s.Nearest registry nodes k start p)
      (hstrays : Strays registry s nodes states k p) : Strays registry s nodes states (k + 1) start

section
variable {registry : Registry} {s : CompoundSelector} {nodes : List Styleable}
  {states : Option BitSet}

theorem applies_iff_fits {k p : Nat} {x : Styleable} {selector : SimpleSelector} {b : Bool}
    (hsel : s.selectors[k]? = some selector) (hx : nodes[p]? = some x)
    (hb : selector.applies registry x = .ok b) : b = true ↔ s.Fits registry nodes k p := by
  refine (applies_ok hb).trans ⟨fun h => ⟨selector, x, hsel, hx, h⟩, ?_⟩
  rintro ⟨selector', x', hsel', hx', h⟩
  obtain rfl : selector = selector' := Option.some.inj (hsel.symm.trans hsel')
  obtain rfl : x = x' := Option.some.inj (hx.symm.trans hx')
  exact h

/-! ### Nodes that `applies` has been at

Where `applies` has not thrown, `stateMatches` does not throw either: it only goes where
`applies` has been before. -/

/-- `applies` has looked at a node, and at what lies above it as far as it had to. -/
def Visited (registry : Registry) (s : CompoundSelector) (k : Nat) (x : Styleable)
    (parents : List Styleable) : Prop :=
  ∃ triggerStates depth r, s.appliesFrom registry k x parents triggerStates depth = .ok r

/-- `applies` has looked at one parent after the other. -/
def VisitedAll (registry : Registry) (s : CompoundSelector) (k : Nat) (parents : List Styleable) :
    Prop :=
  ∃ triggerStates depth r, searchParents (s.appliesFrom registry k) parents triggerStates depth = .ok r

theorem appliesFrom_error (k : Nat) (x : Styleable) (parents : List Styleable)
    (triggerStates : TriggerStates) (depth : Nat) {selector : SimpleSelector}
    (hsel : s.selectors[k]? = some selector) {e : JavaException}
    (he : selector.applies registry x = .error e) :
    s.appliesFrom registry k x parents triggerStates depth = .error e := by
  cases k with
  | zero => simp only [appliesFrom, selector_eq hsel, appliesAt, he, bind, Except.bind]
  | succ k => simp only [appliesFrom, selector_eq hsel, appliesAt, he, bind, Except.bind]

theorem appliesFrom_false {k : Nat} {x : Styleable} {selector : SimpleSelector}
    (hsel : s.selectors[k]? = some selector) (hb : selector.applies registry x = .ok false)
    (parents : List Styleable) (triggerStates : TriggerStates) (depth : Nat) :
    s.appliesFrom registry k x parents triggerStates depth = .ok (false, triggerStates) := by
  cases k with
  | zero =>
    simp only [appliesFrom, selector_eq hsel, appliesAt, hb, bind, Except.bind]
    rfl
  | succ k =>
    simp only [appliesFrom, selector_eq hsel, appliesAt, hb, bind, Except.bind]
    rfl

theorem Visited.applies {k : Nat} {x : Styleable} {parents : List Styleable}
    (h : s.Visited registry k x parents) {selector : SimpleSelector}
    (hsel : s.selectors[k]? = some selector) : ∃ b, selector.applies registry x = .ok b := by
  obtain ⟨triggerStates, depth, r, hr⟩ := h
  cases happ : selector.applies registry x with
  | ok b => exact ⟨b, rfl⟩
  | error e =>
    rw [appliesFrom_error k x parents triggerStates depth hsel happ] at hr
    simp at hr

theorem Visited.parents {k : Nat} {x : Styleable} {parents : List Styleable} {c : Combinator}
    {selector : SimpleSelector} (h : s.Visited registry (k + 1) x parents)
    (hsel : s.selectors[k + 1]? = some selector) (hb : selector.applies registry x = .ok true)
    (hc : s.relationships[k]? = some c) :
    match c with
    | .child => ∀ parent above, parents = parent :: above → s.Visited registry k parent above
    | .descendant => s.VisitedAll registry k parents := by
  obtain ⟨triggerStates, depth, r, hr⟩ := h
  simp only [appliesFrom, selector_eq hsel, appliesAt, hb, relationship_eq hc, bind, Except.bind] at hr
  cases c with
  | child =>
    rintro parent above rfl
    exact ⟨_, _, r, hr⟩
  | descendant => exact ⟨_, _, r, hr⟩

theorem VisitedAll.cons {k : Nat} {x : Styleable} {parents : List Styleable}
    (h : s.VisitedAll registry k (x :: parents)) : s.Visited registry k x parents := by
  obtain ⟨triggerStates, depth, r, hr⟩ := h
  cases hrun : s.appliesFrom registry k x parents triggerStates depth with
  | ok r' => exact ⟨triggerStates, depth, r', hrun⟩
  | error e => simp [searchParents, hrun, bind, Except.bind] at hr

theorem VisitedAll.tail {k : Nat} {x : Styleable} {parents : List Styleable}
    {selector : SimpleSelector} (h : s.VisitedAll registry k (x :: parents))
    (hsel : s.selectors[k]? = some selector) (hb : selector.applies registry x = .ok false) :
    s.VisitedAll registry k parents := by
  obtain ⟨triggerStates, depth, r, hr⟩ := h
  simp only [searchParents, appliesFrom_false hsel hb] at hr
  exact ⟨_, _, r, hr⟩

theorem Fits.lt {k p : Nat} (h : s.Fits registry nodes k p) : p < nodes.length := by
  obtain ⟨-, x, -, hx, -⟩ := h
  exact (List.getElem?_eq_some_iff.mp hx).1

theorem firstApplying_spec (registry : Registry) (start : Nat) {k : Nat} {selector : SimpleSelector}
    (hsel : s.selectors[k]? = some selector) :
    ∀ (parents : List Styleable) (q : Nat), s.VisitedAll registry k parents → nodes.drop q = parents → start < q →
      (∀ q', start < q' → q' < q → ¬ s.Fits registry nodes k q') →
      (firstApplying registry selector parents = .ok none ∧ ∀ q', start < q' → ¬ s.Fits registry nodes k q') ∨
      ∃ p x above, firstApplying registry selector parents = .ok (some (x, above)) ∧
        nodes.drop p = x :: above ∧ s.Visited registry k x above ∧
        s.Nearest registry nodes k start p := by
  intro parents
  induction parents with
  | nil =>
    intro q _ hdrop _ hbefore
    left
    refine ⟨rfl, fun q' hq' hfits => hbefore q' hq' ?_ hfits⟩
    have := hfits.lt
    have := List.drop_eq_nil_iff.mp hdrop
    omega
  | cons x parents ih =>
    intro q hvisited hdrop hq hbefore
    obtain ⟨hx, hparents⟩ := drop_succ hdrop
    obtain ⟨b, hb⟩ := hvisited.cons.applies hsel
    have hiff := applies_iff_fits hsel hx hb
    cases b with
    | true =>
      right
      refine ⟨q, x, parents, ?_, hdrop, hvisited.cons, hq, hiff.mp rfl, hbefore⟩
      simp only [firstApplying, hb]
      rfl
    | false =>
      have hno : ¬ s.Fits registry nodes k q := fun h => by simpa using hiff.mpr h
      have hrun : firstApplying registry selector (x :: parents) = firstApplying registry selector parents := by
        simp only [firstApplying, hb]
        rfl
      rw [hrun]
      apply ih (q + 1) (hvisited.tail hsel hb) hparents (by omega)
      intro q' hq' hlt
      by_cases heq : q' = q
      · rw [heq]
        exact hno
      · exact hbefore q' hq' (by omega)

theorem Nearest.unique {k start p p' : Nat} (h : s.Nearest registry nodes k start p)
    (h' : s.Nearest registry nodes k start p') : p = p' := by
  rcases Nat.lt_trichotomy p p' with hlt | heq | hgt
  · exact absurd h.fits (h'.first p h.above hlt)
  · exact heq
  · exact absurd h'.fits (h.first p' h'.above hgt)

/-- What a run of `stateMatches` comes to. -/
structure Verdict (registry : Registry) (s : CompoundSelector) (nodes : List Styleable)
    (states : Option BitSet) (k start : Nat) (b : Bool) : Prop where
  sound : b = true → s.Leads registry nodes states k start
  complete : s.Leads registry nodes states k start → ¬ Strays registry s nodes states k start → b = true
  strays : Strays registry s nodes states k start → b = false ∧ s.Leads registry nodes states k start

theorem verdict_false {k start : Nat} (hno : ¬ s.Leads registry nodes states k start)
    (hstrays : ¬ Strays registry s nodes states k start) :
    s.Verdict registry nodes states k start false :=
  ⟨by simp, fun h _ => absurd h hno, fun h => absurd h hstrays⟩

theorem leads_succ {k start : Nat} {c : Combinator} (hrel : s.relationships[k]? = some c) :
    s.Leads registry nodes states (k + 1) start ↔ s.StateFits registry nodes states (k + 1) start ∧
        ∃ next, c.Leads start next ∧ s.Leads registry nodes states k next := by
  unfold Leads
  rw [Ascent.succ]
  constructor
  · rintro ⟨hstate, next, ⟨c', hc', hnext⟩, hpos⟩
    obtain rfl : c = c' := Option.some.inj (hrel.symm.trans hc')
    exact ⟨hstate, next, hnext, hpos⟩
  · rintro ⟨hstate, next, hnext, hpos⟩
    exact ⟨hstate, next, ⟨c, hrel, hnext⟩, hpos⟩

theorem Leads.fits {k start : Nat} (h : s.Leads registry nodes states k start) : s.Fits registry nodes k start := by
  obtain ⟨pos, hpos⟩ := h
  have := (hpos.fits k (Nat.le_refl k)).1
  rwa [hpos.starts] at this

theorem Strays.stateFits {k start : Nat} (h : Strays registry s nodes states (k + 1) start) :
    s.StateFits registry nodes states (k + 1) start := by
  cases h with
  | here hstate => exact hstate
  | child hstate => exact hstate
  | descendant hstate => exact hstate

theorem verdict_child {k start : Nat} {b : Bool} (hstate : s.StateFits registry nodes states (k + 1) start)
    (hrel : s.relationships[k]? = some .child) (hfits : s.Fits registry nodes k (start + 1))
    (h : s.Verdict registry nodes states k (start + 1) b) :
    s.Verdict registry nodes states (k + 1) start b := by
  have hleads : s.Leads registry nodes states (k + 1) start ↔ s.Leads registry nodes states k (start + 1) := by
    rw [leads_succ hrel]
    constructor
    · rintro ⟨-, next, rfl, hnext⟩
      exact hnext
    · intro hnext
      exact ⟨hstate, start + 1, rfl, hnext⟩
  refine ⟨fun htrue => hleads.mpr (h.sound htrue), fun hl hno => ?_, fun hstrays => ?_⟩
  · exact h.complete (hleads.mp hl) fun hs => hno (.child hstate hrel hfits hs)
  · cases hstrays with
    | here _ hrel' => rw [hrel] at hrel'; simp at hrel'
    | child _ _ _ hs => exact ⟨(h.strays hs).1, hleads.mpr (h.strays hs).2⟩
    | descendant _ hrel' => rw [hrel] at hrel'; simp at hrel'

/-- Under a combinator for descendants the way goes on from the nearest ancestor. -/
theorem verdict_descendant {k start p : Nat} {b : Bool} (hstate : s.StateFits registry nodes states (k + 1) start)
    (hrel : s.relationships[k]? = some .descendant) (hnear : s.Nearest registry nodes k start p)
    (h : s.Verdict registry nodes states k p b) :
    s.Verdict registry nodes states (k + 1) start b := by
  have hup : s.Leads registry nodes states k p → s.Leads registry nodes states (k + 1) start :=
    fun hp => (leads_succ hrel).mpr ⟨hstate, p, hnear.above, hp⟩
  refine ⟨fun htrue => hup (h.sound htrue), fun hl hno => ?_, fun hstrays => ?_⟩
  · obtain ⟨-, q, hq, hleads⟩ := (leads_succ hrel).mp hl
    apply h.complete
    · by_contra hnot
      exact hno (.here hstate hrel hnear hnot hq hleads)
    · exact fun hs => hno (.descendant hstate hrel hnear hs)
  · cases hstrays with
    | @here _ _ p' q _ _ hnear' hnot hq hleads =>
      obtain rfl := hnear.unique hnear'
      refine ⟨?_, (leads_succ hrel).mpr ⟨hstate, q, hq, hleads⟩⟩
      cases b with
      | false => rfl
      | true => exact absurd (h.sound rfl) hnot
    | child _ hrel' => rw [hrel] at hrel'; simp at hrel'
    | descendant _ _ hnear' hs =>
      obtain rfl := hnear.unique hnear'
      exact ⟨(h.strays hs).1, hup (h.strays hs).2⟩

/-- **The way of `stateMatches`** from a node upwards. -/
theorem stateMatchesFrom_spec (states : Option BitSet) :
    ∀ (k : Nat), k < s.selectors.length → ∀ start x parents, nodes.drop start = x :: parents →
      s.Visited registry k x parents → s.Fits registry nodes k start →
      ∃ b, s.stateMatchesFrom registry k parents (s.statesOf nodes states k start) = .ok b ∧
        s.Verdict registry nodes states k start b := by
  intro k
  induction k with
  | zero =>
    intro hk start x parents hdrop _ hfits
    have hsel := getElem?_eq_getElem hk
    have hleads : s.Leads registry nodes states 0 start ↔ Has s.selectors[0] (s.statesOf nodes states 0 start) := by
      unfold Leads
      rw [Ascent.zero]
      constructor
      · intro h
        exact h.2 _ hsel
      · intro h
        refine ⟨hfits, fun selector hsel' => ?_⟩
        obtain rfl := Option.some.inj (hsel.symm.trans hsel')
        exact h
    refine ⟨s.selectors[0].stateMatches (s.statesOf nodes states 0 start), ?_, ?_, ?_, ?_⟩
    · simp only [stateMatchesFrom, selector_eq hsel]
      rfl
    · intro h
      exact hleads.mpr ((stateMatches_iff_has _ _).mp h)
    · intro h _
      exact (stateMatches_iff_has _ _).mpr (hleads.mp h)
    · intro h
      cases h
  | succ k ih =>
    intro hk start x parents hdrop hvisited hfits
    obtain ⟨hx, hparents⟩ := drop_succ hdrop
    have hk' : k < s.selectors.length := by omega
    have hsel := getElem?_eq_getElem hk
    have hnext := getElem?_eq_getElem hk'
    obtain ⟨c, hc⟩ : ∃ c, s.relationships[k]? = some c :=
      ⟨_, getElem?_eq_getElem (by have := s.shape; omega)⟩
    have hparent : s.selectors[k + 1].applies registry x = .ok true := by
      obtain ⟨b, hb⟩ := hvisited.applies hsel
      rw [hb, (applies_iff_fits hsel hx hb).mpr hfits]
    have hvisited := hvisited.parents hsel hparent hc
    -- the states of an ancestor are its own
    have hown : ∀ p y, nodes[p]? = some y → some y.pseudoClassStates = s.statesOf nodes states k p := by
      intro p y hy
      unfold statesOf
      rw [if_neg (by omega), hy]
      rfl
    by_cases hstates : s.selectors[k + 1].stateMatches (s.statesOf nodes states (k + 1) start) = true
    · have hstate : s.StateFits registry nodes states (k + 1) start := by
        refine ⟨hfits, fun selector hsel' => ?_⟩
        obtain rfl := Option.some.inj (hsel.symm.trans hsel')
        exact (stateMatches_iff_has _ _).mp hstates
      cases c with
      | child =>
        have hnot : ¬ s.Fits registry nodes k (start + 1) → s.Verdict registry nodes states (k + 1) start false := by
          intro hno
          apply verdict_false
          · intro hl
            obtain ⟨-, next, rfl, hpos⟩ := (leads_succ hc).mp hl
            exact hno hpos.fits
          · intro hs
            cases hs with
            | here _ hrel' => rw [hc] at hrel'; simp at hrel'
            | child _ _ hfits' => exact hno hfits'
            | descendant _ hrel' => rw [hc] at hrel'; simp at hrel'
        cases parents with
        | nil =>
          refine ⟨false, ?_, hnot fun h => ?_⟩
          · simp only [stateMatchesFrom, selector_eq hsel, selector_eq hnext,
              relationship_eq hc, hstates, bind, Except.bind]
            rfl
          · have := h.lt
            have := List.drop_eq_nil_iff.mp hparents
            omega
        | cons parent parents =>
          have hparent := (drop_succ hparents).1
          have hvisited := hvisited parent parents rfl
          obtain ⟨b, hb⟩ := hvisited.applies hnext
          have hiff := applies_iff_fits hnext hparent hb
          cases b with
          | false =>
            refine ⟨false, ?_, hnot fun h => by simpa using hiff.mpr h⟩
            simp only [stateMatchesFrom, selector_eq hsel, selector_eq hnext,
              relationship_eq hc, hstates, hb, bind, Except.bind]
            rfl
          | true =>
            obtain ⟨b, hrun, hverdict⟩ := ih hk' (start + 1) parent parents hparents hvisited (hiff.mp rfl)
            refine ⟨b, ?_, verdict_child hstate hc (hiff.mp rfl) hverdict⟩
            rw [← hown (start + 1) parent hparent] at hrun
            simp only [stateMatchesFrom, selector_eq hsel, selector_eq hnext,
              relationship_eq hc, hstates, hb, bind, Except.bind]
            exact hrun
      | descendant =>
        rcases firstApplying_spec registry start hnext parents (start + 1) hvisited hparents
          (by omega) (fun q h h' => by omega) with
            ⟨hrun, hno⟩ | ⟨p, y, above, hrun, hdrop', hvisited', hnear⟩
        · refine ⟨false, ?_, verdict_false ?_ ?_⟩
          · simp only [stateMatchesFrom, selector_eq hsel, selector_eq hnext,
              relationship_eq hc, hstates, hrun, bind, Except.bind]
            rfl
          · intro hl
            obtain ⟨-, next, hlt, hpos⟩ := (leads_succ hc).mp hl
            exact hno next hlt hpos.fits
          · intro hs
            cases hs with
            | here _ _ hnear => exact hno _ hnear.above hnear.fits
            | child _ hrel' => rw [hc] at hrel'; simp at hrel'
            | descendant _ _ hnear => exact hno _ hnear.above hnear.fits
        · obtain ⟨b, hrun', hverdict⟩ := ih hk' p y above hdrop' hvisited' hnear.fits
          refine ⟨b, ?_, verdict_descendant hstate hc hnear hverdict⟩
          rw [← hown p y (drop_succ hdrop').1] at hrun'
          simp only [stateMatchesFrom, selector_eq hsel, selector_eq hnext,
            relationship_eq hc, hstates, hrun, bind, Except.bind]
          exact hrun'
    · have hnot : ¬ s.StateFits registry nodes states (k + 1) start := fun h =>
        hstates ((stateMatches_iff_has _ _).mpr (h.2 _ hsel))
      refine ⟨false, ?_, verdict_false ?_ ?_⟩
      · simp only [stateMatchesFrom, selector_eq hsel, hstates, bind, Except.bind]
        rfl
      · intro hl
        exact hnot ((leads_succ hc).mp hl).1
      · intro hs
        exact hnot hs.stateFits

end

/-- **`stateMatches` is right**, about a node that the selector applies to, unless it
strays. -/
theorem stateMatches_iff_leads (registry : Registry) (s : CompoundSelector) (styleable : Styleable)
    (parents : List Styleable) (states : Option BitSet)
    (happlies : s.applies registry styleable parents = .ok true) :
    ∃ b, s.stateMatches registry parents states = .ok b ∧
      ((b = true ↔ s.Leads registry (styleable :: parents) states (s.selectors.length - 1) 0) ↔
        ¬ Strays registry s (styleable :: parents) states (s.selectors.length - 1) 0) := by
  have hk : s.selectors.length - 1 < s.selectors.length := by
    have := s.shape
    omega
  obtain ⟨states', hrun⟩ : ∃ states', s.appliesFrom registry (s.selectors.length - 1) styleable
      parents none 0 = .ok (true, states') := by
    unfold applies at happlies
    cases hrun : s.appliesFrom registry (s.selectors.length - 1) styleable parents none 0 with
    | error e => simp [hrun] at happlies
    | ok r =>
      rw [hrun] at happlies
      have : r.1 = true := Except.ok.inj happlies
      exact ⟨r.2, by rw [← this]⟩
  have hvisited : s.Visited registry (s.selectors.length - 1) styleable parents := ⟨_, _, _, hrun⟩
  have hfits : s.Fits registry (styleable :: parents) (s.selectors.length - 1) 0 := by
    have hsel := getElem?_eq_getElem hk
    obtain ⟨b, hb⟩ := hvisited.applies hsel
    apply (applies_iff_fits hsel rfl hb).mp
    cases b with
    | true => rfl
    | false =>
      have := appliesFrom_false hsel hb parents none 0
      rw [hrun] at this
      simp at this
  obtain ⟨b, hrun, hverdict⟩ := stateMatchesFrom_spec states _ hk 0 styleable parents rfl hvisited hfits
  have hstates : s.statesOf (styleable :: parents) states (s.selectors.length - 1) 0 = states := by
    unfold statesOf
    rw [if_pos (by omega)]
  rw [hstates] at hrun
  refine ⟨b, hrun, ?_, ?_⟩
  · intro hiff hs
    obtain ⟨hfalse, hleads⟩ := hverdict.strays hs
    rw [hfalse] at hiff
    exact absurd (hiff.mpr hleads) (by simp)
  · intro hno
    exact ⟨hverdict.sound, fun hl => hverdict.complete hl hno⟩

/-- `A:hover B`, where `hover` has the number 0. -/
def hovered : CompoundSelector :=
  ⟨[⟨"A", .empty, "", GrownSet.empty.add 0, .inherit⟩, ⟨"B", .empty, "", .empty, .inherit⟩], [.descendant], rfl⟩

theorem stateMatches_iff_leads_hovered :
    ∃ b, hovered.stateMatches names [{ typeSelector := some "A", pseudoClassStates := ⟨[1], false⟩ }]
        (some {}) = .ok b ∧
      ((b = true ↔ hovered.Leads names [{ typeSelector := some "B" },
          { typeSelector := some "A", pseudoClassStates := ⟨[1], false⟩ }] (some {}) 1 0) ↔
        ¬ Strays names hovered [{ typeSelector := some "B" },
          { typeSelector := some "A", pseudoClassStates := ⟨[1], false⟩ }] (some {}) 1 0) := by
  exact stateMatches_iff_leads names hovered { typeSelector := some "B" }
    [{ typeSelector := some "A", pseudoClassStates := ⟨[1], false⟩ }] (some {}) rfl

/-- A `B` in an `A` without the mouse, in an `A` over which the mouse is: the outer `A` is
never looked at. -/
theorem stateMatches_passes_by : ¬ ∀ (registry : Registry) (s : CompoundSelector) (styleable : Styleable)
        (parents : List Styleable) (states : Option BitSet),
      s.applies registry styleable parents = .ok true →
      ∃ b, s.stateMatches registry parents states = .ok b ∧
        (b = true ↔ s.Leads registry (styleable :: parents) states (s.selectors.length - 1) 0) := by
  intro h
  obtain ⟨b, hb, hiff⟩ := h names hovered { typeSelector := some "B" }
    [{ typeSelector := some "A" }, { typeSelector := some "A", pseudoClassStates := ⟨[1], false⟩ }]
    (some {}) rfl
  have hfalse : b = false := by
    have : (.ok false : Except JavaException Bool) = .ok b := hb
    exact (Except.ok.inj this).symm
  have hempty : ∀ set : Set Nat, GrownSet.empty.set.members ⊆ set := by
    intro set t ht
    have := (BitSet.mem_members.mp ht).lt
    simp [GrownSet.empty] at this
  have hhover : (GrownSet.empty.add 0).set.members ⊆ (⟨[1], false⟩ : BitSet).members := fun t ht => ht
  have hfits : ∀ (i p : Nat) (name : String) (state : GrownSet) (x : Styleable),
      hovered.selectors[i]? = some ⟨name, .empty, "", state, .inherit⟩ →
      ([{ typeSelector := some "B" }, { typeSelector := some "A" },
        { typeSelector := some "A", pseudoClassStates := ⟨[1], false⟩ }] : List Styleable)[p]? = some x →
      x.orientation = none → x.typeSelector = some name →
      hovered.Fits names [{ typeSelector := some "B" }, { typeSelector := some "A" },
        { typeSelector := some "A", pseudoClassStates := ⟨[1], false⟩ }] i p := by
    intro i p name state x hsel hx horient htype
    exact ⟨_, x, hsel, hx, by simp [matchOrientation, horient], .inr (.inr htype), .inl rfl, hempty _⟩
  have htrue : b = true := by
    refine hiff.mpr ((leads_succ rfl).mpr ⟨⟨?_, ?_⟩, 2, by show 0 < 2; decide, Ascent.zero.mpr ⟨?_, ?_⟩⟩)
    · exact hfits 1 0 "B" .empty _ rfl rfl rfl rfl
    · intro selector hsel
      obtain rfl := Option.some.inj hsel
      exact ⟨_, rfl, hempty _⟩
    · exact hfits 0 2 "A" _ _ rfl rfl rfl rfl
    · intro selector hsel
      obtain rfl := Option.some.inj hsel
      exact ⟨_, rfl, hhover⟩
  rw [hfalse] at htrue
  simp at htrue

end JavaFX.CompoundSelector
