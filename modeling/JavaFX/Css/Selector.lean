/-
`javafx.css.SimpleSelector` and `javafx.css.CompoundSelector`.

A selector is matched against a node and the nodes above it, which is a list here: the
node first, then its parent, and so on.  The names of style classes and pseudo-classes
are numbered by registries; a `Registry` is what the registry says when all names are
in.  A name of blanks is refused by the registry.
-/
import JavaFX.Css.BitSet

namespace JavaFX

inductive NodeOrientation
  | leftToRight
  | rightToLeft
  | inherit
deriving DecidableEq, Repr

inductive Combinator
  | child
  | descendant
deriving DecidableEq, Repr

/-! ### Names -/

/-- The numbers of names. -/
structure Registry where
  index : String → Nat
  injective : Function.Injective index

/-- `s.trim().isEmpty()`. -/
def isBlank (s : String) : Bool := s.toList.all (· ≤ ' ')

/-- `StyleClassSet.getStyleClass(name)` and `PseudoClassState.getPseudoClass(name)`. -/
def Registry.get (registry : Registry) (name : String) : Except JavaException Nat :=
  if isBlank name then .error .illegalArgument else .ok (registry.index name)

/-- A character that is `c`, a small letter or a sign, but for the case. -/
def equalsIgnoreCase (c c' : Char) : Bool :=
  c'.toLower = c ∨ (c = 'i' ∧ (c' = 'ı' ∨ c' = 'İ'))

/-- `"dir(".regionMatches(true, 0, s, 0, 4)`. -/
def startsWithDir (s : String) : Bool :=
  let start := s.toList.take 4
  start.length = 4 ∧ ("dir(".toList.zip start).all fun (c, c') => equalsIgnoreCase c c'

/-- `"dir(rtl)".equalsIgnoreCase(s)`. -/
def isDirRtl (s : String) : Bool :=
  s.toList.length = 8 ∧ ("dir(rtl)".toList.zip s.toList).all fun (c, c') => equalsIgnoreCase c c'

namespace BitSet

/-- The array is no longer than it has to be. -/
def Trimmed (s : BitSet) : Prop := s.bits.getLast? ≠ some 0

theorem add_ne_zero {x : Long} {b : Nat} (hb : b < 64) : x ||| mask b ≠ 0 := by
  intro h
  have := congrArg (fun y : Long => y.getLsbD b) h
  simp [mask, hb] at this

/-- Adding leaves a set trimmed. -/
theorem trimmed_add {s : BitSet} (h : s.Trimmed) (t : Nat) : (s.add (some t)).set.Trimmed := by
  have hb : t % 64 < 64 := Nat.mod_lt _ (by decide)
  have hne : ∀ x : Long, x ||| mask (t % 64) ≠ 0 := fun x => add_ne_zero hb
  unfold Trimmed add
  simp only [List.getLast?_eq_getElem?, List.length_set, List.length_append, List.length_replicate]
  rw [List.getElem?_set]
  by_cases hlast : t / 64 = s.bits.length + (t / 64 + 1 - s.bits.length) - 1
  · rw [if_pos hlast]
    split
    · intro h'
      exact hne _ (Option.some.inj h')
    · simp
  · rw [if_neg hlast]
    have hk : t / 64 + 1 - s.bits.length = 0 := by omega
    rw [hk]
    unfold Trimmed at h
    rw [List.getLast?_eq_getElem?] at h
    simpa using h

end BitSet

/-- A set that only ever grew. -/
structure GrownSet where
  set : BitSet
  trimmed : set.Trimmed

namespace GrownSet

def empty : GrownSet := ⟨{}, by simp [BitSet.Trimmed]⟩

def add (s : GrownSet) (t : Nat) : GrownSet :=
  ⟨(s.set.add (some t)).set, BitSet.trimmed_add s.trimmed t⟩

/-- The loop that collects the style classes of a selector, and of a node. -/
def addStyleClasses (registry : Registry) (names : List (Option String)) (s : GrownSet) :
    Except JavaException GrownSet :=
  match names with
  | [] => .ok s
  | name :: names =>
    match name with
    | none => addStyleClasses registry names s
    | some name =>
      if name.isEmpty then addStyleClasses registry names s
      else do
        let index ← registry.get name
        addStyleClasses registry names (s.add index)

end GrownSet

/-! ### Nodes -/

/-- What a selector looks at. -/
structure Styleable where
  id : Option String := none
  typeSelector : Option String := none
  styleClass : List (Option String) := []
  pseudoClassStates : BitSet := {}
  /-- For a `Node`: its orientation, and the one in effect. -/
  orientation : Option (NodeOrientation × NodeOrientation) := none

/-! ### Simple selectors -/

structure SimpleSelector where
  name : String
  styleClassSet : GrownSet
  id : String
  pseudoClassState : GrownSet
  nodeOrientation : NodeOrientation

namespace SimpleSelector

/-- The loop over the pseudo-classes in the constructor. -/
def addPseudoClasses (registry : Registry) (names : List (Option String)) (s : GrownSet)
    (dir : NodeOrientation) : Except JavaException (GrownSet × NodeOrientation) :=
  match names with
  | [] => .ok (s, dir)
  | name :: names =>
    match name with
    | none => addPseudoClasses registry names s dir
    | some name =>
      if name.isEmpty then addPseudoClasses registry names s dir
      else if startsWithDir name then
        addPseudoClasses registry names s (if isDirRtl name then .rightToLeft else .leftToRight)
      else do
        let index ← registry.get name
        addPseudoClasses registry names (s.add index) dir

/-- `new SimpleSelector(name, styleClasses, pseudoClasses, id)`. -/
def create (styleClassRegistry pseudoClassRegistry : Registry) (name : Option String)
    (styleClasses pseudoClasses : List (Option String)) (id : Option String) :
    Except JavaException SimpleSelector := do
  let styleClassSet ← GrownSet.addStyleClasses styleClassRegistry styleClasses .empty
  let (pseudoClassState, nodeOrientation) ←
    addPseudoClasses pseudoClassRegistry pseudoClasses .empty .inherit
  return { name := name.getD "*", styleClassSet, id := id.getD "", pseudoClassState, nodeOrientation }

def matchOnName (s : SimpleSelector) : Bool := s.name ≠ "" ∧ s.name ≠ "*"

def matchOnId (s : SimpleSelector) : Bool := s.id ≠ ""

def matchOnStyleClass (s : SimpleSelector) : Bool := 0 < s.styleClassSet.set.size

/-- The check of `:dir()`. -/
def matchOrientation (s : SimpleSelector) (styleable : Styleable) : Bool :=
  match styleable.orientation with
  | some (orientation, effective) =>
    s.nodeOrientation = .inherit ∨ (if orientation = .inherit then effective else orientation) = s.nodeOrientation
  | none => true

/-- `applies(styleable)`. -/
def applies (registry : Registry) (s : SimpleSelector) (styleable : Styleable) :
    Except JavaException Bool :=
  if !s.matchOrientation styleable then .ok false
  else if s.matchOnId ∧ styleable.id ≠ some s.id then .ok false
  else if s.matchOnName ∧ styleable.typeSelector ≠ some s.name then .ok false
  else if s.matchOnStyleClass then do
    let otherStyleClassSet ← GrownSet.addStyleClasses registry styleable.styleClass .empty
    return otherStyleClassSet.set.containsAll (some s.styleClassSet.set)
  else .ok true

/-- The sets of pseudo-classes that are collected, one for each depth; there may be no
array to collect them in, and no set yet at a depth. -/
abbrev TriggerStates := Option (List (Option BitSet))

/-- `pseudoClasses[depth].addAll(pseudoClassState)`, with a new set if there is none. -/
def collect (s : SimpleSelector) (pseudoClasses : TriggerStates) (depth : Nat) : TriggerStates :=
  pseudoClasses.map fun states =>
    if depth < states.length then
      let set := (states.getD depth none).getD {}
      states.set depth (some (set.addAll (some s.pseudoClassState.set)).set)
    else states

/-- `applies(styleable, pseudoClasses, depth)`. -/
def appliesAt (registry : Registry) (s : SimpleSelector) (styleable : Styleable)
    (pseudoClasses : TriggerStates) (depth : Nat) : Except JavaException (Bool × TriggerStates) := do
  let applies ← s.applies registry styleable
  return (applies, if applies then s.collect pseudoClasses depth else pseudoClasses)

/-- `stateMatches(styleable, states)`. -/
def stateMatches (s : SimpleSelector) (states : Option BitSet) : Bool :=
  match states with
  | some states => states.containsAll (some s.pseudoClassState.set)
  | none => false

end SimpleSelector

/-! ### Compound selectors -/

/-- A selector `s0 c1 s1 … cn sn`. -/
structure CompoundSelector where
  selectors : List SimpleSelector
  relationships : List Combinator
  shape : selectors.length = relationships.length + 1

namespace CompoundSelector

open SimpleSelector

/-- `selectors.get(index)`. -/
def selector (s : CompoundSelector) (index : Nat) : Except JavaException SimpleSelector :=
  getAt s.selectors index

/-- `relationships.get(index)`. -/
def relationship (s : CompoundSelector) (index : Nat) : Except JavaException Combinator :=
  getAt s.relationships index

/-- The loop over the parents: the first answer `true` is the answer. -/
def searchParents (applies : Styleable → List Styleable → TriggerStates → Nat →
      Except JavaException (Bool × TriggerStates)) :
    List Styleable → TriggerStates → Nat → Except JavaException (Bool × TriggerStates)
  | [], triggerStates, _ => .ok (false, triggerStates)
  | parent :: parents, triggerStates, depth => do
    let (answer, triggerStates) ← applies parent parents triggerStates depth
    if answer then return (true, triggerStates)
    else searchParents applies parents triggerStates (depth + 1)

/-- `applies(styleable, index, triggerStates, depth)`, for an index that is not negative. -/
def appliesFrom (registry : Registry) (s : CompoundSelector) :
    Nat → Styleable → List Styleable → TriggerStates → Nat → Except JavaException (Bool × TriggerStates)
  | 0, styleable, _, triggerStates, depth => do
    let selector ← s.selector 0
    selector.appliesAt registry styleable triggerStates depth
  | index + 1, styleable, parents, triggerStates, depth => do
    let selector ← s.selector (index + 1)
    let (applies, triggerStates) ← selector.appliesAt registry styleable triggerStates depth
    if !applies then return (false, triggerStates)
    else
      match ← s.relationship index with
      | .child =>
        match parents with
        | [] => return (false, triggerStates)
        | parent :: parents =>
          appliesFrom registry s index parent parents triggerStates (depth + 1)
      | .descendant =>
        searchParents (appliesFrom registry s index) parents triggerStates (depth + 1)

/-- `applies(styleable)`. -/
def applies (registry : Registry) (s : CompoundSelector) (styleable : Styleable)
    (parents : List Styleable) : Except JavaException Bool := do
  let (applies, _) ← s.appliesFrom registry (s.selectors.length - 1) styleable parents none 0
  return applies

/-- The collected sets are added to those of the caller. -/
def copyBack (triggerStates tempStates : List (Option BitSet)) : List (Option BitSet) :=
  triggerStates.zipWith (fun out collected =>
    match out with
    | some set => some (set.addAll collected).set
    | none => collected) tempStates

/-- `applies(styleable, triggerStates, depth)`. -/
def appliesCollecting (registry : Registry) (s : CompoundSelector) (styleable : Styleable)
    (parents : List Styleable) (triggerStates : List (Option BitSet)) (depth : Nat) :
    Except JavaException (Bool × List (Option BitSet)) := do
  if triggerStates.length ≤ depth then return (false, triggerStates)
  else
    let tempStates := List.replicate triggerStates.length none
    let (applies, tempStates) ←
      s.appliesFrom registry (s.selectors.length - 1) styleable parents (some tempStates) depth
    if applies then return (true, copyBack triggerStates (tempStates.getD []))
    else return (false, triggerStates)

/-! #### States -/

/-- The loop of `stateMatches` over the parents: it stops at the first one the next
selector applies to. -/
def firstApplying (registry : Registry) (selector : SimpleSelector) :
    List Styleable → Except JavaException (Option (Styleable × List Styleable))
  | [] => .ok none
  | parent :: parents => do
    if ← selector.applies registry parent then return some (parent, parents)
    else firstApplying registry selector parents

/-- `stateMatches(styleable, states, index)`, for an index that is not negative. -/
def stateMatchesFrom (registry : Registry) (s : CompoundSelector) :
    Nat → List Styleable → Option BitSet → Except JavaException Bool
  | 0, _, states => do
    let selector ← s.selector 0
    return selector.stateMatches states
  | index + 1, parents, states => do
    let selector ← s.selector (index + 1)
    if !selector.stateMatches states then return false
    else
      let next ← s.selector index
      match ← s.relationship index with
      | .child =>
        match parents with
        | [] => return false
        | parent :: parents =>
          if ← next.applies registry parent then
            stateMatchesFrom registry s index parents (some parent.pseudoClassStates)
          else return false
      | .descendant =>
        match ← firstApplying registry next parents with
        | some (parent, parents) =>
          stateMatchesFrom registry s index parents (some parent.pseudoClassStates)
        | none => return false

/-- `stateMatches(styleable, states)`. -/
def stateMatches (registry : Registry) (s : CompoundSelector) (parents : List Styleable)
    (states : Option BitSet) : Except JavaException Bool :=
  s.stateMatchesFrom registry (s.selectors.length - 1) parents states

end CompoundSelector

inductive Selector
  | simple (selector : SimpleSelector)
  | compound (selector : CompoundSelector)

end JavaFX
