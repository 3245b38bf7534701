/-
`com.sun.javafx.css.StyleMap` and `CascadingStyle`: the cascade.

A style map gets the selectors that match a node.  When it is first asked, it makes a style of
each declaration of their rules, sorts the styles by property and then by the cascade, and
files each run of styles of one property in a map.  A property that comes up again after
another one would leave the loop where it is, since assertions are off.  So the loop has
fuel here, and returns nothing when it runs out.

Of a declaration's rule only the origin of its stylesheet matters.  `Collections.sort` is a
stable merge sort that asks if the later of two elements is less.
-/
import JavaFX.Css.Match
import JavaFX.Lib.AssocList

namespace JavaFX

open AssocList

inductive StyleOrigin
  | userAgent
  | user
  | author
  | inline
deriving DecidableEq, Repr

/-- `StyleOrigin.ordinal()`, by which `compareTo` goes. -/
def StyleOrigin.ordinal : StyleOrigin → Nat
  | userAgent => 0
  | user => 1
  | author => 2
  | inline => 3

/-- A declaration, with the origin of the stylesheet of its rule if there is one. -/
structure Declaration where
  property : List CodeUnit
  important : Bool := false
  origin : Option StyleOrigin := none
deriving DecidableEq, Repr

/-- A selector, with the declarations of its rule. -/
structure RuleSelector where
  selector : Selector
  declarations : List Declaration

structure CascadingStyle where
  selector : Selector
  declaration : Declaration
  pseudoClasses : BitSet
  specificity : BitVec 32
  ordinal : Nat

namespace CascadingStyle

/-- `new CascadingStyle(decl, match, ordinal)`, with the match of `selector`. -/
def create (selector : Selector) (decl : Declaration) (ordinal : Nat) : CascadingStyle :=
  ⟨selector, decl, selector.createMatch.pseudoClasses, selector.createMatch.specificity, ordinal⟩

def getProperty (s : CascadingStyle) : List CodeUnit := s.declaration.property

def skinProp (s : CascadingStyle) : Bool := s.getProperty = units "-fx-skin"

/-- The comparison of two different origins. -/
def compareOrigins : Option StyleOrigin → Option StyleOrigin → Int
  | none, _ => -1
  | _, none => 1
  | some source, some otherSource => (otherSource.ordinal : Int) - source.ordinal

/-- `compareTo(other)`. -/
def compareTo (s other : CascadingStyle) : Int :=
  let c :=
    if s.skinProp ∧ !other.skinProp then 1
    else if s.declaration.important ≠ other.declaration.important then
      if s.declaration.important then -1 else 1
    else if s.declaration.origin ≠ other.declaration.origin then
      compareOrigins s.declaration.origin other.declaration.origin
    else (other.specificity - s.specificity).toInt
  if c = 0 then (other.ordinal : Int) - s.ordinal else c

end CascadingStyle

/-- The map from properties to styles. -/
abbrev CascadingStyles := List (List CodeUnit × List CascadingStyle)

/-- A style map; the selectors are gone when the styles are there. -/
structure StyleMap where
  selectors : Option (List RuleSelector)
  cascadingStyles : Option CascadingStyles := none

namespace StyleMap

/-- `cascadingStyleComparator` -/
def cascadingStyleComparator (o1 o2 : CascadingStyle) : Int :=
  let c := compareStrings o1.getProperty o2.getProperty
  if c ≠ 0 then c else o1.compareTo o2

/-- The two loops that make the styles. -/
def createStyles : List RuleSelector → Nat → List CascadingStyle
  | [], _ => []
  | s :: selectors, ordinal =>
    s.declarations.mapIdx (fun d decl => CascadingStyle.create s.selector decl (ordinal + d)) ++
      createStyles selectors (ordinal + s.declarations.length)

/-- `Collections.sort(cascadingStyleList, cascadingStyleComparator)`. -/
def sort (styles : List CascadingStyle) : List CascadingStyle :=
  styles.mergeSort fun s s' => decide (0 ≤ cascadingStyleComparator s' s)

/-- The loop that files the styles from `fromIndex` on, which are `styles`. -/
def group (fuel : Nat) (styles : List CascadingStyle) (map : CascadingStyles) : Option CascadingStyles :=
  match fuel, styles with
  | 0, _ => none
  | _ + 1, [] => some map
  | fuel + 1, style :: styles =>
    let property := style.getProperty
    match get property map with
    | none =>
      let same := styles.takeWhile (·.getProperty = property)
      group fuel (styles.dropWhile (·.getProperty = property)) (map ++ [(property, style :: same)])
    | some _ => group fuel (style :: styles) map

def getCascadingStyles (fuel : Nat) (m : StyleMap) : Option (CascadingStyles × StyleMap) :=
  match m.cascadingStyles with
  | some styles => some (styles, m)
  | none =>
    match m.selectors with
    | none => some ([], { m with cascadingStyles := some [] })
    | some [] => some ([], { m with cascadingStyles := some [] })
    | some selectors =>
      let cascadingStyleList := createStyles selectors 0
      if cascadingStyleList.isEmpty then some ([], { m with cascadingStyles := some [] })
      else (group fuel (sort cascadingStyleList) []).map fun styles =>
        (styles, { selectors := none, cascadingStyles := some styles })

end StyleMap

end JavaFX
