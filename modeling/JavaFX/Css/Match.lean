/-
`javafx.css.Match`: how specific a selector is.

A match counts the ids, the style classes and the pseudo-classes of its selector and packs
the three numbers into one `int`, the pseudo-classes in the lowest four bits and the style
classes in the next four.  Two matches are compared by the difference of these `int`s.  A
compound selector collects the pseudo-classes of its parts in one set.
-/
import JavaFX.Css.Selector

namespace JavaFX

structure Match where
  pseudoClasses : BitSet
  idCount : Nat
  styleClassCount : Nat
  specificity : BitVec 32

namespace Match

/-- `new Match(selector, pseudoClasses, idCount, styleClassCount)`. -/
def create (selector : Selector) (pseudoClasses : BitSet) (idCount styleClassCount : Nat) : Match :=
  let nPseudoClasses := match selector with
    | .simple simple => pseudoClasses.size + if simple.nodeOrientation ≠ .inherit then 1 else 0
    | .compound _ => pseudoClasses.size
  { pseudoClasses, idCount, styleClassCount
    specificity := BitVec.ofNat 32 idCount <<< 8 ||| BitVec.ofNat 32 styleClassCount <<< 4 |||
      BitVec.ofNat 32 nPseudoClasses }

/-- `compareTo(o)`. -/
def compareTo (m o : Match) : Int := (m.specificity - o.specificity).toInt

end Match

def SimpleSelector.createMatch (s : SimpleSelector) : Match :=
  .create (.simple s) s.pseudoClassState.set (if s.matchOnId then 1 else 0) s.styleClassSet.set.size

namespace CompoundSelector

/-- The loop of `createMatch`. -/
def countParts : List SimpleSelector → BitSet → Nat → Nat → BitSet × Nat × Nat
  | [], allPseudoClasses, idCount, styleClassCount => (allPseudoClasses, idCount, styleClassCount)
  | sel :: selectors, allPseudoClasses, idCount, styleClassCount =>
    let found := sel.createMatch
    countParts selectors (allPseudoClasses.addAll (some found.pseudoClasses)).set
      (idCount + found.idCount) (styleClassCount + found.styleClassCount)

def createMatch (s : CompoundSelector) : Match :=
  let (allPseudoClasses, idCount, styleClassCount) := countParts s.selectors {} 0 0
  .create (.compound s) allPseudoClasses idCount styleClassCount

end CompoundSelector

def Selector.createMatch : Selector → Match
  | .simple s => s.createMatch
  | .compound s => s.createMatch

end JavaFX
