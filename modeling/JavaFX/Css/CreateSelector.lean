/-
`javafx.css.Selector.createSelector`.

The text is scanned once for the places where a simple selector ends and the next one begins;
what lies between is taken apart at its colons and full stops.  A string is the list of its
characters here.  A `CompoundSelector` is made of the two lists as they are, whatever their
lengths.
-/
import JavaFX.Css.Selector
import Mathlib.Data.List.DropRight

namespace JavaFX

/-! ### Strings -/

/-- `s.split(regex)`, for a regular expression that is the character `sep`: empty strings at
the end are left out, unless there is nothing to split. -/
def splitAround (sep : Char) (s : List Char) : List (List Char) :=
  let pieces := s.splitOn sep
  if pieces.length ≤ 1 then pieces else pieces.rdropWhile (·.isEmpty)

/-- `s.trim()` -/
def trim (s : List Char) : List Char := (s.dropWhile (· ≤ ' ')).rdropWhile (· ≤ ' ')

/-- `s.substring(start, end)` -/
def substring (s : List Char) (start stop : Nat) : List Char := (s.drop start).take (stop - start)

namespace Selector

/-! ### The scan -/

/-- The local variables of the scan.  No combinator is `'\0'`. -/
structure Scan where
  parts : List (List Char) := []
  combinators : List Combinator := []
  start : Nat := 0
  stop : Int := -1
  combinator : Option Char := none

/-- The character `ch` at index `i`. -/
def scanChar (cssSelector : List Char) (scan : Scan) (i : Nat) (ch : Char) : Scan :=
  if ch = ' ' then
    if scan.combinator = none then { scan with combinator := some ch, stop := i } else scan
  else if ch = '>' then
    { scan with stop := if scan.combinator = none then i else scan.stop, combinator := some ch }
  else
    match scan.combinator with
    | some combinator =>
      { scan with
        parts := scan.parts ++ [substring cssSelector scan.start scan.stop.toNat]
        start := i
        combinators := scan.combinators ++ [if combinator = ' ' then .descendant else .child]
        combinator := none }
    | none => scan

/-- The loop over the characters, from index `i` on. -/
def scanFrom (cssSelector : List Char) : Nat → List Char → Scan → Scan
  | _, [], scan => scan
  | i, ch :: rest, scan => scanFrom cssSelector (i + 1) rest (scanChar cssSelector scan i ch)

/-- The parts and the combinators. -/
def scanParts (cssSelector : List Char) : List (List Char) × List Combinator :=
  let scan := scanFrom cssSelector 0 cssSelector {}
  (scan.parts ++ [cssSelector.drop scan.start], scan.combinators)

/-! ### A simple selector -/

/-- The loops over the pseudo-classes and the style classes: the first string is neither. -/
def classNames (parts : List (List Char)) : List (Option String) :=
  (parts.tail.filter fun part => part ≠ []).map fun part => some (String.ofList (trim part))

/-- The name and the id, of the string before the style classes. -/
def nameAndId (part : List Char) : Option String × Option String :=
  match part with
  | [] => (none, none)
  | ch :: rest =>
    if ch = '#' then (none, some (String.ofList (trim rest)))
    else (some (String.ofList (trim (ch :: rest))), none)

/-- One round of the loop over the parts. -/
def parsePart (styleClassRegistry pseudoClassRegistry : Registry) (part : List Char) :
    Except JavaException SimpleSelector := do
  let pseudoClassParts := splitAround ':' part
  let pseudoClasses := classNames pseudoClassParts
  let selector := trim (← getAt pseudoClassParts 0)
  let styleClassParts := splitAround '.' selector
  let styleClasses := classNames styleClassParts
  let (name, id) := nameAndId (← getAt styleClassParts 0)
  SimpleSelector.create styleClassRegistry pseudoClassRegistry name styleClasses pseudoClasses id

/-- What is returned. -/
inductive Created
  | simple (selector : SimpleSelector)
  | compound (selectors : List SimpleSelector) (combinators : List Combinator)

/-- `createSelector(cssSelector)` -/
def createSelector (styleClassRegistry pseudoClassRegistry : Registry) (cssSelector : Option (List Char)) :
    Except JavaException (Option Created) := do
  match cssSelector with
  | none => return none
  | some [] => return none
  | some cssSelector =>
    let (parts, combinators) := scanParts cssSelector
    let selectors ← (parts.filter fun part => part ≠ []).mapM (parsePart styleClassRegistry pseudoClassRegistry)
    match selectors with
    | [selector] => return some (.simple selector)
    | _ => return some (.compound selectors combinators)

end Selector

end JavaFX
