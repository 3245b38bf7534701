/-
`GlyphLayout.breakRuns`: a text is cut into runs.

A run ends where a text span ends, where a bidi run ends, in front of a tab or a line terminator and
behind it.  One loop walks along the characters; whether a span or a bidi run ends is found out before
the second half of a surrogate pair is read, and the run is cut afterwards.

The tables of `ScriptMapper` and `Character.isIdeographic` are parameters, and so is what
`java.text.Bidi` finds.
-/
import JavaFX.Runtime
import Mathlib.Algebra.BigOperators.Group.List.Basic
import Mathlib.Algebra.GroupWithZero.Nat

namespace JavaFX.GlyphLayout

/-! ### Texts -/

def isHighSurrogate (ch : UInt16) : Bool := 0xD800 ≤ ch && ch ≤ 0xDBFF

def isLowSurrogate (ch : UInt16) : Bool := 0xDC00 ≤ ch && ch ≤ 0xDFFF

def toCodePoint (high low : UInt16) : Nat := (high.toNat - 0xD800) * 1024 + (low.toNat - 0xDC00) + 0x10000

def tab : UInt16 := 0x9

def lineFeed : UInt16 := 0xA

def carriageReturn : UInt16 := 0xD

def isDelimiter (ch : UInt16) : Bool := ch == tab || ch == lineFeed || ch == carriageReturn

structure PGFont where
  features : Nat
  resourceFeatures : Nat
deriving Repr, DecidableEq

/-- `(requestedFeatures & supportedFeatures) != 0`. -/
def PGFont.hasFeature (font : PGFont) : Bool := font.features &&& font.resourceFeatures != 0

/-- A span without a font is an embedded object. -/
structure TextSpan where
  text : List UInt16
  font : Option PGFont
deriving Repr, DecidableEq

structure BidiRun where
  length : Nat
  level : Nat
deriving Repr, DecidableEq

/-- The runs of a text of a length, as `java.text.Bidi` finds them: they cover the text, and none is empty. -/
structure Bidi (length : Nat) where
  runs : List BidiRun
  baseIsLeftToRight : Bool
  nonempty : ∀ r ∈ runs, 0 < r.length
  covers : (runs.map (·.length)).sum = length

def Bidi.getRunLimit {length : Nat} (bidi : Bidi length) (k : Nat) : Nat :=
  ((bidi.runs.take (k + 1)).map (·.length)).sum

/-! ### Runs -/

structure TextRun where
  start : Nat
  length : Nat
  level : Nat
  complex : Bool
  span : Option TextSpan
  isTab : Bool := false
  isLinebreak : Bool := false
deriving Repr, DecidableEq

/-- The flags that `breakRuns` reads and writes. -/
structure Flags where
  analysisValid : Bool := false
  hasTabs : Bool := false
  hasBidi : Bool := false
  hasComplex : Bool := false
  hasEmbedded : Bool := false
  hasCJK : Bool := false
  rtlBase : Bool := false
deriving Repr, DecidableEq

/-- The tables. -/
structure Scripts where
  getScript : Nat → Int
  isComplexCharCode : Nat → Bool
  isIdeographic : Nat → Bool

/-- `ScriptMapper.COMMON` and `ScriptMapper.INHERITED`. -/
def COMMON : Int := 0

def INHERITED : Int := 1

/-- What `breakRuns` reads, with the flags taken apart. -/
structure Input where
  scripts : Scripts
  chars : List UInt16
  /-- The spans of a rich text. -/
  spans : Option (List TextSpan)
  /-- The font of a plain text. -/
  font : Option PGFont
  bidi : Bidi chars.length
  flags : Flags

namespace Input

def checkComplex (p : Input) : Bool := !p.flags.analysisValid || p.flags.hasComplex

def checkBidi (p : Input) : Bool := !p.flags.analysisValid || p.flags.hasBidi

/-- `bidi`, which is `null` if it is known that there is nothing to find. -/
def usedBidi (p : Input) : Option (Bidi p.chars.length) :=
  if p.checkBidi ∧ 0 < p.chars.length then some p.bidi else none

end Input

/-- The variables of the loop. -/
structure Loop where
  flags : Flags
  complex : Bool := false
  feature : Bool := false
  scriptRun : Int := COMMON
  bidiLevel : Nat := 0
  bidiEnd : Nat
  bidiIndex : Nat := 0
  spanIndex : Nat := 0
  span : Option TextSpan := none
  spanEnd : Nat
  start : Nat := 0
  i : Nat := 0
  runs : List TextRun := []

namespace Loop

/-- `addTextRun` with the run from `start` to `i`: a run of an odd level is complex. -/
def addTextRun (complex : Bool) (s : Loop) : Loop :=
  { s with runs := s.runs ++ [⟨s.start, s.i - s.start, s.bidiLevel, complex || s.bidiLevel % 2 == 1, s.span, false, false⟩] }

/-- A run is added if there is one, and the next one begins here. -/
def cut (complex : Bool) (s : Loop) : Loop :=
  if s.start ≠ s.i then
    let s := s.addTextRun complex
    { s with
      flags := { s.flags with hasComplex := s.flags.hasComplex || s.complex }
      complex := false
      start := s.i }
  else s

/-- The font of a span. -/
def readFont (font : Option PGFont) (s : Loop) : Loop :=
  match font with
  | none => { s with flags := { s.flags with hasEmbedded := true } }
  | some font => { s with feature := font.hasFeature }

/-- `if ((bidiLevel & 1) != 0)`. -/
def readLevel (level : Nat) (s : Loop) : Loop :=
  { s with
    bidiLevel := level
    flags :=
      if level % 2 = 1 then { s.flags with hasBidi := true, hasComplex := true } else s.flags }

def nextSpan (p : Input) (s : Loop) : Except JavaException Loop :=
  match p.spans with
  | none => .error .nullPointer
  | some spans =>
    match spans[s.spanIndex + 1]? with
    | none => .error .indexOutOfBounds
    | some span =>
      .ok (readFont span.font
        { s with spanIndex := s.spanIndex + 1, span := some span, spanEnd := s.spanEnd + span.text.length })

def nextLevel (p : Input) (s : Loop) : Except JavaException Loop :=
  match p.usedBidi with
  | none => .error .nullPointer
  | some bidi =>
    match bidi.runs[s.bidiIndex + 1]? with
    | none => .error .illegalArgument
    | some run =>
      .ok (readLevel run.level { s with bidiIndex := s.bidiIndex + 1, bidiEnd := bidi.getRunLimit (s.bidiIndex + 1) })

/-- The next span and the next level, if they begin. -/
def moveOn (p : Input) (spanChanged levelChanged : Bool) (s : Loop) : Except JavaException Loop :=
  (if spanChanged then s.nextSpan p else .ok s).bind fun s => if levelChanged then s.nextLevel p else .ok s

/-- A tab or a line terminator. -/
def addDelimiterRun (p : Input) (ch : UInt16) (s : Loop) : Loop :=
  let limit := if ch = carriageReturn ∧ s.i + 1 < s.spanEnd ∧ p.chars[s.i + 1]? = some lineFeed then s.i + 2 else s.i + 1
  { s with
    flags := if ch = tab then { s.flags with hasTabs := true } else s.flags
    runs := s.runs ++ [⟨s.start, limit - s.start, s.bidiLevel, false, s.span, ch == tab, ch != tab⟩]
    i := limit
    start := limit }

def delimiterStep (p : Input) (ch : UInt16) (s : Loop) : Except JavaException Loop :=
  let s := s.cut s.complex
  (s.moveOn p (s.spanEnd ≤ s.i) (s.bidiEnd ≤ s.i)).map (addDelimiterRun p ch)

/-- The second half of a surrogate pair is read if it is in the same span. -/
def lookAhead (p : Input) (ch : UInt16) (s : Loop) : Option Nat :=
  if isHighSurrogate ch ∧ s.i + 1 < s.spanEnd then
    match p.chars[s.i + 1]? with
    | some low => if isLowSurrogate low then some (toCodePoint ch low) else none
    | none => none
  else none

/-- What the tables say of the next character, if they are asked. -/
def analyse (p : Input) (ch : UInt16) (s : Loop) : Loop × Option Int :=
  if p.checkComplex then
    let pair := s.lookAhead p ch
    let codePoint := pair.getD ch.toNat
    let script := p.scripts.getScript codePoint
    let scriptChanged := INHERITED < s.scriptRun && INHERITED < script && script != s.scriptRun
    ({ s with
        i := if pair.isSome then s.i + 1 else s.i
        flags := { s.flags with hasCJK := s.flags.hasCJK || p.scripts.isIdeographic codePoint }
        complex := s.complex || s.feature || p.scripts.isComplexCharCode codePoint },
      if scriptChanged then some script else none)
  else (s, none)

def textStep (p : Input) (ch : UInt16) (s : Loop) : Except JavaException Loop :=
  let oldComplex := s.complex
  let spanChanged : Bool := s.spanEnd ≤ s.i
  let levelChanged : Bool := s.bidiEnd ≤ s.i
  match s.analyse p ch with
  | (s, scriptChanged) =>
    let s := if spanChanged || levelChanged || scriptChanged.isSome then s.cut oldComplex else s
    (moveOn p spanChanged levelChanged { s with i := s.i + 1 }).map fun s =>
      { s with scriptRun := scriptChanged.getD s.scriptRun }

/-- `while (i < length)`. -/
def run (p : Input) : Nat → Loop → Except JavaException Loop
  | 0, s => .ok s
  | fuel + 1, s =>
    match p.chars[s.i]? with
    | none => .ok s
    | some ch => (if isDelimiter ch then s.delimiterStep p ch else s.textStep p ch).bind (run p fuel)

end Loop

/-- The variables before the loop. -/
def begin (p : Input) : Loop :=
  let s : Loop := { flags := p.flags, spanEnd := p.chars.length, bidiEnd := p.chars.length }
  let s := match p.spans with
    | some (span :: _) => { s.readFont span.font with span := some span, spanEnd := span.text.length }
    | some [] => s
    | none => { s with feature := (p.font.map PGFont.hasFeature).getD false }
  match p.usedBidi with
  | none => s
  | some bidi =>
    match bidi.runs with
    | [] => s
    | run :: _ => { s.readLevel run.level with bidiEnd := bidi.getRunLimit 0 }

/-- The last run, and an empty one if there is none or the text ends with a line terminator. -/
def finish (p : Input) (s : Loop) : Flags × List TextRun :=
  let last := s.runs.getLast?
  let s :=
    if s.start < p.chars.length then
      let s := { s with i := p.chars.length }.addTextRun s.complex
      { s with flags := { s.flags with hasComplex := s.flags.hasComplex || s.complex } }
    else if (last.map (·.isLinebreak)).getD true then
      { s with runs := s.runs ++ [⟨s.start, 0, 0, false, s.span, false, false⟩] }
    else s
  let rtlBase := s.flags.rtlBase || (p.usedBidi.map fun bidi => !bidi.baseIsLeftToRight).getD false
  ({ s.flags with rtlBase, analysisValid := true }, s.runs)

/-- The flags and the runs that are added to the layout. -/
def breakRuns (p : Input) : Except JavaException (Flags × List TextRun) :=
  ((begin p).run p p.chars.length).map (finish p)

end JavaFX.GlyphLayout
