/-
`javafx.css.CssLexer`.

A token is found by a machine that stays in a state as long as one of the next states accepts
the character, or else by a scanner of its own for strings, comments, `!important` and
`url(...)`.  Characters are UTF-16 code units, and the end of the input, -1, is `none`.
The lexer always holds the next character in `ch`.  The reader throws no `IOException`, and
gives -1 again and again at the end of the input.
-/
import JavaFX.Runtime

namespace JavaFX

/-- `Token.getType()`. -/
inductive TokenType
  | eof | invalid | skip
  | string | ident | function | number
  | cm | ems | exs | inches | mm | pc | pt | px | percentage | deg | grad | rad | turn | seconds | ms
  | greater | lbrace | rbrace | semi | colon | solidus | star | lparen | rparen | comma | hash | dot
  | importantSym | ws | nl | url | atKeyword
deriving DecidableEq, Repr

structure Token where
  type : TokenType
  text : List CodeUnit
  line : Int := -1
  offset : Int := -1
deriving DecidableEq, Repr

namespace Token

def eofToken : Token := { type := .eof, text := units "EOF" }

def skipToken : Token := { type := .skip, text := units "SKIP" }

/-- Lines and offsets do not matter. -/
def equals (t other : Token) : Bool := t.type = other.type ∧ t.text = other.text

end Token

/-! ### Recognizers -/

/-- A `Recognizer`; no one recognizes the end of the input. -/
abbrev Recognizer := CodeUnit → Bool

namespace Recognizer

/-- A letter, small or capital. -/
def letter (l : Char) : Recognizer := fun c => c = unit l ∨ c = unit l.toUpper

def char (l : Char) : Recognizer := fun c => c = unit l

def between (lo hi : Char) : Recognizer := fun c => unit lo ≤ c ∧ c ≤ unit hi

def alpha : Recognizer := fun c => between 'a' 'z' c ∨ between 'A' 'Z' c

def digit : Recognizer := between '0' '9'

def wsChars : Recognizer := fun c =>
  c = unit ' ' ∨ c = unit '\t' ∨ c = unit '\r' ∨ c = unit '\n' ∨ c = unit '\x0c'

def nlChars : Recognizer := fun c => c = unit '\r' ∨ c = unit '\n'

def nmChar : Recognizer := fun c => char '_' c ∨ alpha c ∨ digit c ∨ char '-' c

end Recognizer

open Recognizer

/-! ### States -/

inductive LexerState
  | init | hash | minus | plus | dot | nmStart | nmChar | hashNameChar | lparen
  | leadingDigits | decimalMark | trailingDigits | units
deriving DecidableEq, Repr

namespace LexerState

/-- `stateMap` -/
def reachableStates : LexerState → List LexerState
  | init => [hash, minus, nmStart, plus, minus, leadingDigits, dot]
  | minus => [nmStart, leadingDigits, decimalMark]
  | hash => [hashNameChar]
  | hashNameChar => [hashNameChar]
  | nmStart => [nmChar]
  | nmChar => [nmChar, lparen]
  | plus => [leadingDigits, decimalMark]
  | leadingDigits => [leadingDigits, decimalMark, units]
  | dot => [trailingDigits]
  | decimalMark => [trailingDigits]
  | trailingDigits => [trailingDigits, units]
  | units => [units]
  | lparen => []

/-- The recognizer of a state other than `units`. -/
def recognizer : LexerState → Recognizer
  | init => fun _ => true
  | hash => char '#'
  | minus => char '-'
  | plus => char '+'
  | dot => char '.'
  | nmStart => fun c => char '_' c ∨ alpha c
  | nmChar => Recognizer.nmChar
  | hashNameChar => Recognizer.nmChar
  | lparen => char '('
  | leadingDigits => digit
  | decimalMark => char '.'
  | trailingDigits => digit
  | units => fun c => alpha c ∨ char '%' c

end LexerState

/-- The mask of the units that are still possible, and how many characters they have been
tried on, less one. -/
structure UnitsState where
  unitsMask : BitVec 15 := 0x7FFF#15
  index : Int := -1
deriving DecidableEq

namespace UnitsState

def units : List (List Recognizer) :=
  [[letter 'c', letter 'm'], [letter 'd', letter 'e', letter 'g'], [letter 'e', letter 'm'],
   [letter 'e', letter 'x'], [letter 'g', letter 'r', letter 'a', letter 'd'],
   [letter 'i', letter 'n'], [letter 'm', letter 'm'], [letter 'm', letter 's'],
   [letter 'p', letter 'c'], [letter 'p', letter 't'], [letter 'p', letter 'x'],
   [letter 'r', letter 'a', letter 'd'], [letter 's'],
   [letter 't', letter 'u', letter 'r', letter 'n'], [char '%']]

/-- The type of a single unit that is left. -/
def getType (s : UnitsState) : TokenType :=
  match s.unitsMask.toNat with
  | 0x1 => .cm
  | 0x2 => .deg
  | 0x4 => .ems
  | 0x8 => .exs
  | 0x10 => .grad
  | 0x20 => .inches
  | 0x40 => .mm
  | 0x80 => .ms
  | 0x100 => .pc
  | 0x200 => .pt
  | 0x400 => .px
  | 0x800 => .rad
  | 0x1000 => .seconds
  | 0x2000 => .turn
  | 0x4000 => .percentage
  | _ => .invalid

/-- A unit whose next character is not `c` is no longer possible. -/
def narrow (index : Int) (c : CodeUnit) (mask : BitVec 15) (n : Nat) : BitVec 15 :=
  match (units.getD n [])[index.toNat]? with
  | some recognize => if recognize c then mask else mask &&& ~~~(1#15 <<< n)
  | none => mask &&& ~~~(1#15 <<< n)

/-- `accepts(c)`, for a letter or a percent sign. -/
def accept (s : UnitsState) (c : CodeUnit) : UnitsState :=
  if s.unitsMask = 0 then s
  else
    let index := s.index + 1
    { index, unitsMask := (List.range units.length).foldl (narrow index c) s.unitsMask }

end UnitsState

/-! ### The lexer -/

structure CssLexer where
  /-- What the reader has not given yet. -/
  reader : List CodeUnit
  ch : Option CodeUnit := none
  token : Option Token := none
  currentState : LexerState := .init
  text : List CodeUnit := []
  unitsState : UnitsState := {}
  pos : Int := 0
  offset : Int := 0
  line : Int := 1
  lastc : Option CodeUnit := none

namespace CssLexer

/-- `ch = readChar()`. -/
def readChar (s : CssLexer) : CssLexer :=
  let c := s.reader.head?
  let newLine := s.lastc = some (unit '\n') ∨ (s.lastc = some (unit '\r') ∧ c ≠ some (unit '\n'))
  { s with
    reader := s.reader.tail
    pos := if newLine then 1 else s.pos + 1
    offset := if newLine then 0 else s.offset
    line := if newLine then s.line + 1 else s.line
    lastc := c
    ch := c }

/-- `setReader(reader)` of a new lexer. -/
def setReader (reader : List CodeUnit) : CssLexer := { reader : CssLexer }.readChar

/-- `text.append((char)ch)`; -1 becomes the last code unit. -/
def append (s : CssLexer) : CssLexer := { s with text := s.text ++ [s.ch.getD 0xFFFF] }

/-- The characters that have not been consumed. -/
def left (s : CssLexer) : Nat := s.reader.length + s.ch.toList.length

/-- At the end of the input there is nothing left to read. -/
def Drained (s : CssLexer) : Prop := s.ch = none → s.reader = []

/-- The lexer has gone from `s` to `s'` by reading some characters. -/
structure Reads (s s' : CssLexer) : Prop where
  left : s'.left ≤ s.left
  drained : s.Drained → s'.Drained
  token : s'.token = s.token
  currentState : s'.currentState = s.currentState

namespace Reads

variable {s s' s'' : CssLexer}

theorem refl (s : CssLexer) : Reads s s := ⟨Nat.le_refl _, id, rfl, rfl⟩

theorem trans (h : Reads s s') (h' : Reads s' s'') : Reads s s'' :=
  ⟨Nat.le_trans h'.left h.left, fun hs => h'.drained (h.drained hs), h'.token.trans h.token,
    h'.currentState.trans h.currentState⟩

theorem readChar (s : CssLexer) : Reads s s.readChar := by
  refine ⟨?_, ?_, rfl, rfl⟩
  · simp only [CssLexer.left, CssLexer.readChar]
    cases s.reader <;> simp
  · intro _ hch
    simp only [CssLexer.readChar, List.head?_eq_none_iff] at hch
    simp [CssLexer.readChar, hch]

theorem append (s : CssLexer) : Reads s s.append := ⟨Nat.le_refl _, id, rfl, rfl⟩

theorem setOffset (s : CssLexer) (offset : Int) : Reads s { s with offset := offset } :=
  ⟨Nat.le_refl _, id, rfl, rfl⟩

theorem clear (s : CssLexer) : Reads s { s with text := [] } := ⟨Nat.le_refl _, id, rfl, rfl⟩

end Reads

variable {c : CodeUnit}

theorem left_readChar_lt {s : CssLexer} (h : s.ch = some c) : s.readChar.left < s.left := by
  simp only [left, readChar, h]
  cases s.reader <;> simp

/-- `while (recognize(ch)) ch = readChar()`. -/
def skipWhile (recognize : Recognizer) (s : CssLexer) : CssLexer :=
  match h : s.ch with
  | some c => if recognize c then skipWhile recognize s.readChar else s
  | none => s
termination_by s.left
decreasing_by exact left_readChar_lt h

theorem reads_skipWhile (recognize : Recognizer) (s : CssLexer) : Reads s (s.skipWhile recognize) := by
  fun_induction skipWhile recognize s with
  | case1 s c h _ ih => exact (Reads.readChar s).trans ih
  | case2 s => exact .refl s
  | case3 s => exact .refl s

/-! #### Comments -/

def skipComment (s : CssLexer) : CssLexer :=
  match h : s.ch with
  | none => s
  | some c =>
    if c = unit '*' then
      if s.readChar.ch = some (unit '/') then { s.readChar with offset := s.readChar.pos }.readChar
      else skipComment s.readChar
    else skipComment s.readChar
termination_by s.left
decreasing_by
  · exact left_readChar_lt h
  · exact left_readChar_lt h

/-- The loop of `skipEOL`, where the local `lastc` never changes. -/
def skipToEOL (lastc : Option CodeUnit) (s : CssLexer) : CssLexer :=
  match h : s.ch with
  | none => s
  | some _ =>
    if s.readChar.ch = some (unit '\n') ∨ (lastc = some (unit '\r') ∧ s.readChar.ch ≠ some (unit '\n')) then s.readChar
    else skipToEOL lastc s.readChar
termination_by s.left
decreasing_by exact left_readChar_lt h

def skipEOL (s : CssLexer) : CssLexer := s.skipToEOL s.ch

theorem reads_skipComment (s : CssLexer) : Reads s s.skipComment := by
  fun_induction skipComment s with
  | case1 s => exact .refl s
  | case2 s => exact ((Reads.readChar s).trans (.setOffset _ _)).trans (.readChar _)
  | case3 s _ _ ih => exact (Reads.readChar s).trans ih
  | case4 s _ _ _ ih => exact (Reads.readChar s).trans ih

theorem reads_skipToEOL (lastc : Option CodeUnit) (s : CssLexer) : Reads s (s.skipToEOL lastc) := by
  fun_induction skipToEOL lastc s with
  | case1 s => exact .refl s
  | case2 s => exact .readChar s
  | case3 s _ _ _ ih => exact (Reads.readChar s).trans ih

theorem reads_skipEOL (s : CssLexer) : Reads s s.skipEOL := reads_skipToEOL _ s

/-! #### `!important` -/

/-- The loop that compares the characters with a keyword: whether all are accepted. -/
def recognizeAll : List Recognizer → CssLexer → Bool × CssLexer
  | [], s => (true, s)
  | recognize :: recognizers, s =>
    if s.ch.any recognize then recognizeAll recognizers s.append.readChar else (false, s.append.readChar)

theorem reads_recognizeAll (recognizers : List Recognizer) (s : CssLexer) :
    Reads s (recognizeAll recognizers s).2 := by
  induction recognizers generalizing s with
  | nil => exact .refl s
  | cons recognize recognizers ih =>
    have hnext := (Reads.append s).trans (.readChar s.append)
    unfold recognizeAll
    split
    · exact hnext.trans (ih _)
    · exact hnext

def importantSym : List Recognizer := "important".toList.map letter

/-- The end of `scanImportant`, when there is neither a comment nor white space. -/
def scanKeyword (s : CssLexer) : Token × CssLexer :=
  let (accepted, s) := recognizeAll importantSym s
  if accepted then
    (⟨.importantSym, units "!important", s.line, s.offset⟩, { s with offset := s.pos - 1 })
  else
    let s := s.skipWhile fun c => c ≠ unit ';' ∧ c ≠ unit '}'
    if s.ch ≠ none then (⟨.skip, s.text, s.line, s.offset⟩, { s with offset := s.pos - 1 })
    else (.eofToken, s)

/-- The loop of `scanImportant`. -/
def scanAfterBang (s : CssLexer) : Token × CssLexer :=
  match h : s.ch with
  | none => (.eofToken, { s with token := some .eofToken })
  | some c =>
    if c = unit '/' then
      if s.readChar.ch = some (unit '*') then scanAfterBang s.readChar.skipComment
      else if s.readChar.ch = some (unit '/') then scanAfterBang s.readChar.skipEOL
      else
        let s := s.readChar
        let text := s.text ++ [unit '/', s.ch.getD 0xFFFF]
        (⟨.invalid, text, s.line, s.offset⟩, { s with text := text, offset := s.pos })
    else if wsChars c then scanAfterBang s.readChar
    else s.scanKeyword
termination_by s.left
decreasing_by
  · exact Nat.lt_of_le_of_lt (reads_skipComment _).left (left_readChar_lt h)
  · exact Nat.lt_of_le_of_lt (reads_skipEOL _).left (left_readChar_lt h)
  · exact left_readChar_lt h

def scanImportant (s : CssLexer) : Token × CssLexer := s.append.readChar.scanAfterBang

/-! #### `url(...)` -/

/-- The character after a backslash. -/
def consumeEscape (s : CssLexer) : CssLexer :=
  match s.ch with
  | none => s
  | some c => if nlChars c then s.skipWhile nlChars else s.append.readChar

theorem reads_consumeEscape (s : CssLexer) : Reads s s.consumeEscape := by
  unfold consumeEscape
  split
  · exact .refl s
  · split
    · exact reads_skipWhile _ s
    · exact (Reads.append s).trans (.readChar _)

/-- The loop over a string. -/
def consumeQuoted (endQuote : CodeUnit) (s : CssLexer) : CssLexer :=
  match h : s.ch with
  | none => s
  | some c =>
    if c = endQuote ∨ nlChars c then s
    else if c = unit '\\' then consumeQuoted endQuote s.readChar.consumeEscape
    else consumeQuoted endQuote s.append.readChar
termination_by s.left
decreasing_by
  · exact Nat.lt_of_le_of_lt (reads_consumeEscape _).left (left_readChar_lt h)
  · exact left_readChar_lt (s := s.append) h

/-- The loop over a url without quotes; `none` if the url is bad. -/
def consumeUnquoted (s : CssLexer) : Option TokenType × CssLexer :=
  match h : (s.skipWhile wsChars).ch with
  | none => (some .url, s.skipWhile wsChars)
  | some c =>
    if c = unit ')' then (some .url, (s.skipWhile wsChars).readChar)
    else if c = unit '\\' then consumeUnquoted (s.skipWhile wsChars).readChar.consumeEscape
    else if c = unit '\'' ∨ c = unit '"' ∨ c = unit '(' then (none, s.skipWhile wsChars)
    else consumeUnquoted (s.skipWhile wsChars).append.readChar
termination_by s.left
decreasing_by
  · exact Nat.lt_of_le_of_lt (reads_consumeEscape _).left
      (Nat.lt_of_lt_of_le (left_readChar_lt h) (reads_skipWhile _ s).left)
  · exact Nat.lt_of_lt_of_le (left_readChar_lt (s := (s.skipWhile wsChars).append) h) (reads_skipWhile _ s).left

/-- The loop over the rest of a bad url.  What it takes for the last character is the current
one, so no right parenthesis is escaped. -/
def consumeBadUrl (s : CssLexer) : TokenType × CssLexer :=
  let s := s.skipWhile (· ≠ unit ')')
  if s.ch = none then (.eof, s) else (.invalid, s.readChar)

/-- What follows the string in a url; `none` if the url is bad. -/
def closeUrl (s : CssLexer) : Option TokenType × CssLexer :=
  let s := s.skipWhile wsChars
  if s.ch = some (unit ')') then (some .url, s.readChar)
  else if s.ch = none then (some .url, s)
  else (none, s)

/-- `consumeUrl`, up to the loop over the rest of a bad url. -/
def consumeUrlBody (c : CodeUnit) (s : CssLexer) : Option TokenType × CssLexer :=
  if c = unit '\'' ∨ c = unit '"' then
    let s := s.readChar.consumeQuoted c
    if s.ch = some c then s.readChar.closeUrl else (none, s)
  else s.append.readChar.consumeUnquoted

def consumeUrl (s : CssLexer) : TokenType × CssLexer :=
  let s := { s with text := [] }.skipWhile wsChars
  match s.ch with
  | none => (.eof, s)
  | some c =>
    match s.consumeUrlBody c with
    | (some type, s) => (type, s)
    | (none, s) => s.consumeBadUrl

/-! #### Tokens -/

/-- `currentState.getType()`. -/
def getType (s : CssLexer) : TokenType × CssLexer :=
  match s.currentState with
  | .dot => (.dot, s)
  | .nmStart => (.ident, s)
  | .nmChar => (.ident, s)
  | .hashNameChar => (.hash, s)
  | .lparen => if (units "url(").isPrefixOf s.text then s.consumeUrl else (.function, s)
  | .leadingDigits => (.number, s)
  | .trailingDigits => (.number, s)
  | .units => (s.unitsState.getType, { s with unitsState := {} })
  | .init => (.invalid, s)
  | .hash => (.invalid, s)
  | .minus => (.invalid, s)
  | .plus => (.invalid, s)
  | .decimalMark => (.invalid, s)

/-- The next character and the first reachable state that accepts it. -/
def nextState (s : CssLexer) : Option (CodeUnit × LexerState) :=
  s.ch.bind fun c => (s.currentState.reachableStates.find? (·.recognizer c)).map fun state => (c, state)

/-- A state is entered.  It is the last one that is asked, so no other one than it changes. -/
def enter (c : CodeUnit) (state : LexerState) (s : CssLexer) : CssLexer :=
  { s with
    currentState := state
    unitsState := if state = .units then s.unitsState.accept c else s.unitsState }

/-- A token whose last character is followed by `ch` already. -/
def endToken (type : TokenType) (s : CssLexer) : Token × CssLexer :=
  (⟨type, s.text, s.line, s.offset⟩, { s with offset := s.pos - 1 })

/-- The loop over a string. -/
def scanString (endq : CodeUnit) (s : CssLexer) : CssLexer :=
  match h : s.readChar.ch with
  | none => s.readChar
  | some c => if c = endq then s.readChar.append else scanString endq s.readChar.append
termination_by s.reader.length
decreasing_by
  simp only [readChar, List.head?_eq_some_iff] at h
  obtain ⟨rest, hreader⟩ := h
  simp [append, readChar, hreader]

/-- The tokens of one character. -/
def singles : List (Char × TokenType) :=
  [('>', .greater), ('{', .lbrace), ('}', .rbrace), (';', .semi), (':', .colon), ('*', .star),
   ('(', .lparen), (')', .rparen), (',', .comma), ('.', .dot), (' ', .ws), ('\t', .ws),
   ('\x0c', .ws), ('@', .atKeyword)]

/-- The type of a token of one character. -/
def singleType (c : CodeUnit) : TokenType :=
  ((singles.find? fun entry => unit entry.1 = c).map (·.2)).getD .invalid

/-- The rest of the `switch` in `getToken`: what begins with `c`, and is neither a name, nor a
number, nor a comment. -/
def scanSpecial (c : CodeUnit) (s : CssLexer) : Token × CssLexer :=
  if c = unit '"' ∨ c = unit '\'' then
    let s := s.append.scanString c
    let type := if s.ch ≠ none then .string else .invalid
    let tok : Token := ⟨type, s.text, s.line, s.offset⟩
    let s := { s with offset := s.pos }
    (tok, if s.ch ≠ none then s.readChar else s)
  else if c = unit '\r' then
    let tok : Token := ⟨.nl, units "\\r", s.line, s.offset⟩
    let s := s.readChar
    if s.ch = some (unit '\n') then (⟨.nl, units "\\r\\n", s.line, s.offset⟩, s.readChar)
    else (tok, { s with token := if s.ch = none then some .eofToken else none })
  else if c = unit '\n' then (⟨.nl, units "\\n", s.line, s.offset⟩, s.readChar)
  else if c = unit '!' then s.scanImportant
  else (⟨singleType c, [c], s.line, s.offset⟩, { s with offset := s.pos }.readChar)

/-- The end of the input. -/
def endOfInput (s : CssLexer) : Token × CssLexer := (.eofToken, { s with token := some .eofToken })

theorem ch_of_nextState {s : CssLexer} {state : LexerState} (h : s.nextState = some (c, state)) : s.ch = some c := by
  obtain ⟨c', hch, hfind⟩ := Option.bind_eq_some_iff.mp h
  obtain ⟨state', -, heq⟩ := Option.map_eq_some_iff.mp hfind
  rw [hch, (Prod.mk.inj heq).1]

def getToken (s : CssLexer) : Token × CssLexer :=
  match hnext : s.nextState with
  | some (c, state) => getToken (s.enter c state).append.readChar
  | none =>
    if s.getType.1 ≠ .invalid ∨ s.currentState ≠ .init then s.getType.2.endToken s.getType.1
    else
      match hch : s.ch with
      | none => s.endOfInput
      | some c =>
        if c = unit '/' then
          if s.readChar.ch = some (unit '*') then
            if s.readChar.skipComment.ch ≠ none then getToken s.readChar.skipComment
            else s.readChar.skipComment.endOfInput
          else if s.readChar.ch = some (unit '/') then
            if s.readChar.skipEOL.ch ≠ none then getToken s.readChar.skipEOL
            else s.readChar.skipEOL.endOfInput
          else
            let s := s.readChar
            (⟨.solidus, units "/", s.line, s.offset⟩, { s with offset := s.pos })
        else s.scanSpecial c
termination_by s.left
decreasing_by
  · exact left_readChar_lt (s := (s.enter c state).append) (c := c) (ch_of_nextState (s := s) hnext)
  · exact Nat.lt_of_le_of_lt (reads_skipComment _).left (left_readChar_lt hch)
  · exact Nat.lt_of_le_of_lt (reads_skipEOL _).left (left_readChar_lt hch)

/-! #### What the scanners do -/

/-- A call that began in `s` has returned a token: the characters are read in order, the end of
the input is not announced before it is there, and no other token than that is kept. -/
structure Returns (s : CssLexer) (r : Token × CssLexer) : Prop where
  left : r.2.left ≤ s.left
  drained : s.Drained → r.2.Drained
  eof : r.1.type = .eof → r.2.ch = none
  skip : r.1.type = .skip → r.2.token = s.token
  token : r.2.token = s.token ∨ r.2.token = none ∨ r.2.token = some .eofToken ∧ r.2.ch = none

theorem Reads.returns {s s' : CssLexer} (h : Reads s s') {tok : Token} (heof : tok.type = .eof → s'.ch = none) :
    Returns s (tok, s') :=
  ⟨h.left, h.drained, heof, fun _ => h.token, .inl h.token⟩

theorem Returns.of_reads {s s' : CssLexer} {r : Token × CssLexer} (h : Reads s s')
    (hr : Returns s' r) : Returns s r :=
  ⟨Nat.le_trans hr.left h.left, fun hs => hr.drained (h.drained hs), hr.eof, h.token ▸ hr.skip, h.token ▸ hr.token⟩

theorem returns_endOfInput {s : CssLexer} (h : s.ch = none) : Returns s s.endOfInput :=
  ⟨Nat.le_refl _, id, fun _ => h, by simp [endOfInput, Token.eofToken], .inr (.inr ⟨rfl, h⟩)⟩

theorem returns_scanKeyword (s : CssLexer) : Returns s s.scanKeyword := by
  have hreads := reads_recognizeAll importantSym s
  unfold scanKeyword
  simp only
  split
  · exact (hreads.trans (.setOffset _ _)).returns (by simp)
  · have hskip := hreads.trans (reads_skipWhile (fun c => c ≠ unit ';' ∧ c ≠ unit '}') _)
    split
    · exact (hskip.trans (.setOffset _ _)).returns (by simp)
    · next hend => exact hskip.returns (fun _ => not_not.mp hend)

theorem returns_scanAfterBang (s : CssLexer) : Returns s s.scanAfterBang := by
  fun_induction scanAfterBang s with
  | case1 s h => exact returns_endOfInput h
  | case2 s _ _ ih => exact .of_reads ((Reads.readChar s).trans (reads_skipComment _)) ih
  | case3 s _ _ _ ih => exact .of_reads ((Reads.readChar s).trans (reads_skipEOL _)) ih
  | case4 s =>
    exact .of_reads (Reads.readChar s) ⟨Nat.le_refl _, id, by simp, by simp, .inl rfl⟩
  | case5 s _ _ _ _ ih => exact .of_reads (Reads.readChar s) ih
  | case6 s => exact returns_scanKeyword s

theorem reads_consumeQuoted (endQuote : CodeUnit) (s : CssLexer) : Reads s (s.consumeQuoted endQuote) := by
  fun_induction consumeQuoted endQuote s with
  | case1 s => exact .refl s
  | case2 s => exact .refl s
  | case3 s _ _ ih => exact ((Reads.readChar s).trans (reads_consumeEscape _)).trans ih
  | case4 s _ _ _ _ ih => exact ((Reads.append s).trans (.readChar _)).trans ih

/-- What is found of a url: nothing, or a url. -/
def FindsUrl (s : CssLexer) (r : Option TokenType × CssLexer) : Prop :=
  Reads s r.2 ∧ (r.1 = none ∨ r.1 = some .url)

theorem findsUrl_consumeUnquoted (s : CssLexer) : FindsUrl s s.consumeUnquoted := by
  fun_induction consumeUnquoted s with
  | case1 s => exact ⟨reads_skipWhile _ s, .inr rfl⟩
  | case2 s => exact ⟨(reads_skipWhile _ s).trans (.readChar _), .inr rfl⟩
  | case3 s _ _ ih =>
    exact ⟨(((reads_skipWhile _ s).trans (.readChar _)).trans (reads_consumeEscape _)).trans ih.1, ih.2⟩
  | case4 s => exact ⟨reads_skipWhile _ s, .inl rfl⟩
  | case5 s _ _ _ _ _ ih =>
    exact ⟨(((reads_skipWhile _ s).trans (.append _)).trans (.readChar _)).trans ih.1, ih.2⟩

theorem findsUrl_closeUrl (s : CssLexer) : FindsUrl s s.closeUrl := by
  have hskip := reads_skipWhile wsChars s
  unfold closeUrl
  simp only
  split
  · exact ⟨hskip.trans (.readChar _), .inr rfl⟩
  · split
    · exact ⟨hskip, .inr rfl⟩
    · exact ⟨hskip, .inl rfl⟩

theorem findsUrl_consumeUrlBody (c : CodeUnit) (s : CssLexer) : FindsUrl s (s.consumeUrlBody c) := by
  unfold consumeUrlBody
  simp only
  split
  · have hquoted := (Reads.readChar s).trans (reads_consumeQuoted c s.readChar)
    split
    · have hclose := findsUrl_closeUrl (s.readChar.consumeQuoted c).readChar
      exact ⟨(hquoted.trans (.readChar _)).trans hclose.1, hclose.2⟩
    · exact ⟨hquoted, .inl rfl⟩
  · have hunquoted := findsUrl_consumeUnquoted s.append.readChar
    exact ⟨((Reads.append s).trans (.readChar _)).trans hunquoted.1, hunquoted.2⟩

/-- What is found of a token is not skipped, and is the end of the input only at the end. -/
structure Finds (s : CssLexer) (r : TokenType × CssLexer) : Prop where
  reads : Reads s r.2
  not_skip : r.1 ≠ .skip
  eof : r.1 = .eof → r.2.ch = none

theorem finds_consumeBadUrl (s : CssLexer) : Finds s s.consumeBadUrl := by
  have hskip := reads_skipWhile (· ≠ unit ')') s
  unfold consumeBadUrl
  simp only
  split
  · next hend => exact ⟨hskip, by simp, fun _ => hend⟩
  · exact ⟨hskip.trans (.readChar _), by simp, by simp⟩

theorem finds_consumeUrl (s : CssLexer) : Finds s s.consumeUrl := by
  have hskip := (Reads.clear s).trans (reads_skipWhile wsChars { s with text := [] })
  unfold consumeUrl
  simp only
  split
  · next hend => exact ⟨hskip, by simp, fun _ => hend⟩
  · next c _ =>
    have hbody := findsUrl_consumeUrlBody c ({ s with text := [] }.skipWhile wsChars)
    split
    · next type s' hfound =>
      rw [hfound] at hbody
      obtain rfl : type = .url := Option.some.inj (hbody.2.resolve_left (by simp))
      exact ⟨hskip.trans hbody.1, by simp, by simp⟩
    · next s' hbad =>
      rw [hbad] at hbody
      have hrest := finds_consumeBadUrl s'
      exact ⟨(hskip.trans hbody.1).trans hrest.reads, hrest.not_skip, hrest.eof⟩

theorem finds_getType (s : CssLexer) : Finds s s.getType := by
  unfold getType
  split
  case h_5 =>
    split
    · exact finds_consumeUrl s
    · exact ⟨.refl s, by simp, by simp⟩
  case h_8 =>
    have htype : s.unitsState.getType ≠ .skip ∧ s.unitsState.getType ≠ .eof := by
      unfold UnitsState.getType
      split <;> simp
    exact ⟨⟨Nat.le_refl _, id, rfl, rfl⟩, htype.1, fun heof => absurd heof htype.2⟩
  all_goals exact ⟨.refl s, by simp, by simp⟩

theorem reads_scanString (endq : CodeUnit) (s : CssLexer) : Reads s (s.scanString endq) := by
  fun_induction scanString endq s with
  | case1 s => exact .readChar s
  | case2 s => exact (Reads.readChar s).trans (.append _)
  | case3 s _ _ _ ih => exact ((Reads.readChar s).trans (.append _)).trans ih

theorem singleType_ne_eof (c : CodeUnit) : singleType c ≠ .eof := by
  unfold singleType
  cases hfind : singles.find? fun entry => unit entry.1 = c with
  | none => simp
  | some entry =>
    have hall : ∀ entry ∈ singles, entry.2 ≠ .eof := by decide
    exact hall entry (List.mem_of_find?_eq_some hfind)

theorem left_scanString_lt {s : CssLexer} (h : s.ch = some c) (endq : CodeUnit) :
    (s.scanString endq).left < s.left := by
  have hlt := left_readChar_lt h
  unfold scanString
  split
  · exact hlt
  · split
    · exact hlt
    · exact Nat.lt_of_le_of_lt (reads_scanString endq s.readChar.append).left hlt

/-- A character that begins a token is consumed. -/
theorem returns_scanSpecial {s : CssLexer} (h : s.ch = some c) :
    Returns s (s.scanSpecial c) ∧ (s.scanSpecial c).2.left < s.left := by
  have hlt := left_readChar_lt h
  unfold scanSpecial
  simp only
  split
  · have hstring := (Reads.append s).trans (reads_scanString c s.append)
    have hless := left_scanString_lt (s := s.append) h c
    have hoffset := hstring.trans (.setOffset _ (s.append.scanString c).pos)
    split
    · exact ⟨(hoffset.trans (.readChar _)).returns (by simp), Nat.lt_of_le_of_lt (Reads.readChar _).left hless⟩
    · exact ⟨hoffset.returns (by simp), hless⟩
  · split
    · split
      · refine ⟨((Reads.readChar s).trans (.readChar _)).returns (by simp), ?_⟩
        exact Nat.lt_of_le_of_lt (Reads.readChar _).left hlt
      · refine ⟨.of_reads (.readChar s) ⟨Nat.le_refl _, id, by simp, by simp, ?_⟩, hlt⟩
        by_cases hend : s.readChar.ch = none
        · exact .inr (.inr ⟨by simp [hend], hend⟩)
        · exact .inr (.inl (by simp [hend]))
    · split
      · exact ⟨(Reads.readChar s).returns (by simp), hlt⟩
      · split
        · have hread := left_readChar_lt (s := s.append) h
          have hbang := returns_scanAfterBang s.append.readChar
          exact ⟨.of_reads ((Reads.append s).trans (.readChar _)) hbang, Nat.lt_of_le_of_lt hbang.left hread⟩
        · refine ⟨((Reads.setOffset s s.pos).trans (.readChar _)).returns ?_, ?_⟩
          · intro heof
            exact absurd heof (singleType_ne_eof c)
          · exact left_readChar_lt (s := { s with offset := s.pos }) h

/-- What `getToken` does. -/
structure GetsToken (s : CssLexer) (r : Token × CssLexer) : Prop where
  returns : Returns s r
  skip : r.1.type = .skip → r.2.left < s.left
  consumes : s.currentState = .init → s.ch ≠ none → r.2.left < s.left
  atEnd : s.currentState = .init → s.ch = none → r.1.type = .eof

/-- After some characters have been read. -/
theorem GetsToken.of_lt {s s' : CssLexer} {r : Token × CssLexer} (h : Returns s r) (hlt : s'.left < s.left)
    (hle : r.2.left ≤ s'.left) (hch : s.ch ≠ none) : GetsToken s r :=
  ⟨h, fun _ => Nat.lt_of_le_of_lt hle hlt, fun _ _ => Nat.lt_of_le_of_lt hle hlt, fun _ hend => absurd hend hch⟩

theorem getsToken_getToken (s : CssLexer) : GetsToken s s.getToken := by
  fun_induction getToken s with
  | case1 s c state hnext ih =>
    have hch := ch_of_nextState hnext
    have hlt := left_readChar_lt (s := (s.enter c state).append) (c := c) hch
    have hreads := (Reads.append (s.enter c state)).trans (.readChar _)
    have hreturns := ih.returns
    refine .of_lt ⟨?_, ?_, hreturns.eof, hreturns.skip, hreturns.token⟩ hlt hreturns.left (by simp [hch])
    · exact Nat.le_trans hreturns.left (Nat.le_of_lt hlt)
    · exact fun hs => hreturns.drained (hreads.drained hs)
  | case2 s hnext htype =>
    have hfinds := finds_getType s
    refine ⟨(hfinds.reads.trans (.setOffset _ _)).returns hfinds.eof, ?_, ?_, ?_⟩
    · exact fun hskip => absurd hskip hfinds.not_skip
    all_goals
      intro hinit
      simp [getType, hinit] at htype
  | case3 s hnext htype hch =>
    exact ⟨returns_endOfInput hch, by simp [endOfInput, Token.eofToken], fun _ hne => absurd hch hne, fun _ _ => rfl⟩
  | case4 s hnext htype hopen hmore hch ih =>
    have hreads := (Reads.readChar s).trans (reads_skipComment _)
    have hlt := Nat.lt_of_le_of_lt (reads_skipComment s.readChar).left (left_readChar_lt hch)
    exact .of_lt (.of_reads hreads ih.returns) hlt ih.returns.left (by simp [hch])
  | case5 s hnext htype hopen hend hch =>
    have hreads := (Reads.readChar s).trans (reads_skipComment _)
    have hlt := Nat.lt_of_le_of_lt (reads_skipComment s.readChar).left (left_readChar_lt hch)
    exact .of_lt (.of_reads hreads (returns_endOfInput (not_not.mp hend))) hlt (Nat.le_refl _) (by simp [hch])
  | case6 s hnext htype hopen hline hmore hch ih =>
    have hreads := (Reads.readChar s).trans (reads_skipEOL _)
    have hlt := Nat.lt_of_le_of_lt (reads_skipEOL s.readChar).left (left_readChar_lt hch)
    exact .of_lt (.of_reads hreads ih.returns) hlt ih.returns.left (by simp [hch])
  | case7 s hnext htype hopen hline hend hch =>
    have hreads := (Reads.readChar s).trans (reads_skipEOL _)
    have hlt := Nat.lt_of_le_of_lt (reads_skipEOL s.readChar).left (left_readChar_lt hch)
    exact .of_lt (.of_reads hreads (returns_endOfInput (not_not.mp hend))) hlt (Nat.le_refl _) (by simp [hch])
  | case8 s hnext htype hopen hline _ hch =>
    have hreads := (Reads.readChar s).trans (.setOffset _ s.readChar.pos)
    exact .of_lt (hreads.returns (by simp)) (left_readChar_lt hch) (Nat.le_refl _) (by simp [hch])
  | case9 s hnext htype c hch =>
    obtain ⟨hreturns, hlt⟩ := returns_scanSpecial hch
    exact .of_lt hreturns hlt (Nat.le_refl _) (by simp [hch])

/-- The loop of `nextToken`. -/
def getUnskipped (s : CssLexer) : Token × CssLexer :=
  if Token.skipToken.equals s.getToken.1 then getUnskipped s.getToken.2 else s.getToken
termination_by s.left
decreasing_by
  rename_i hskip
  apply (getsToken_getToken s).skip
  simp only [Token.equals, decide_eq_true_eq] at hskip
  exact hskip.1.symm

def nextToken (s : CssLexer) : Token × CssLexer :=
  let (tok, s) := match s.token with
    | some tok => (tok, if tok.type ≠ TokenType.eof then { s with token := none } else s)
    | none => s.getUnskipped
  (tok, { s with text := [], currentState := .init })

end CssLexer

end JavaFX
