/-
The contents of text controls.

A `TextField` keeps its characters in one `StringBuilder`; a `TextArea` keeps one for each
paragraph and finds a position by adding up their lengths.  Both strip characters that cannot be
shown before they insert a text.

A character is a unit of UTF-16.  An operation of a content that throws does so before it has
changed anything, so a failing call returns no content.  Whether the listeners of the content are
told is part of the result; the events of the list of paragraphs are left out.
-/
import JavaFX.Runtime

namespace JavaFX

/-- A `String`, or what a `StringBuilder` holds. -/
abbrev Chars := List UInt16

/-- The units of a text of the Basic Multilingual Plane. -/
def Chars.of (s : String) : Chars := s.toList.map fun c => c.toNat.toUInt16

namespace StringBuilder

/-- `substring(start, end)`. -/
def substring (s : Chars) (start «end» : Int) : Except JavaException Chars :=
  if 0 ≤ start ∧ start ≤ «end» ∧ «end» ≤ s.length then
    .ok ((s.take «end».toNat).drop start.toNat)
  else .error .indexOutOfBounds

/-- `insert(index, text)`. -/
def insert (s : Chars) (index : Int) (text : Chars) : Except JavaException Chars :=
  if 0 ≤ index ∧ index ≤ s.length then .ok (s.take index.toNat ++ text ++ s.drop index.toNat)
  else .error .indexOutOfBounds

/-- `delete(start, end)`; an end after the last character stands for the last character. -/
def delete (s : Chars) (start «end» : Int) : Except JavaException Chars :=
  let «end» := min «end» s.length
  if 0 ≤ start ∧ start ≤ «end» then .ok (s.take start.toNat ++ s.drop «end».toNat)
  else .error .indexOutOfBounds

end StringBuilder

/-! ### Stripping -/

def isInvalidCharacter (c : UInt16) (newlineIllegal tabIllegal : Bool) : Bool :=
  if c = 0x7F then true
  else if c = 0xA then newlineIllegal
  else if c = 0x9 then tabIllegal
  else if c < 0x20 then true
  else false

def containsInvalidCharacters (txt : Chars) (newlineIllegal tabIllegal : Bool) : Bool :=
  txt.any fun c => isInvalidCharacter c newlineIllegal tabIllegal

def filterInput (txt : Chars) (stripNewlines stripTabs : Bool) : Chars :=
  if containsInvalidCharacters txt stripNewlines stripTabs then
    txt.filter fun c => !isInvalidCharacter c stripNewlines stripTabs
  else txt

/-! ### Paragraphs -/

structure TextAreaContent where
  paragraphs : List Chars
  contentLength : Int
deriving Repr, DecidableEq

namespace TextAreaContent

def newline : UInt16 := 0xA

/-- A new content has one empty paragraph. -/
def empty : TextAreaContent := { paragraphs := [[]], contentLength := 0 }

/-- The first loop of `get`: the paragraph with the given offset, and the offset in it. -/
def locate : List Chars → Int → Int × Int
  | [], offset => (0, offset)
  | paragraph :: rest, offset =>
    if offset < paragraph.length + 1 then (0, offset)
    else
      let (index, offset) := locate rest (offset - (paragraph.length + 1))
      (index + 1, offset)

/-- The second loop of `get`: as many characters as there are rounds left. -/
def readOn (c : TextAreaContent) (length : Int) :
    Nat → Int → Int → Chars → Except JavaException Chars
  | 0, _, _, _ => .ok []
  | rounds + 1, paragraphIndex, offset, paragraph =>
    -- The counter of the loop is the length less the rounds that are left.
    if offset = paragraph.length ∧ length - (rounds + 1) < c.contentLength then do
      let paragraph ← getAt c.paragraphs (paragraphIndex + 1)
      let rest ← readOn c length rounds (paragraphIndex + 1) 0 paragraph
      return newline :: rest
    else do
      let ch ← getAt paragraph offset
      let rest ← readOn c length rounds paragraphIndex (offset + 1) paragraph
      return ch :: rest

/-- `get(start, end)`. -/
def get (c : TextAreaContent) (start «end» : Int) : Except JavaException Chars := do
  let length := «end» - start
  let (paragraphIndex, offset) := locate c.paragraphs start
  let paragraph ← getAt c.paragraphs paragraphIndex
  readOn c length length.toNat paragraphIndex offset paragraph

/-- The lines of a text that is to be inserted: those that a newline ends, and the last one. -/
def lines (text : Chars) (ended : List Chars) (line : Chars) : List Chars × Chars :=
  match text with
  | [] => (ended, line)
  | c :: text =>
    if c = newline then lines text (ended ++ [line]) [] else lines text ended (line ++ [c])

/-- Backwards from `paragraphIndex`, which starts at `offset`: the paragraph of a position, and
where that paragraph starts. -/
def seek (paragraphs : List Chars) (position : Int) : Nat → Int → Except JavaException (Nat × Int)
  | 0, _ => .error .indexOutOfBounds
  | paragraphIndex + 1, offset => do
    let paragraph ← getAt paragraphs paragraphIndex
    let offset := offset - (paragraph.length + 1)
    if position < offset then seek paragraphs position paragraphIndex offset
    else return (paragraphIndex, offset)

/-- Insert lines at `start` of a paragraph. -/
def insertLines (paragraphs : List Chars) (paragraphIndex : Nat) (start : Int) :
    List Chars × Chars → Except JavaException (List Chars)
  | ([], line) => do
    -- A single line goes into the paragraph.
    let paragraph ← getAt paragraphs paragraphIndex
    let paragraph ← StringBuilder.insert paragraph start line
    return paragraphs.set paragraphIndex paragraph
  | (first :: rest, line) => do
    -- Several lines split it; the last of them gets what stood after the position.
    let paragraph ← getAt paragraphs paragraphIndex
    let trailingText ← StringBuilder.substring paragraph start paragraph.length
    let paragraph ← StringBuilder.delete paragraph start paragraph.length
    let paragraph ← StringBuilder.insert paragraph start first
    return paragraphs.take paragraphIndex ++ paragraph :: rest ++ (line ++ trailingText) ::
      paragraphs.drop (paragraphIndex + 1)

def insert (c : TextAreaContent) (index : Int) (text : Chars) (notifyListeners : Bool) :
    Except JavaException (TextAreaContent × Bool) :=
  if index < 0 ∨ index > c.contentLength then .error .indexOutOfBounds
  else
    let text := filterInput text false false
    if 0 < text.length then do
      let (paragraphIndex, offset) ←
        seek c.paragraphs index c.paragraphs.length (c.contentLength + 1)
      let paragraphs ← insertLines c.paragraphs paragraphIndex (index - offset) (lines text [] [])
      return ({ paragraphs, contentLength := c.contentLength + text.length }, notifyListeners)
    else .ok (c, false)

/-- Remove the text from position `start` of one paragraph to position `«end»` of another. -/
def deleteBetween (paragraphs : List Chars) (leadingParagraphIndex : Nat) (start : Int)
    (trailingParagraphIndex : Nat) («end» : Int) : Except JavaException (List Chars) :=
  if leadingParagraphIndex = trailingParagraphIndex then do
    let leadingParagraph ← getAt paragraphs leadingParagraphIndex
    let leadingParagraph ← StringBuilder.delete leadingParagraph start «end»
    return paragraphs.set leadingParagraphIndex leadingParagraph
  else do
    -- The segments before and after are joined, the paragraphs between them go.
    let leadingParagraph ← getAt paragraphs leadingParagraphIndex
    let trailingParagraph ← getAt paragraphs trailingParagraphIndex
    let leadingSegment ← StringBuilder.substring leadingParagraph 0 start
    let trailingParagraph ← StringBuilder.delete trailingParagraph 0 «end»
    return paragraphs.take leadingParagraphIndex ++ (leadingSegment ++ trailingParagraph) ::
      paragraphs.drop (trailingParagraphIndex + 1)

def delete (c : TextAreaContent) (start «end» : Int) (notifyListeners : Bool) :
    Except JavaException (TextAreaContent × Bool) :=
  if start > «end» then .error .illegalArgument
  else if start < 0 ∨ «end» > c.contentLength then .error .indexOutOfBounds
  else
    let length := «end» - start
    if length > 0 then do
      let (trailingParagraphIndex, trailingOffset) ←
        seek c.paragraphs «end» c.paragraphs.length (c.contentLength + 1)
      let trailingParagraph ← getAt c.paragraphs trailingParagraphIndex
      let (leadingParagraphIndex, leadingOffset) ←
        seek c.paragraphs start (trailingParagraphIndex + 1) (trailingOffset + (trailingParagraph.length + 1))
      let paragraphs ← deleteBetween c.paragraphs leadingParagraphIndex (start - leadingOffset)
        trailingParagraphIndex («end» - trailingOffset)
      return ({ paragraphs, contentLength := c.contentLength - length }, notifyListeners)
    else .ok (c, false)

/-! ### Runs of edits -/

/-- A call of `insert`, whose text may be `null`, or of `delete`. -/
inductive Edit
  | insert (index : Int) (text : Option Chars) (notifyListeners : Bool)
  | delete (start «end» : Int) (notifyListeners : Bool)
deriving Repr, DecidableEq

def edit (c : TextAreaContent) : Edit → Except JavaException (TextAreaContent × Bool)
  | .insert index (some text) notifyListeners => c.insert index text notifyListeners
  | .insert index none _ =>
    if index < 0 ∨ index > c.contentLength then .error .indexOutOfBounds else .error .illegalArgument
  | .delete start «end» notifyListeners => c.delete start «end» notifyListeners

/-- A content after some calls; one that throws leaves it as it is. -/
def run (c : TextAreaContent) : List Edit → TextAreaContent
  | [] => c
  | e :: es =>
    match c.edit e with
    | .ok (c', _) => run c' es
    | .error _ => run c es

end TextAreaContent

/-! ### Contents -/

inductive Content
  | textField (characters : Chars)
  | textArea (content : TextAreaContent)
deriving Repr, DecidableEq

namespace Content

/-- Whether newlines and tabs are stripped. -/
def strips : Content → Bool
  | textField _ => true
  | textArea _ => false

/-- `filterInput(text)` of the control. -/
def filterInput (c : Content) (text : Chars) : Chars := JavaFX.filterInput text c.strips c.strips

def length : Content → Int
  | textField characters => characters.length
  | textArea content => content.contentLength

/-- `get(start, end)`. -/
def get : Content → Int → Int → Except JavaException Chars
  | textField characters, start, «end» => StringBuilder.substring characters start «end»
  | textArea content, start, «end» => content.get start «end»

/-- `get()`. -/
def getValue (c : Content) : Except JavaException Chars :=
  match c with
  | textField characters => .ok characters
  | textArea content => content.get 0 content.contentLength

def insert (c : Content) (index : Int) (text : Chars) (notifyListeners : Bool) :
    Except JavaException (Content × Bool) :=
  match c with
  | textField characters => do
    let text := JavaFX.filterInput text true true
    if text = [] then return (c, false)
    else
      let characters ← StringBuilder.insert characters index text
      return (textField characters, notifyListeners)
  | textArea content => do
    let (content, told) ← content.insert index text notifyListeners
    return (textArea content, told)

def delete (c : Content) (start «end» : Int) (notifyListeners : Bool) :
    Except JavaException (Content × Bool) :=
  match c with
  | textField characters => do
    if «end» > start then
      let characters ← StringBuilder.delete characters start «end»
      return (textField characters, notifyListeners)
    else return (c, false)
  | textArea content => do
    let (content, told) ← content.delete start «end» notifyListeners
    return (textArea content, told)

end Content

end JavaFX
