/-
Text controls: the text, the caret, the selection and the chain of undo records.

The `length` property is bound to the text and keeps its value until the text tells that it has
changed, so it is a cache here.  The listeners that keep `selectedText` up to date are blocked
while a text is exchanged; it is set once when the exchange is over, also if it has failed.

The chain of records is a list on either side of the current record.  When the last record was made
and whether the last character was a space is kept in static fields that all controls share, so
what they say at a call is an argument of the call.
-/
import JavaFX.Controls.TextContent
import JavaFX.Lib.Program

namespace JavaFX

namespace TextInputControl

/-- `Utils.clamp(min, value, max)`. -/
def clamp (min value max : Int) : Int :=
  if value < min then min else if value > max then max else value

/-- A record of the chain. -/
structure UndoRedoChange where
  start : Int
  oldText : Chars
  newText : Chars
deriving Repr, DecidableEq

/-- `TextFormatter.Change`. -/
structure Change where
  start : Int
  «end» : Int
  text : Chars
  anchor : Int
  caret : Int
deriving Repr, DecidableEq

/-- What the tests that group changes find: the last character was a space, and the time of the
current record has elapsed. -/
structure Grouping where
  spaceCharSequence : Bool
  changeDurationElapsed : Bool
deriving Repr, DecidableEq

end TextInputControl

structure TextInputControl where
  content : Content
  textIsNull : Bool
  /-- The value that the binding of `length` has kept. -/
  length : Option Int
  anchor : Int
  caretPosition : Int
  selection : Int × Int
  selectedText : Chars
  /-- The current record and the ones before it; nothing stands for `undoChangeHead`. -/
  undoChange : List TextInputControl.UndoRedoChange
  /-- The records that can be done again. -/
  next : List TextInputControl.UndoRedoChange
  createNewUndoRecord : Bool
  undoable : Bool
  redoable : Bool
deriving Repr, DecidableEq

namespace TextInputControl

abbrev Call := Program JavaException TextInputControl

/-- The filter of a text formatter. -/
abbrev Filter := Change → Option Change

/-! ### Text and length -/

/-- `text.get()`. -/
def getText : Call (Option Chars) := fun c =>
  if c.textIsNull then (.ok none, c) else (c.content.getValue.map some, c)

def computeLength (c : TextInputControl) : Except JavaException Int :=
  if c.textIsNull then .ok 0 else c.content.getValue.map fun txt => (txt.length : Int)

def getLength : Call Int := fun c =>
  match c.length with
  | some length => (.ok length, c)
  | none =>
    match c.computeLength with
    | .ok length => (.ok length, { c with length := some length })
    | .error e => (.error e, c)

/-- The listener of the content: the text is not null any more, and its listeners are told. -/
def contentHasChanged (c : TextInputControl) : TextInputControl :=
  { c with
    textIsNull := if c.content.length > 0 then false else c.textIsNull
    length := none }

/-- What an operation on the content does to the control. -/
def onContent (result : Content → Except JavaException (Content × Bool)) : Call Unit := fun c =>
  match result c.content with
  | .ok (content, told) =>
    (.ok (), if told then contentHasChanged { c with content } else { c with content })
  | .error e => (.error e, c)

def updateSelectedText : Call Unit := do
  let txt ← getText
  match txt with
  | none => Program.modify fun c => { c with selectedText := [] }
  | some txt => do
    let sel ← Program.read fun c => c.selection
    let start := sel.1
    let «end» := sel.2
    let length : Int := txt.length
    let «end» := if «end» > start + length then length else «end»
    let range := if start > length - 1 then (0, 0) else (start, «end»)
    let selectedText ← Program.lift (StringBuilder.substring txt range.1 range.2)
    Program.modify fun c => { c with selectedText }

/-- `getText(start, end)`. -/
def getTextBetween (start «end» : Int) : Call Chars := do
  if start > «end» then Program.throw .illegalArgument
  else do
    let length ← getLength
    if start < 0 ∨ «end» > length then Program.throw .indexOutOfBounds
    else do
      let content ← Program.read fun c => c.content
      Program.lift (content.get start «end»)

def doSelectRange (anchor caretPosition : Int) : Call Unit := do
  let length ← getLength
  Program.modify fun c => { c with caretPosition := clamp 0 caretPosition length }
  let length ← getLength
  Program.modify fun c => { c with anchor := clamp 0 anchor length }
  Program.modify fun c => { c with
    selection := (min c.anchor c.caretPosition, max c.anchor c.caretPosition) }

/-! ### Exchanging text -/

/-- The length that is left when the range is deleted. -/
def deleteRange (start «end» : Int) (value : Chars) (length : Int) : Call Int :=
  if «end» ≠ start then do
    onContent fun content => content.delete start «end» value.isEmpty
    return length - («end» - start)
  else pure length

/-- The private `replaceText`: how many characters were stripped is the result. -/
def replaceRange (start «end» : Int) (value : Chars) (anchor caretPosition : Int) : Call Int :=
  Program.tryFinally (do
      let length ← getLength
      let length ← deleteRange start «end» value length
      onContent fun content => content.insert start value true
      let newLength ← getLength
      let adjustmentAmount := (value.length : Int) - (newLength - length)
      doSelectRange (anchor - adjustmentAmount) (caretPosition - adjustmentAmount)
      return adjustmentAmount)
    updateSelectedText

def updateUndoRedoState : Call Unit := Program.modify fun c =>
  { c with undoable := !c.undoChange.isEmpty, redoable := !c.next.isEmpty }

def space : Chars := [0x20]

/-- Where the text of the current record ends. -/
def endOfUndoChange (c : TextInputControl) : Int :=
  match c.undoChange with
  | [] => -1
  | current :: _ => current.start + current.newText.length

/-- Whether a change of the text gets a record of its own. -/
def startsRecord (c : TextInputControl) (change : Change) (newText : Chars)
    (nonEmptySelection forceNewUndoRecord : Bool) (grouping : Grouping) : Bool :=
  let isNewSpaceChar := decide (newText = space) && !grouping.spaceCharSequence
  c.createNewUndoRecord || nonEmptySelection || decide (c.endOfUndoChange = -1) ||
    forceNewUndoRecord || isNewSpaceChar || grouping.changeDurationElapsed ||
    (decide (c.endOfUndoChange ≠ change.start) && decide (c.endOfUndoChange ≠ change.end)) ||
    decide (change.end - change.start > 0)

/-- The chain after a change of the text. -/
def recordChange (change : Change) (oldText newText : Chars)
    (nonEmptySelection forceNewUndoRecord : Bool) (grouping : Grouping) (c : TextInputControl) :
    TextInputControl :=
  if c.startsRecord change newText nonEmptySelection forceNewUndoRecord grouping then
    { c with undoChange := ⟨change.start, oldText, newText⟩ :: c.undoChange, next := [] }
  else
    match c.undoChange with
    | [] => c
    | current :: rest =>
      if change.start ≠ change.end ∧ change.text = [] then
        -- A deletion at the end of the record.  It does not come here: a range that is not empty
        -- gets a record of its own.
        if 0 < current.newText.length then
          let newText := current.newText.take (change.start - current.start).toNat
          { c with undoChange := if newText = [] then rest else { current with newText } :: rest }
        else if change.start = c.endOfUndoChange then
          { c with undoChange := { current with oldText := current.oldText ++ oldText } :: rest }
        else
          { c with undoChange := { current with
              oldText := oldText ++ current.oldText, start := current.start - 1 } :: rest }
      else
        { c with undoChange := { current with newText := current.newText ++ newText } :: rest }

def updateContent (change : Change) (forceNewUndoRecord : Bool) (grouping : Grouping) :
    Call Unit := do
  let nonEmptySelection ← Program.read fun c => decide (c.selection.2 - c.selection.1 > 0)
  let oldText ← getTextBetween change.start change.end
  let adjustmentAmount ←
    replaceRange change.start change.end change.text change.anchor change.caret
  let newText ←
    getTextBetween change.start (change.start + change.text.length - adjustmentAmount)
  if newText = oldText then pure ()
  else do
    Program.modify (recordChange change oldText newText nonEmptySelection forceNewUndoRecord grouping)
    updateUndoRedoState

/-! ### Operations -/

section
variable (filter : Option Filter)

def replaceText (start «end» : Int) (text : Chars) (grouping : Grouping) : Call Unit :=
  if start > «end» then Program.throw .illegalArgument
  else do
    let length ← getLength
    if start < 0 ∨ «end» > length then Program.throw .indexOutOfBounds
    else do
      let content ← Program.read fun c => c.content
      match filter with
      | some filter =>
        match filter ⟨start, «end», text, start + text.length, start + text.length⟩ with
        | none => pure ()
        | some change => updateContent change (decide (length = 0)) grouping
      | none =>
        let text := content.filterInput text
        updateContent ⟨start, «end», text, start + text.length, start + text.length⟩ (decide (length = 0)) grouping

def insertText (index : Int) (text : Chars) (grouping : Grouping) : Call Unit :=
  replaceText filter index index text grouping

def deleteText (start «end» : Int) (grouping : Grouping) : Call Unit :=
  replaceText filter start «end» [] grouping

def replaceSelection (replacement : Chars) (grouping : Grouping) : Call Unit := do
  let selection ← Program.read fun c => c.selection
  replaceText filter selection.1 selection.2 replacement grouping

/-- `paste()`, with the text of the clipboard. -/
def paste (text : Chars) (grouping : Grouping) : Call Unit := do
  Program.modify fun c => { c with createNewUndoRecord := true }
  Program.tryFinally (replaceSelection filter text grouping)
    (Program.modify fun c => { c with createNewUndoRecord := false })

/-- `selectRange`, in which every move of the caret ends. -/
def selectRange (anchor caretPosition : Int) (grouping : Grouping) : Call Unit := do
  let length ← getLength
  let caretPosition := clamp 0 caretPosition length
  let anchor := clamp 0 anchor length
  let change : Change := ⟨caretPosition, caretPosition, [], anchor, caretPosition⟩
  match filter with
  | some filter =>
    match filter change with
    | none => pure ()
    | some change => updateContent change false grouping
  | none => updateContent change false grouping

/-- Take the text of a record out of the content and put another one in its place. -/
def exchange (start : Int) (taken put : Chars) (anchor caretPosition : Int) : Call Unit := do
  onContent fun content => content.delete start (start + taken.length) put.isEmpty
  onContent fun content => content.insert start put true
  doSelectRange anchor caretPosition

def undo : Call Unit := fun c =>
  match c.undoable, c.undoChange with
  | true, current :: rest =>
    (do
      Program.tryFinally (do
          exchange current.start current.newText current.oldText current.start (current.start + current.oldText.length)
          Program.modify fun c => { c with undoChange := rest, next := current :: c.next })
        updateSelectedText
      updateUndoRedoState : Call Unit) c
  | _, _ => updateUndoRedoState c

def redo : Call Unit := fun c =>
  match c.redoable, c.next with
  | true, current :: rest =>
    (do
      Program.modify fun c => { c with undoChange := current :: c.undoChange, next := rest }
      Program.tryFinally (exchange current.start current.oldText current.newText
          (current.start + current.newText.length) (current.start + current.newText.length))
        updateSelectedText
      updateUndoRedoState : Call Unit) c
  | _, _ => updateUndoRedoState c

/-! ### Setting the text -/

/-- Whether the value is taken. -/
def filterAndSet (value : Chars) : Call Bool := do
  let length ← Program.read fun c => c.content.length
  match filter with
  | some filter =>
    match filter ⟨0, length, value, 0, 0⟩ with
    | none => pure false
    | some change => do
      let _ ← replaceRange change.start change.end change.text change.anchor change.caret
      pure true
  | none => do
    let _ ← replaceRange 0 length value 0 0
    pure true

def resetUndoRedoState : Call Unit := do
  Program.modify fun c => { c with undoChange := [], next := [] }
  updateUndoRedoState

def doSet (value : Option Chars) : Call Unit := do
  Program.modify fun c => { c with textIsNull := value.isNone }
  let taken ← filterAndSet filter (value.getD [])
  if taken then resetUndoRedoState else pure ()

/-- `setText`.  The listeners of the text are told in any case, and nothing is blocked then. -/
def setText (value : Option Chars) : Call Unit := do
  doSet filter value
  Program.modify fun c => { c with length := none }
  updateSelectedText

end

/-- A control before its constructor has set the text. -/
def bare (content : Content) : TextInputControl where
  content := content
  textIsNull := false
  length := none
  anchor := 0
  caretPosition := 0
  selection := (0, 0)
  selectedText := []
  undoChange := []
  next := []
  createNewUndoRecord := false
  undoable := false
  redoable := false

/-- `new TextField(text)`. -/
def textField (text : Option Chars) : TextInputControl :=
  (setText none text (bare (.textField []))).2

/-- `new TextArea(text)`. -/
def textArea (text : Option Chars) : TextInputControl :=
  (setText none text (bare (.textArea .empty))).2

/-! ### Runs -/

/-- Calls that leave the text to the user: edits, moves of the caret, undo and redo. -/
inductive Edit
  | replaceText (start «end» : Int) (text : Chars)
  | replaceSelection (text : Chars)
  | paste (text : Chars)
  | selectRange (anchor caretPosition : Int)
  | undo
  | redo
deriving Repr, DecidableEq

/-- An edit of a control without a text formatter. -/
def edit (grouping : Grouping) : Edit → Call Unit
  | .replaceText start «end» text => TextInputControl.replaceText none start «end» text grouping
  | .replaceSelection text => TextInputControl.replaceSelection none text grouping
  | .paste text => TextInputControl.paste none text grouping
  | .selectRange anchor caretPosition =>
    TextInputControl.selectRange none anchor caretPosition grouping
  | .undo => TextInputControl.undo
  | .redo => TextInputControl.redo

inductive Operation
  | setText (value : Option Chars)
  | edit (e : Edit) (grouping : Grouping)
deriving Repr, DecidableEq

/-- An operation of a control without a text formatter. -/
def operate : Operation → Call Unit
  | .setText value => TextInputControl.setText none value
  | .edit e grouping => TextInputControl.edit grouping e

end TextInputControl

end JavaFX
