/-
`TextArea.ParagraphList`: the paragraphs of a text area as a list of objects.

A paragraph is the `StringBuilder` that holds its text, here a number; the texts themselves are
those of `TextAreaContent`.  An edit fires its changes while it is at work, so a change comes with
the list as it is at that moment.
-/
import JavaFX.Controls.TextContent

namespace JavaFX

open TextAreaContent

structure ParagraphListChange where
  list : List Nat
  «from» : Nat
  «to» : Nat
  removed : List Nat
deriving DecidableEq

/-- No object from `next` on has been made. -/
structure ParagraphList where
  content : TextAreaContent
  objects : List Nat
  next : Nat

namespace ParagraphList

def new : ParagraphList := { content := .empty, objects := [0], next := 1 }

variable (s : ParagraphList)

/-- The objects after `insert`, and the changes it fires. -/
def insert (index : Int) (text : Chars) : Except JavaException (List Nat × List ParagraphListChange) := do
  let text := filterInput text false false
  if 0 < text.length then
    let (paragraphIndex, _) ←
      seek s.content.paragraphs index s.content.paragraphs.length (s.content.contentLength + 1)
    let paragraph ← getAt s.objects paragraphIndex
    let n := (lines text [] []).1.length + 1
    let changed : ParagraphListChange := ⟨s.objects, paragraphIndex, paragraphIndex + 1, [paragraph]⟩
    if n = 1 then return (s.objects, [changed])
    else
      let objects := s.objects.take (paragraphIndex + 1) ++ List.range' s.next (n - 1) ++
        s.objects.drop (paragraphIndex + 1)
      return (objects, [changed, ⟨objects, paragraphIndex + 1, paragraphIndex + n, []⟩])
  else return (s.objects, [])

/-- The objects after `delete`, and the changes it fires. -/
def delete (start «end» : Int) : Except JavaException (List Nat × List ParagraphListChange) := do
  if «end» - start > 0 then
    let (trailingParagraphIndex, trailingOffset) ←
      seek s.content.paragraphs «end» s.content.paragraphs.length (s.content.contentLength + 1)
    let paragraph ← getAt s.content.paragraphs trailingParagraphIndex
    let (leadingParagraphIndex, _) ← seek s.content.paragraphs start (trailingParagraphIndex + 1)
      (trailingOffset + (paragraph.length + 1))
    let trailingParagraph ← getAt s.objects trailingParagraphIndex
    let leadingParagraph ← getAt s.objects leadingParagraphIndex
    if leadingParagraphIndex = trailingParagraphIndex then
      return (s.objects, [⟨s.objects, leadingParagraphIndex, leadingParagraphIndex + 1, [leadingParagraph]⟩])
    else
      -- The source asks whether the leading paragraph is before the trailing one, which it is here.
      let removed := (s.objects.take trailingParagraphIndex).drop leadingParagraphIndex
      let objects := s.objects.take leadingParagraphIndex ++ s.objects.drop trailingParagraphIndex
      return (objects, [⟨s.objects, trailingParagraphIndex, trailingParagraphIndex + 1, [trailingParagraph]⟩,
          ⟨objects, leadingParagraphIndex, leadingParagraphIndex, removed⟩,
          ⟨objects, leadingParagraphIndex, leadingParagraphIndex + 1, [leadingParagraph]⟩])
  else return (s.objects, [])

def edit (e : Edit) : Except JavaException (ParagraphList × List ParagraphListChange) := do
  let (content, _) ← s.content.edit e
  let (objects, changes) ← match e with
    | .insert index text _ => s.insert index (text.getD [])
    | .delete start «end» _ => s.delete start «end»
  return ({ content, objects, next := s.next + objects.length }, changes)

def run (s : ParagraphList) : List Edit → ParagraphList
  | [] => s
  | e :: es =>
    match s.edit e with
    | .ok (s', _) => run s' es
    | .error _ => run s es

end ParagraphList

namespace ParagraphListChange

/-- What a listener makes of a change when it takes the list for `view`; nothing if the objects that are reported
as removed are not there. -/
def replay (view : List Nat) (c : ParagraphListChange) (old : List Nat) : Option (List Nat) :=
  if (old.drop c.from).take c.removed.length = c.removed then
    some (old.take c.from ++ (view.take c.«to»).drop c.from ++ old.drop (c.from + c.removed.length))
  else none

/-- The changes of an edit, one after the other. -/
def replayAll (view : ParagraphListChange → List Nat) (changes : List ParagraphListChange) (old : List Nat) :
    Option (List Nat) :=
  changes.foldlM (fun old c => c.replay (view c) old) old

end ParagraphListChange

end JavaFX
