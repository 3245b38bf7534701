/-
What a rejected change leaves behind.

An operation shows the filter of the text formatter the change it is about to make.  All of them
drop the change before they have touched the control, except `setText`, which has noted by then
whether the text is `null`, and asks for the length anew afterwards.
-/
import JavaFX.Proofs.Controls.TextInputControl.Edits

namespace JavaFX.TextInputControl

open Program

/-- The operations whose changes go through the filter. -/
inductive TextOperation
  | setText (value : Option Chars)
  | replaceText (start «end» : Int) (text : Chars)
  | deleteText (start «end» : Int)
  | paste (text : Chars)
  | selectRange (anchor caretPosition : Int)
deriving Repr, DecidableEq

namespace TextOperation

def run (filter : Filter) (grouping : Grouping) : TextOperation → Call Unit
  | setText value => TextInputControl.setText (some filter) value
  | replaceText start «end» text => TextInputControl.replaceText (some filter) start «end» text grouping
  | deleteText start «end» => TextInputControl.deleteText (some filter) start «end» grouping
  | paste text => TextInputControl.paste (some filter) text grouping
  | selectRange anchor caretPosition => TextInputControl.selectRange (some filter) anchor caretPosition grouping

/-- The change of a range of the text, if the range is one. -/
def replacement (c : TextInputControl) (start «end» : Int) (text : Chars) : Option Change :=
  match (getLength c).1 with
  | .ok length =>
    if start ≤ «end» ∧ 0 ≤ start ∧ «end» ≤ length then
      some ⟨start, «end», text, start + text.length, start + text.length⟩
    else none
  | .error _ => none

/-- The change that the filter is observed. -/
def change (c : TextInputControl) : TextOperation → Option Change
  | setText value => some ⟨0, c.content.length, value.getD [], 0, 0⟩
  | replaceText start «end» text => replacement c start «end» text
  | deleteText start «end» => replacement c start «end» []
  | paste text => replacement c c.selection.1 c.selection.2 text
  | selectRange anchor caretPosition =>
    match (getLength c).1 with
    | .ok length =>
      some ⟨clamp 0 caretPosition length, clamp 0 caretPosition length, [], clamp 0 anchor length,
        clamp 0 caretPosition length⟩
    | .error _ => none

def Rejected (filter : Filter) (c : TextInputControl) (op : TextOperation) : Prop :=
  ∃ change, op.change c = some change ∧ filter change = none

end TextOperation

/-- What a control shows: text, length, anchor, caret, selection, and the history with what it allows. -/
structure Observed where
  text : Except JavaException (Option Chars)
  length : Except JavaException Int
  anchor : Int
  caretPosition : Int
  selection : Int × Int
  undoChange : List UndoRedoChange
  next : List UndoRedoChange
  undoable : Bool
  redoable : Bool
deriving DecidableEq

def observed (c : TextInputControl) : Observed where
  text := (getText c).1
  length := (getLength c).1
  anchor := c.anchor
  caretPosition := c.caretPosition
  selection := c.selection
  undoChange := c.undoChange
  next := c.next
  undoable := c.undoable
  redoable := c.redoable

/-- The length that is kept is the length of the text. -/
def LengthFresh (c : TextInputControl) : Prop := ∀ length, c.length = some length → c.computeLength = .ok length

variable {filter : Filter} {grouping : Grouping} {c : TextInputControl} {text : Chars} {start «end» : Int}

/-! ### Asking for the length -/

theorem getLength_flag (b : Bool) : getLength { c with createNewUndoRecord := b } =
    ((getLength c).1, { (getLength c).2 with createNewUndoRecord := b }) := by
  have hcompute : computeLength { c with createNewUndoRecord := b } = c.computeLength := rfl
  unfold getLength
  rw [hcompute]
  cases hlength : c.length with
  | some length => simp [hlength]
  | none => cases c.computeLength <;> simp [hlength]

theorem getLength_fst (c : TextInputControl) :
    (getLength c).1 = match c.length with | some length => .ok length | none => c.computeLength := by
  unfold getLength
  cases c.length with
  | some length => rfl
  | none => cases c.computeLength <;> rfl

theorem getText_fst (c : TextInputControl) :
    (getText c).1 = if c.textIsNull then .ok none else c.content.getValue.map some := by
  unfold getText
  split <;> rfl

theorem shown_getLength (b : Bool) : observed { (getLength c).2 with createNewUndoRecord := b } = observed c := by
  have hcompute : computeLength { c with createNewUndoRecord := b } = c.computeLength := rfl
  have hkept : (getLength c).2 = c ∨ ∃ length, c.length = none ∧ c.computeLength = .ok length ∧
      (getLength c).2 = { c with length := some length } := by
    unfold getLength
    cases c.length with
    | some length => exact .inl rfl
    | none => cases c.computeLength <;> simp
  obtain hsame | ⟨length, hlength, hlen, hasked⟩ := hkept
  · rw [hsame]
    simp only [observed, getText_fst, getLength_fst, hcompute]
  · rw [hasked]
    simp only [observed, getText_fst, getLength_fst, hlength, hlen]

/-! ### Operations that drop their change -/

theorem replaceText_rejected
    (h : ∃ change, TextOperation.replacement c start «end» text = some change ∧ filter change = none) :
    replaceText (some filter) start «end» text grouping c = (.ok (), (getLength c).2) := by
  obtain ⟨change, hchange, hfilter⟩ := h
  rcases hlength : getLength c with ⟨_ | length, c'⟩
  · simp [TextOperation.replacement, hlength] at hchange
  · simp only [TextOperation.replacement, hlength, Option.ite_none_right_eq_some, Option.some.injEq] at hchange
    obtain ⟨hrange, rfl⟩ := hchange
    rw [replaceText, if_neg (by omega), bind_ok hlength, if_neg (by omega)]
    simp only [hfilter]
    rfl

theorem paste_rejected
    (h : ∃ change, TextOperation.replacement c c.selection.1 c.selection.2 text = some change ∧
      filter change = none) :
    paste (some filter) text grouping c = (.ok (), { (getLength c).2 with createNewUndoRecord := false }) := by
  have hsame : TextOperation.replacement { c with createNewUndoRecord := true } c.selection.1 c.selection.2 text
      = TextOperation.replacement c c.selection.1 c.selection.2 text := by
    unfold TextOperation.replacement
    rw [getLength_flag]
  have hreplace : replaceSelection (some filter) text grouping { c with createNewUndoRecord := true }
      = (.ok (), { (getLength c).2 with createNewUndoRecord := true }) := by
    rw [replaceSelection, bind_ok (read_apply _ _), replaceText_rejected (hsame ▸ h), getLength_flag]
  rw [paste]
  exact tryFinally_apply hreplace (modify_apply _ _)

theorem selectRange_rejected {anchor caretPosition : Int}
    (h : (TextOperation.selectRange anchor caretPosition).Rejected filter c) :
    selectRange (some filter) anchor caretPosition grouping c = (.ok (), (getLength c).2) := by
  obtain ⟨change, hchange, hfilter⟩ := h
  rcases hlength : getLength c with ⟨_ | length, c'⟩
  · simp [TextOperation.change, hlength] at hchange
  · simp only [TextOperation.change, hlength, Option.some.injEq] at hchange
    obtain rfl := hchange
    rw [selectRange, bind_ok hlength]
    simp only [hfilter]
    rfl

/-! ### Setting the text -/

theorem updateSelectedText_snd (c : TextInputControl) :
    (updateSelectedText c).2 = { c with selectedText := (updateSelectedText c).2.selectedText } := by
  have htext : ∃ r, getText c = (r, c) := by
    unfold getText
    split <;> exact ⟨_, rfl⟩
  obtain ⟨r, hr⟩ := htext
  cases r with
  | error e => rw [updateSelectedText, bind_error hr]
  | ok txt =>
    rw [updateSelectedText, bind_ok hr]
    cases txt with
    | none => rfl
    | some txt =>
      simp only [bind_ok (read_apply _ _)]
      generalize StringBuilder.substring txt _ _ = r
      cases r <;> rfl

theorem setText_rejected {value : Option Chars} (h : (TextOperation.setText value).Rejected filter c) :
    observed (setText (some filter) value c).2 = observed { c with textIsNull := value.isNone, length := none } := by
  obtain ⟨change, hchange, hfilter⟩ := h
  obtain rfl := Option.some.inj hchange
  have hset : doSet (some filter) value c = (.ok (), { c with textIsNull := value.isNone }) := by
    have hfilterAndSet : filterAndSet (some filter) (value.getD []) { c with textIsNull := value.isNone }
        = (.ok false, { c with textIsNull := value.isNone }) := by
      rw [filterAndSet, bind_ok (read_apply _ _)]
      simp only [hfilter]
      rfl
    rw [doSet, bind_ok (modify_apply _ _), bind_ok hfilterAndSet]
    rfl
  rw [setText, bind_ok hset, bind_ok (modify_apply _ _), updateSelectedText_snd]
  simp only [observed, getText_fst, getLength_fst, computeLength]

theorem shown_setText_iff (value : Option Chars) :
    observed { c with textIsNull := value.isNone, length := none } = observed c ↔
      value.isNone = c.textIsNull ∧ LengthFresh c := by
  have hcompute (hnull : value.isNone = c.textIsNull) :
      computeLength { c with textIsNull := value.isNone, length := none } = c.computeLength := by
    simp only [computeLength, hnull]
  constructor
  · intro h
    have hnull : value.isNone = c.textIsNull := by
      have htext := congrArg Observed.text h
      simp only [observed, getText_fst] at htext
      cases hc : c.textIsNull <;> cases hv : value.isNone <;> cases hcontent : c.content.getValue <;>
        simp_all [Except.map]
    refine ⟨hnull, fun length hlength => ?_⟩
    have hlen := congrArg Observed.length h
    simpa only [observed, getLength_fst, hlength, hcompute hnull] using hlen
  · rintro ⟨hnull, hfresh⟩
    have hlen : (getLength { c with textIsNull := value.isNone, length := none }).1 = (getLength c).1 := by
      rw [getLength_fst, getLength_fst, hcompute hnull]
      cases hlength : c.length with
      | some length => exact hfresh length hlength
      | none => rfl
    rw [observed, hlen]
    simp only [observed, getText_fst, hnull]

/-- **A rejected change changes nothing**, but for `setText`: it must not turn a text into `null` or
`null` into a text, and the length must not lag behind. -/
theorem rejected_iff (op : TextOperation) (h : op.Rejected filter c) :
    observed (op.run filter grouping c).2 = observed c ↔
      ∀ value, op = .setText value → value.isNone = c.textIsNull ∧ LengthFresh c := by
  cases op with
  | setText value =>
    rw [TextOperation.run, setText_rejected h, shown_setText_iff]
    simp
  | replaceText start «end» text =>
    rw [TextOperation.run, replaceText_rejected h]
    simpa using shown_getLength (getLength c).2.createNewUndoRecord
  | deleteText start «end» =>
    rw [TextOperation.run, deleteText, replaceText_rejected h]
    simpa using shown_getLength (getLength c).2.createNewUndoRecord
  | paste text =>
    rw [TextOperation.run, paste_rejected h]
    simpa using shown_getLength false
  | selectRange anchor caretPosition =>
    rw [TextOperation.run, selectRange_rejected h]
    simpa using shown_getLength (getLength c).2.createNewUndoRecord

theorem rejected_iff_paste :
    observed ((TextOperation.paste [0x62]).run (fun _ => none) ⟨false, false⟩ (textField (some [0x61]))).2
      = observed (textField (some [0x61])) :=
  (rejected_iff (.paste [0x62]) ⟨_, rfl, rfl⟩).mpr (by simp)

/-- A rejected `setText(null)` turns the text into `null`. -/
theorem not_unchanged_null : (TextOperation.setText none).Rejected (fun _ => none) (textField (some [0x61])) ∧
      (getText (textField (some [0x61]))).1 = .ok (some [0x61]) ∧
      (getText ((TextOperation.setText none).run (fun _ => none) ⟨false, false⟩ (textField (some [0x61]))).2).1
        = .ok none :=
  ⟨⟨_, rfl, rfl⟩, rfl, rfl⟩

end JavaFX.TextInputControl
