/-
Undo and redo are faithful.

A history is kept beside a run: the texts at which the records of the chain were begun, and the
texts that undo has taken back.  `Aligned` ties it to the chain: each record fits between the text
it was begun with and the text after it.

An insertion at the end of the current record is added to that record.  The records that can be
done again are not dropped then, so redo stays possible and its records do not fit the text any
more.  Nothing else goes wrong.
-/
import JavaFX.Proofs.Controls.TextInputControl.Selection

namespace JavaFX.TextInputControl

open Content Program List

variable {c : TextInputControl} {text : Chars}

/-! ### Histories -/

structure History where
  /-- The texts at which the records were begun, the current one first. -/
  past : List Chars
  /-- The texts before the undos, the last one first. -/
  future : List Chars
deriving Repr, DecidableEq

/-- A history after a call.  An edit that changes the text begins a record if the chain gets
longer, and there is nothing to be done again after it. -/
def History.after (h : History) (e : Edit) (before after : TextInputControl) : History :=
  match e with
  | .undo =>
    if before.undoable then ⟨h.past.tail, shown before :: h.future⟩ else h
  | .redo =>
    if before.redoable then ⟨shown before :: h.past, h.future.tail⟩ else h
  | _ =>
    if shown after = shown before then h
    else if before.undoChange.length < after.undoChange.length then
      ⟨shown before :: h.past, []⟩
    else ⟨h.past, []⟩

/-- The arguments of a call are positions of the text. -/
def InRange (c : TextInputControl) : Edit → Prop
  | .replaceText start stop _ => 0 ≤ start ∧ start ≤ stop ∧ stop ≤ (shown c).length
  | _ => True

/-- What a call has to do, given the history before it. -/
structure Faithful (h : History) (e : Edit) (before : TextInputControl)
    (result : Except JavaException Unit) (after : TextInputControl) : Prop where
  returns : InRange before e → result = .ok ()
  undone : e = .undo → before.undoable = true → h.past.head? = some (shown after)
  redone : e = .redo → before.redoable = true → h.future.head? = some (shown after)
  edited : e ≠ .undo → e ≠ .redo → shown after ≠ shown before → after.redoable = false

/-- Every call of a run is faithful. -/
def FaithfulRun : History → TextInputControl → List (Edit × Grouping) → Prop
  | _, _, [] => True
  | h, c, (e, g) :: steps =>
    Faithful h e c (edit g e c).1 (edit g e c).2 ∧ FaithfulRun (h.after e c (edit g e c).2) (edit g e c).2 steps

/-- A text that comes in at a position is added to the current record. -/
def joins (c : TextInputControl) (start stop : Int) (text : Chars) (g : Grouping) : Bool :=
  let text := c.content.filterInput text
  decide (text ≠ []) && decide (start = stop) &&
    !c.startsRecord ⟨start, stop, text, start + text.length, start + text.length⟩ text
      c.hasSelection (decide (c.content.length = 0)) g

/-- An insertion is added to the current record although something can be done again. -/
def misaligns (c : TextInputControl) (g : Grouping) : Edit → Bool
  | .replaceText start stop text =>
    c.redoable && decide (0 ≤ start ∧ start ≤ stop ∧ stop ≤ c.content.length) && c.joins start stop text g
  | .replaceSelection text => c.redoable && c.joins c.selection.1 c.selection.2 text g
  | _ => false

/-- No step of a run misaligns the chain. -/
def AlignedRun : TextInputControl → List (Edit × Grouping) → Prop
  | _, [] => True
  | c, (e, g) :: steps => misaligns c g e = false ∧ AlignedRun (edit g e c).2 steps

instance decidableAlignedRun :
    ∀ (c : TextInputControl) (steps : List (Edit × Grouping)), Decidable (AlignedRun c steps)
  | _, [] => isTrue trivial
  | c, (e, g) :: steps =>
    have := decidableAlignedRun (edit g e c).2 steps
    inferInstanceAs (Decidable (_ ∧ _))

/-! ### Chains -/

/-- A record leads from one text to the next. -/
def Fits (r : UndoRedoChange) (before after : Chars) : Prop :=
  ∃ l s, before = l ++ r.oldText ++ s ∧ after = l ++ r.newText ++ s ∧ r.start = l.length

/-- The records that can be taken back. -/
inductive Back : List UndoRedoChange → List Chars → Chars → Prop
  | none (text : Chars) : Back [] [] text
  | record {r rs begun past text} (hfits : Fits r begun text) (hrest : Back rs past begun) :
      Back (r :: rs) (begun :: past) text

/-- The records that can be done again. -/
inductive Forth : List UndoRedoChange → List Chars → Chars → Prop
  | none (text : Chars) : Forth [] [] text
  | record {r rs later future text} (hfits : Fits r text later) (hrest : Forth rs future later) :
      Forth (r :: rs) (later :: future) text

variable {r : UndoRedoChange} {i j : Nat} {x : Chars} {h : History}

variable {rs : List UndoRedoChange} {e : Edit} {start stop : Int}

theorem Back.exists_begun {past : List Chars} (h : Back (r :: rs) past text) :
    ∃ begun past', past = begun :: past' ∧ Fits r begun text ∧ Back rs past' begun := by
  cases h with
  | record hfits hrest => exact ⟨_, _, rfl, hfits, hrest⟩

theorem Forth.exists_later {future : List Chars} (h : Forth (r :: rs) future text) :
    ∃ later future', future = later :: future' ∧ Fits r text later ∧ Forth rs future' later := by
  cases h with
  | record hfits hrest => exact ⟨_, _, rfl, hfits, hrest⟩

/-- The chain of a control fits its text and the history of the run. -/
structure Aligned (h : History) (c : TextInputControl) (text : Chars) : Prop
    extends Sound c text where
  back : Back c.undoChange h.past text
  forth : Forth c.next h.future text
  undoable : c.undoable = !c.undoChange.isEmpty
  redoable : c.redoable = !c.next.isEmpty


/-! ### Edits -/

theorem spliced_self (hij : i ≤ j) (text : Chars) : spliced text i j ((text.take j).drop i) = text := by
  rw [spliced, drop_take, append_assoc]
  have hdrop : text.drop j = (text.drop i).drop (j - i) := by
    rw [drop_drop]
    congr 1
    omega
  rw [hdrop, take_append_drop, take_append_drop]

theorem spliced_ne (hij : i ≤ j) {text : Chars} (hne : x ≠ (text.take j).drop i) : spliced text i j x ≠ text := by
  intro heq
  have hboth := heq.trans (spliced_self hij text).symm
  exact hne (append_cancel_left (append_cancel_right hboth))

theorem fits_spliced (hij : i ≤ j) (hj : j ≤ text.length) (x : Chars) :
    Fits ⟨i, (text.take j).drop i, x⟩ text (spliced text i j x) := by
  refine ⟨text.take i, text.drop j, (spliced_self hij text).symm, rfl, ?_⟩
  simp
  omega

/-- An insertion at the end of a record makes the record longer. -/
theorem Fits.append {begun : Chars} (h : Fits r begun text)
    (hi : (i : Int) = r.start + r.newText.length) (x : Chars) :
    Fits { r with newText := r.newText ++ x } begun (spliced text i i x) := by
  obtain ⟨l, s, hbefore, rfl, hstart⟩ := h
  have hlen : i = (l ++ r.newText).length := by
    simp
    omega
  refine ⟨l, s, hbefore, ?_, hstart⟩
  rw [spliced, hlen, take_left]
  simp

theorem recordChange_cases (change : Change) (hle : change.start ≤ change.end)
    (oldText newText : Chars) (nonEmptySelection force : Bool) (g : Grouping)
    (c : TextInputControl) :
    (c.startsRecord change newText nonEmptySelection force g = true ∧
      recordChange change oldText newText nonEmptySelection force g c
        = chained c (⟨change.start, oldText, newText⟩ :: c.undoChange) []) ∨
    (c.startsRecord change newText nonEmptySelection force g = false ∧
      change.start = change.end ∧
      ∃ current rest, c.undoChange = current :: rest ∧
        change.start = current.start + current.newText.length ∧
        recordChange change oldText newText nonEmptySelection force g c
          = chained c ({ current with newText := current.newText ++ newText } :: rest) c.next) := by
  cases hstarts : c.startsRecord change newText nonEmptySelection force g with
  | true =>
    refine .inl ⟨rfl, ?_⟩
    rw [recordChange, if_pos hstarts]
    rfl
  | false =>
    have hnot := hstarts
    simp only [startsRecord, Bool.or_eq_false_iff, Bool.and_eq_false_imp, decide_eq_true_eq,
      decide_eq_false_iff_not, not_not] at hnot
    obtain ⟨⟨⟨⟨⟨⟨-, hhead⟩, -⟩, -⟩, -⟩, hend⟩, hrange⟩ := hnot
    have hsame : change.start = change.end := by omega
    refine .inr ⟨rfl, hsame, ?_⟩
    rcases hchain : c.undoChange with _ | ⟨current, rest⟩
    · simp [endOfUndoChange, hchain] at hhead
    · refine ⟨current, rest, rfl, ?_, ?_⟩
      · have hvalue : c.endOfUndoChange = current.start + current.newText.length := by
          simp [endOfUndoChange, hchain]
        by_contra hne
        exact hne (by rw [hsame, ← hend (by omega), hvalue])
      · rw [recordChange, hstarts, hchain]
        simp [hsame, chained]

/-- What an edit of a range does to the text, the chain and the history. -/
theorem Aligned.updateContent (ha : Aligned h c text) (hij : i ≤ j)
    (hj : j ≤ text.length) (hx : Allowed c.content.strips x) (anchor caret : Int)
    (force : Bool) (g : Grouping) :
    ∃ after, TextInputControl.updateContent ⟨i, j, x, anchor, caret⟩ force g c = (.ok (), after) ∧
      ((x = (text.take j).drop i ∧ Aligned h after text) ∨
        (x ≠ (text.take j).drop i ∧ Aligned ⟨text :: h.past, []⟩ after (spliced text i j x) ∧
          c.startsRecord ⟨i, j, x, anchor, caret⟩ x c.hasSelection force g = true ∧
          c.undoChange.length < after.undoChange.length) ∨
        (x ≠ (text.take j).drop i ∧ i = j ∧ Sound after (spliced text i j x) ∧
          c.startsRecord ⟨i, j, x, anchor, caret⟩ x c.hasSelection force g = false ∧
          after.undoChange.length = c.undoChange.length ∧ after.redoable = c.redoable ∧
          (c.redoable = false → Aligned ⟨h.past, []⟩ after (spliced text i j x)))) := by
  obtain ⟨content, tn, heq, hsound, hstrips⟩ :=
    updateContent_spec ha.toSettled hij hj hx anchor caret force g
  refine ⟨_, heq, ?_⟩
  have hfinal : Sound (recorded _ text ⟨i, j, x, anchor, caret⟩ i j c.hasSelection force g) (spliced text i j x) :=
    recorded_sound hsound ⟨i, j, x, anchor, caret⟩ rfl rfl hij (show Allowed content.strips text from hstrips ▸ ha.allowed)
      (show Allowed content.strips x from hstrips ▸ hx) c.hasSelection force g
  by_cases hsame : x = (text.take j).drop i
  · refine .inl ⟨hsame, ?_⟩
    rw [recorded, if_pos hsame] at hfinal ⊢
    have htext : spliced text i j x = text := by rw [hsame, spliced_self hij]
    rw [htext] at hfinal ⊢
    exact { hfinal with
      back := ha.back, forth := ha.forth, undoable := ha.undoable, redoable := ha.redoable }
  · refine .inr ?_
    rw [recorded, if_neg hsame] at hfinal ⊢
    rcases recordChange_cases ⟨i, j, x, anchor, caret⟩ (by simpa using hij)
        ((text.take j).drop i) x c.hasSelection force g
        ((placed { c with content, textIsNull := tn } (spliced text i j x) anchor
          caret).withSelected (spliced text i j x)) with
      ⟨hstarts, hrecord⟩ | ⟨hstarts, hpoint, current, rest, hchain, hend, hrecord⟩
    · refine .inl ⟨hsame, ?_, hstarts, ?_⟩
      · rw [hrecord] at hfinal ⊢
        exact { hfinal with
          back := .record (fits_spliced hij hj x) ha.back
          forth := .none _
          undoable := rfl
          redoable := rfl }
      · rw [hrecord]
        show c.undoChange.length < (_ :: c.undoChange).length
        simp
    · have hchain' : c.undoChange = current :: rest := hchain
      have hij' : i = j := by simpa using hpoint
      subst hij'
      refine .inr ⟨hsame, rfl, hfinal, hstarts, ?_, ?_, ?_⟩
      · rw [hrecord, hchain']
        rfl
      · rw [hrecord, ha.redoable]
        rfl
      · intro hnone
        rw [hrecord] at hfinal ⊢
        have hnext : c.next = [] := by
          rw [ha.redoable] at hnone
          simpa using hnone
        obtain ⟨begun, past, hpast, hfits, hrest⟩ := Back.exists_begun (hchain' ▸ ha.back)
        refine { hfinal with
          back := ?_
          forth := ?_
          undoable := rfl
          redoable := rfl }
        · rw [hpast]
          exact .record (hfits.append hend x) hrest
        · rw [hnext]
          exact .none _


/-! ### Steps -/

/-- What can have become of a control in an edit: the text is what it was, a record has been begun,
or the change has been added to the current record. -/
inductive Outcome (h : History) (c after : TextInputControl) (text : Chars) : Bool → Prop
  | unchanged (ha : Aligned h after text) : Outcome h c after text false
  | begun {text' : Chars} (hne : text' ≠ text)
      (hlonger : c.undoChange.length < after.undoChange.length)
      (ha : Aligned ⟨text :: h.past, []⟩ after text') : Outcome h c after text false
  | joined {text' : Chars} (hne : text' ≠ text)
      (hsame : after.undoChange.length = c.undoChange.length) (hsound : Sound after text')
      (hredo : after.redoable = c.redoable)
      (ha : c.redoable = false → Aligned ⟨h.past, []⟩ after text') : Outcome h c after text true

/-- One step of a run. -/
def Step (h : History) (e : Edit) (c : TextInputControl) (result : Except JavaException Unit)
    (after : TextInputControl) (misaligned : Bool) : Prop :=
  (misaligned = false → Faithful h e c result after ∧ ∃ text', Aligned (h.after e c after) after text') ∧
  (misaligned = true → ¬ Faithful h e c result after)

theorem Outcome.step {after : TextInputControl} {joined : Bool}
    (ho : Outcome h c after text joined) (hsound : Sound c text)
    {result : Except JavaException Unit} (hundo : e ≠ .undo) (hredo : e ≠ .redo)
    (hresult : InRange c e → result = .ok ()) :
    Step h e c result after (c.redoable && joined) := by
  have hshown := hsound.toSettled.shown
  have hafter : ∀ after, h.after e c after = if shown after = shown c then h
      else if c.undoChange.length < after.undoChange.length then ⟨shown c :: h.past, []⟩
      else ⟨h.past, []⟩ := by
    intro after
    cases e <;> first | rfl | contradiction
  have hfaithful : (shown after ≠ shown c → after.redoable = false) → Faithful h e c result after := fun hedit =>
    ⟨hresult, fun he => absurd he hundo, fun he => absurd he hredo, fun _ _ => hedit⟩
  cases ho with
  | unchanged ha =>
    refine ⟨fun _ => ⟨hfaithful fun hne => ?_, text, ?_⟩, fun hm => by simp at hm⟩
    · exact absurd (ha.toSettled.shown.trans hshown.symm) hne
    · rw [hafter, if_pos (ha.toSettled.shown.trans hshown.symm)]
      exact ha
  | @begun text' hne hlonger ha =>
    have hne' : shown after ≠ shown c := by
      rw [ha.toSettled.shown, hshown]
      exact hne
    refine ⟨fun _ => ⟨hfaithful fun _ => ?_, text', ?_⟩, fun hm => by simp at hm⟩
    · have hforth := ha.forth
      rw [ha.redoable]
      cases hnext : after.next with
      | nil => rfl
      | cons r rs =>
        rw [hnext] at hforth
        cases hforth
    · rw [hafter, if_neg hne', if_pos hlonger, hshown]
      exact ha
  | @joined text' hne hsame hafterSound hredoable ha =>
    have hne' : shown after ≠ shown c := by
      rw [hafterSound.toSettled.shown, hshown]
      exact hne
    refine ⟨fun hm => ?_, fun hm hf => ?_⟩
    · have hnone : c.redoable = false := by simpa using hm
      refine ⟨hfaithful fun _ => hredoable.trans hnone, text', ?_⟩
      rw [hafter, if_neg hne', if_neg (by omega)]
      exact ha hnone
    · have hsome : c.redoable = true := by simpa using hm
      have := hf.edited hundo hredo hne'
      rw [hredoable, hsome] at this
      cases this

theorem Aligned.withLength (ha : Aligned h c text) : Aligned h (c.withLength text.length) text :=
  { ha.toSound.withLength with
    back := ha.back, forth := ha.forth, undoable := ha.undoable, redoable := ha.redoable }

theorem Aligned.pasting (ha : Aligned h c text) (b : Bool) : Aligned h (c.pasting b) text :=
  { ha.toSound.pasting b with
    back := ha.back, forth := ha.forth, undoable := ha.undoable, redoable := ha.redoable }

theorem Aligned.replaceText (ha : Aligned h c text) (hij : i ≤ j) (hj : j ≤ text.length) (x : Chars) (g : Grouping) :
    ∃ after, TextInputControl.replaceText none i j x g c = (.ok (), after) ∧
      Outcome h c after text (c.joins i j x g) := by
  have hforce : decide ((text.length : Int) = 0) = decide (c.content.length = 0) := by
    rw [ha.holds.length]
  obtain ⟨after, heq, hcases⟩ := ha.withLength.updateContent hij hj
    (allowed_filterInput c.content x) (i + (c.content.filterInput x).length)
    (i + (c.content.filterInput x).length) (decide (c.content.length = 0)) g
  refine ⟨after, ?_, ?_⟩
  · rw [replaceText_eq ha.toSettled hij hj, hforce]
    exact heq
  · rcases hcases with ⟨hsame, haligned⟩ | ⟨hne, haligned, hstarts, hlonger⟩ |
      ⟨hne, rfl, hsound, hstarts, hlen, hredo, haligned⟩
    · have hjoins : c.joins i j x g = false := by
        by_cases hlt : i = j
        · subst hlt
          have : c.content.filterInput x = [] := by
            rw [hsame]
            simp
          simp [joins, this]
        · simp [joins, show ¬ ((i : Int) = j) by omega]
      rw [hjoins]
      exact .unchanged haligned
    · have hjoins : c.joins i j x g = false := by
        have hstarts' : c.startsRecord _ _ c.hasSelection (decide (c.content.length = 0)) g = true :=
          hstarts
        simp [joins, hstarts']
      rw [hjoins]
      exact .begun (spliced_ne hij hne) hlonger haligned
    · have hjoins : c.joins i i x g = true := by
        have hstarts' : c.startsRecord _ _ c.hasSelection (decide (c.content.length = 0)) g = false :=
          hstarts
        have hsome : c.content.filterInput x ≠ [] := by
          simpa using hne
        simp [joins, hstarts', hsome]
      rw [hjoins]
      exact .joined (spliced_ne hij hne) hlen hsound hredo haligned


theorem spliced_middle (l taken put s : Chars) :
    spliced (l ++ taken ++ s) l.length (l.length + taken.length) put = l ++ put ++ s := by
  rw [spliced, append_assoc l taken s, take_left, ← append_assoc l taken s, ← length_append, drop_left]

/-- The text of a record is found where the record says, and another one takes its place. -/
theorem exchange_fits {l taken put s : Chars} (h : Sound c (l ++ taken ++ s))
    (hput : Allowed c.content.strips put) (hsome : taken ≠ [] ∨ put ≠ []) (anchor caret : Int) :
    ∃ (content : Content) (textIsNull : Bool), exchange l.length taken put anchor caret c
        = (.ok (), placed { c with content, textIsNull } (l ++ put ++ s) anchor caret) ∧
      Sound ((placed { c with content, textIsNull } (l ++ put ++ s) anchor
        caret).withSelected (l ++ put ++ s)) (l ++ put ++ s) := by
  obtain ⟨content₁, hdelete, hholds₁, hstrips₁⟩ := h.holds.delete
    (show l.length ≤ l.length + taken.length by omega) (by simp) put.isEmpty
  obtain ⟨content, tn, heq, hsound, -⟩ := exchange_ok h.toSettled hput hsome
    (by simpa using hdelete) hholds₁ hstrips₁ (by simp) anchor caret
  rw [spliced_middle] at heq hsound
  exact ⟨content, tn, heq, hsound⟩

section

variable (ha : Aligned h c text)
include ha

theorem Aligned.flagged : Aligned h (TextInputControl.flagged c) text :=
  { ha.toSound.flagged with back := ha.back, forth := ha.forth, undoable := rfl, redoable := rfl }

theorem Aligned.undo : Step h .undo c (TextInputControl.undo c).1 (TextInputControl.undo c).2 false := by
  refine ⟨fun _ => ?_, by simp⟩
  rcases hchain : c.undoChange with _ | ⟨current, rest⟩
  · have hundoable : c.undoable = false := by simp [ha.undoable, hchain]
    have heq : TextInputControl.undo c = (.ok (), TextInputControl.flagged c) := by
      rw [TextInputControl.undo, hundoable]
      rfl
    rw [heq]
    refine ⟨⟨fun _ => rfl, fun _ hu => ?_, by simp, by simp⟩, text, ?_⟩
    · rw [hundoable] at hu
      cases hu
    · rw [History.after, hundoable]
      exact ha.flagged
  · have hundoable : c.undoable = true := by simp [ha.undoable, hchain]
    obtain ⟨begun, past, hpast, ⟨l, s, rfl, rfl, hstart⟩, hrest⟩ :=
      Back.exists_begun (hchain ▸ ha.back)
    have hcurrent : Recorded c.content.strips current := ha.records current (by simp [hchain])
    obtain ⟨content, tn, hok, hsound⟩ := exchange_fits ha.toSound hcurrent.oldText
      hcurrent.change.symm current.start (current.start + current.oldText.length)
    rw [← hstart] at hok
    rw [undo_ok hundoable hchain hok hsound.holds hsound.null]
    have hchained := Sound.flagged (Sound.withChain hsound
      (fun r (hr : r ∈ rest ++ current :: c.next) => hsound.records r (by
        show r ∈ c.undoChange ++ c.next
        rw [hchain]
        simpa [or_left_comm] using hr)) c.createNewUndoRecord c.undoable c.redoable)
    refine ⟨⟨fun _ => rfl, fun _ _ => ?_, by simp, by simp⟩, l ++ current.oldText ++ s, ?_⟩
    · rw [hpast]
      exact congrArg some hchained.toSettled.shown.symm
    · rw [History.after, hundoable, hpast, ha.toSettled.shown]
      exact { hchained with
        back := hrest
        forth := .record ⟨l, s, rfl, rfl, hstart⟩ ha.forth
        undoable := rfl
        redoable := rfl }

theorem Aligned.redo : Step h .redo c (TextInputControl.redo c).1 (TextInputControl.redo c).2 false := by
  refine ⟨fun _ => ?_, by simp⟩
  rcases hchain : c.next with _ | ⟨current, rest⟩
  · have hredoable : c.redoable = false := by simp [ha.redoable, hchain]
    have heq : TextInputControl.redo c = (.ok (), TextInputControl.flagged c) := by
      rw [TextInputControl.redo, hredoable]
      rfl
    rw [heq]
    refine ⟨⟨fun _ => rfl, by simp, fun _ hr => ?_, by simp⟩, text, ?_⟩
    · rw [hredoable] at hr
      cases hr
    · rw [History.after, hredoable]
      exact ha.flagged
  · have hredoable : c.redoable = true := by simp [ha.redoable, hchain]
    obtain ⟨later, future, hfuture, ⟨l, s, rfl, rfl, hstart⟩, hrest⟩ :=
      Forth.exists_later (hchain ▸ ha.forth)
    have hcurrent : Recorded c.content.strips current := ha.records current (by simp [hchain])
    have hmoved : Sound (chained c (current :: c.undoChange) rest) (l ++ current.oldText ++ s) :=
      ha.toSound.withChain (fun r hr => ha.records r (by
        rw [hchain]
        simpa [or_left_comm] using hr)) c.createNewUndoRecord c.undoable c.redoable
    obtain ⟨content, tn, hok, hsound⟩ := exchange_fits hmoved hcurrent.newText hcurrent.change
      (current.start + current.newText.length) (current.start + current.newText.length)
    rw [← hstart] at hok
    rw [redo_ok hredoable hchain hok hsound.holds hsound.null]
    have hflagged := hsound.flagged
    refine ⟨⟨fun _ => rfl, by simp, fun _ _ => ?_, by simp⟩, l ++ current.newText ++ s, ?_⟩
    · rw [hfuture]
      exact congrArg some hflagged.toSettled.shown.symm
    · rw [History.after, hredoable, hfuture, ha.toSettled.shown]
      exact { hflagged with
        back := .record ⟨l, s, rfl, rfl, hstart⟩ ha.back
        forth := hrest
        undoable := rfl
        redoable := rfl }

theorem Aligned.ranged {g : Grouping} (hundo : e ≠ .undo) (hredo : e ≠ .redo)
    (hin : 0 ≤ start ∧ start ≤ stop ∧ stop ≤ text.length)
    (heq : TextInputControl.edit g e c = TextInputControl.replaceText none start stop x g c)
    (hm : misaligns c g e = (c.redoable && c.joins start stop x g)) :
    Step h e c (TextInputControl.edit g e c).1 (TextInputControl.edit g e c).2 (misaligns c g e) := by
  obtain ⟨i, rfl⟩ : ∃ i : Nat, start = i := ⟨start.toNat, by omega⟩
  obtain ⟨j, rfl⟩ : ∃ j : Nat, stop = j := ⟨stop.toNat, by omega⟩
  obtain ⟨after, hafter, ho⟩ :=
    ha.replaceText (show i ≤ j by omega) (show j ≤ text.length by omega) x g
  rw [hm, heq, hafter]
  exact ho.step ha.toSound hundo hredo (fun _ => rfl)

theorem Aligned.refused (g : Grouping) (hout : ¬ (0 ≤ start ∧ start ≤ stop ∧ stop ≤ text.length)) (x : Chars) :
    Step h (.replaceText start stop x) c (TextInputControl.replaceText none start stop x g c).1
      (TextInputControl.replaceText none start stop x g c).2 false := by
  have hrange : InRange c (.replaceText start stop x) → False := by
    intro hrange
    rw [InRange, ha.toSettled.shown] at hrange
    exact hout hrange
  rw [← Bool.and_false c.redoable]
  obtain ⟨ex, heq | heq⟩ := replaceText_error ha.toSettled hout x g
  · rw [heq]
    exact (Outcome.unchanged ha).step ha.toSound (by simp) (by simp) (fun hr => (hrange hr).elim)
  · rw [heq]
    exact (Outcome.unchanged ha.withLength).step ha.toSound (by simp) (by simp) (fun hr => (hrange hr).elim)

theorem Aligned.paste (g : Grouping) (x : Chars) :
    Step h (.paste x) c (TextInputControl.paste none x g c).1 (TextInputControl.paste none x g c).2 false := by
  have hrange := ha.toSound.selection_range
  obtain ⟨i, hi⟩ : ∃ i : Nat, c.selection.1 = i := ⟨c.selection.1.toNat, by omega⟩
  obtain ⟨j, hj⟩ : ∃ j : Nat, c.selection.2 = j := ⟨c.selection.2.toNat, by omega⟩
  obtain ⟨after, hafter, ho⟩ := (ha.pasting true).replaceText (show i ≤ j by omega) (show j ≤ text.length by omega) x g
  have hselection : TextInputControl.replaceSelection none x g (c.pasting true) = (.ok (), after) := by
    show TextInputControl.replaceText none c.selection.1 c.selection.2 x g (c.pasting true) = _
    rw [hi, hj, hafter]
  have hjoins : (c.pasting true).joins i j x g = false := by
    simp [joins, startsRecord, TextInputControl.pasting]
  rw [hjoins] at ho
  have hfinal : Outcome h c (after.pasting false) text false := by
    cases ho with
    | unchanged ha' => exact .unchanged (ha'.pasting false)
    | begun hne hlonger ha' => exact .begun hne hlonger (ha'.pasting false)
  have hstep := hfinal.step ha.toSound (by simp) (by simp)
    (show InRange c (.paste x) → (.ok () : Except JavaException Unit) = .ok () from fun _ => rfl)
  rw [Bool.and_false] at hstep
  rw [paste_eq, hselection]
  exact hstep

theorem Aligned.selectRange (g : Grouping) (anchor caret : Int) :
    Step h (.selectRange anchor caret) c (TextInputControl.selectRange none anchor caret g c).1
      (TextInputControl.selectRange none anchor caret g c).2 false := by
  obtain ⟨i, hi, heq⟩ := selectRange_eq ha.toSettled anchor caret g
  obtain ⟨after, hafter, hcases⟩ := ha.withLength.updateContent (Nat.le_refl i) hi (x := [])
    (by simp [Allowed]) (clamp 0 anchor text.length) i false g
  have hnil : ([] : Chars) = (text.take i).drop i := by
    simp
  rw [heq, hafter, ← Bool.and_false c.redoable]
  rcases hcases with ⟨-, haligned⟩ | ⟨hne, -⟩ | ⟨hne, -⟩
  · exact (Outcome.unchanged haligned).step ha.toSound (by simp) (by simp) (fun _ => rfl)
  · exact absurd hnil hne
  · exact absurd hnil hne

theorem Aligned.edit (g : Grouping) (e : Edit) :
    Step h e c (TextInputControl.edit g e c).1 (TextInputControl.edit g e c).2 (misaligns c g e) := by
  cases e with
  | replaceText start stop x =>
    by_cases hin : 0 ≤ start ∧ start ≤ stop ∧ stop ≤ text.length
    · refine ha.ranged (by simp) (by simp) hin rfl ?_
      rw [misaligns, ha.holds.length, decide_eq_true hin, Bool.and_true]
    · have hm : misaligns c g (.replaceText start stop x) = false := by
        rw [misaligns, ha.holds.length, decide_eq_false hin, Bool.and_false, Bool.false_and]
      rw [hm]
      exact ha.refused g hin x
  | replaceSelection x =>
    refine ha.ranged (by simp) (by simp) ha.toSound.selection_range ?_ rfl
    exact bind_ok (read_apply _ _)
  | paste x => exact ha.paste g x
  | selectRange anchor caret => exact ha.selectRange g anchor caret
  | undo => exact ha.undo
  | redo => exact ha.redo

/-! ### Runs -/

theorem Aligned.run_iff (steps : List (Edit × Grouping)) : FaithfulRun h c steps ↔ AlignedRun c steps := by
  induction steps generalizing h c text with
  | nil => exact Iff.rfl
  | cons step steps ih =>
    obtain ⟨e, g⟩ := step
    obtain ⟨hkeep, hbreak⟩ := ha.edit g e
    constructor
    · rintro ⟨hfaithful, hrest⟩
      cases hm : misaligns c g e with
      | true => exact absurd hfaithful (hbreak hm)
      | false =>
        obtain ⟨-, text', ha'⟩ := hkeep hm
        exact ⟨hm, (ih ha').mp hrest⟩
    · rintro ⟨hm, hrest⟩
      obtain ⟨hfaithful, text', ha'⟩ := hkeep hm
      exact ⟨hfaithful, (ih ha').mpr hrest⟩

end

theorem Created.aligned (h : Created c) : ∃ text, Aligned ⟨[], []⟩ c text := by
  obtain ⟨d, text, rfl, hsound⟩ := h.sound
  exact ⟨text, { hsound with back := .none _, forth := .none _, undoable := rfl, redoable := rfl }⟩

/-- **Undo and redo are faithful in a run exactly if nothing is added to the current record while
something can be done again.** -/
theorem faithful_iff_aligned (h : Created c) (steps : List (Edit × Grouping)) :
    FaithfulRun ⟨[], []⟩ c steps ↔ AlignedRun c steps := by
  obtain ⟨text, ha⟩ := h.aligned
  exact ha.run_iff steps

theorem faithful_iff_aligned_typing : FaithfulRun ⟨[], []⟩ (textArea (some (Chars.of "a\nb")))
      [(.replaceText 3 3 (Chars.of "c"), ⟨false, false⟩), (.replaceText 4 4 (Chars.of "d"), ⟨false, false⟩),
        (.undo, ⟨false, false⟩), (.redo, ⟨false, false⟩), (.replaceText 1 4 [], ⟨false, true⟩),
        (.undo, ⟨false, false⟩), (.replaceText 0 0 (Chars.of "e\n"), ⟨false, false⟩)] :=
  (faithful_iff_aligned (.inr ⟨_, rfl⟩) _).mpr (by decide +kernel)

/-- `ab` is typed before `cd`, `cd` is deleted and brought back, and `z` is typed after `ab`: the
deletion can still be done again, at positions that are not there any more. -/
theorem typing_keeps_redo : ¬ FaithfulRun ⟨[], []⟩ (textField (some (Chars.of "cd")))
      [(.replaceText 0 0 (Chars.of "ab"), ⟨false, false⟩), (.replaceText 2 4 [], ⟨false, false⟩),
        (.undo, ⟨false, false⟩), (.selectRange 2 2, ⟨false, false⟩),
        (.replaceText 2 2 (Chars.of "z"), ⟨false, false⟩)] := by
  rintro ⟨-, -, -, -, hlast, -⟩
  have hredo := hlast.edited (by simp) (by simp) (by decide +kernel)
  revert hredo
  decide +kernel

end JavaFX.TextInputControl
