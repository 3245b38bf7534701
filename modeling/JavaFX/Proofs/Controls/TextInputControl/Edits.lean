/-
What the edits of a text control do.

`Settled` is what holds of a control between the steps of an operation: the content stands for a
text without characters it would strip, and the length that is kept is the length of that text.
`Sound` adds what holds when the operation is over, of the caret, the anchor and the selection.
-/
import JavaFX.Controls.TextInputControl
import JavaFX.Proofs.Controls.TextContent

namespace JavaFX.TextInputControl

open Content Program List

/-! ### Invariants -/

/-- A record of the chain holds characters of a text. -/
structure Recorded (strips : Bool) (r : UndoRedoChange) : Prop where
  start : 0 ≤ r.start
  oldText : Allowed strips r.oldText
  newText : Allowed strips r.newText
  change : r.oldText ≠ [] ∨ r.newText ≠ []

structure Settled (c : TextInputControl) (text : Chars) : Prop where
  holds : c.content.Holds text
  allowed : Allowed c.content.strips text
  null : c.textIsNull = true → text = []
  length : c.length = none ∨ c.length = some (text.length : Int)
  records : ∀ r ∈ c.undoChange ++ c.next, Recorded c.content.strips r

structure Sound (c : TextInputControl) (text : Chars) : Prop extends Settled c text where
  anchor : 0 ≤ c.anchor ∧ c.anchor ≤ text.length
  caretPosition : 0 ≤ c.caretPosition ∧ c.caretPosition ≤ text.length
  selection : c.selection = (min c.anchor c.caretPosition, max c.anchor c.caretPosition)
  selectedText : c.selectedText = (text.take c.selection.2.toNat).drop c.selection.1.toNat

variable {c : TextInputControl} {text : Chars}

theorem clamp_mem (x : Int) (n : Nat) : 0 ≤ clamp 0 x n ∧ clamp 0 x n ≤ n := by
  unfold clamp
  split
  · omega
  · split <;> omega

/-! ### Reading -/

/-- Reading the length leaves it in the cache. -/
def withLength (c : TextInputControl) (n : Int) : TextInputControl := { c with length := some n }

variable {n : Int} {f : Content → Except JavaException (Content × Bool)} {x taken put : Chars} {textIsNull : Bool}

theorem getLength_cached (h : c.length = some n) : getLength c = (.ok n, c.withLength n) := by
  have hc : c.withLength n = c := by
    cases c
    simp only [withLength] at h ⊢
    rw [h]
  rw [hc, getLength, h]

theorem getLength_computed (hholds : c.content.Holds text) (hnull : c.textIsNull = true → text = [])
    (h : c.length = none) : getLength c = (.ok text.length, c.withLength text.length) := by
  rw [getLength, h]
  by_cases hn : c.textIsNull = true
  · simp [computeLength, hn, hnull hn, withLength]
  · simp [computeLength, hn, hholds.getValue, withLength, Except.map]

theorem Settled.getLength (h : Settled c text) : getLength c = (.ok text.length, c.withLength text.length) := by
  rcases h.length with hnone | hsome
  · exact getLength_computed h.holds h.null hnone
  · exact getLength_cached hsome

theorem Settled.withLength (h : Settled c text) : Settled (c.withLength text.length) text where
  holds := h.holds
  allowed := h.allowed
  null := h.null
  length := .inr rfl
  records := h.records

theorem getText_spec (hholds : c.content.Holds text) (hnull : c.textIsNull = true → text = []) :
    ∃ txt, getText c = (.ok txt, c) ∧ txt.getD [] = text := by
  by_cases hn : c.textIsNull = true
  · exact ⟨none, by simp [getText, hn], by simp [hnull hn]⟩
  · exact ⟨some text, by simp [getText, hn, hholds.getValue, Except.map], rfl⟩

/-- The text of a control; a null text is empty. -/
def shown (c : TextInputControl) : Chars :=
  match (getText c).1 with
  | .ok txt => txt.getD []
  | .error _ => []

theorem Settled.shown (h : Settled c text) : TextInputControl.shown c = text := by
  obtain ⟨txt, htext, htxt⟩ := getText_spec h.holds h.null
  rw [TextInputControl.shown, htext]
  exact htxt

variable {i j : Nat} {content : Content} {text' : Chars} {current : UndoRedoChange} {rest : List UndoRedoChange}

theorem Settled.getTextBetween (h : Settled c text) (hij : i ≤ j) (hj : j ≤ text.length) :
    getTextBetween i j c = (.ok ((text.take j).drop i), c.withLength text.length) := by
  rw [TextInputControl.getTextBetween, if_neg (by omega), bind_ok h.getLength,
    if_neg (by omega), bind_ok (read_apply _ _), lift_apply]
  rw [show (c.withLength text.length).content = c.content from rfl, h.holds.get hij hj]

/-! ### The selection -/

/-- The control with its caret and anchor put down in a text. -/
def placed (c : TextInputControl) (text : Chars) (anchor caretPosition : Int) : TextInputControl :=
  let caretPosition := clamp 0 caretPosition text.length
  let anchor := clamp 0 anchor text.length
  { c with
    length := some (text.length : Int)
    caretPosition := caretPosition
    anchor := anchor
    selection := (min anchor caretPosition, max anchor caretPosition) }

theorem doSelectRange_spec (text : Chars) (anchor caretPosition : Int)
    (h : getLength c = (.ok text.length, c.withLength text.length)) :
    doSelectRange anchor caretPosition c = (.ok (), placed c text anchor caretPosition) := by
  rw [doSelectRange, bind_ok h]
  rfl

/-- The substring that a selection denotes. -/
def withSelected (c : TextInputControl) (text : Chars) : TextInputControl :=
  { c with selectedText := (text.take c.selection.2.toNat).drop c.selection.1.toNat }

theorem updateSelectedText_spec (hholds : c.content.Holds text)
    (hnull : c.textIsNull = true → text = []) (hsel : c.selection = ((i : Int), (j : Int)))
    (hij : i ≤ j) (hj : j ≤ text.length) :
    updateSelectedText c = (.ok (), c.withSelected text) := by
  obtain ⟨txt, htext, htxt⟩ := getText_spec hholds hnull
  rw [updateSelectedText, bind_ok htext]
  cases txt with
  | none =>
    obtain rfl : [] = text := htxt
    simp [withSelected]
  | some txt =>
    obtain rfl : txt = text := htxt
    have hend : ¬ ((j : Int) > (i : Int) + (txt.length : Int)) := by omega
    dsimp only
    rw [bind_ok (read_apply _ _)]
    simp only [hsel, hend]
    by_cases hi : (i : Int) > (txt.length : Int) - 1
    · -- A selection at the end of the text is empty.
      have hempty : (txt.take j).drop i = [] := drop_eq_nil_of_le (by simp; omega)
      have hsub : StringBuilder.substring txt 0 0 = .ok [] := by
        have := StringBuilder.substring_ofNat (s := txt) (Nat.le_refl 0) (Nat.zero_le _)
        simpa using this
      simp only [hi, if_true, hsub]
      rw [bind_ok (lift_apply _ _)]
      simp [withSelected, hsel, hempty]
    · simp only [hi, if_false]
      rw [StringBuilder.substring_ofNat hij hj, bind_ok (lift_apply _ _)]
      simp [withSelected, hsel]


/-- A caret and an anchor that have been put down are inside the text. -/
theorem placed_selection (c : TextInputControl) (text : Chars) (anchor caretPosition : Int) :
    ∃ i j : Nat, (placed c text anchor caretPosition).selection = ((i : Int), (j : Int)) ∧ i ≤ j ∧
      j ≤ text.length := by
  have ha := clamp_mem anchor text.length
  have hb := clamp_mem caretPosition text.length
  refine ⟨(min (clamp 0 anchor text.length) (clamp 0 caretPosition text.length)).toNat,
    (max (clamp 0 anchor text.length) (clamp 0 caretPosition text.length)).toNat, ?_, ?_, ?_⟩
  · simp only [placed, Prod.mk.injEq]
    omega
  · omega
  · omega

/-- The end of every exchange: the caret is put down and the selected text is read. -/
theorem placed_sound (hholds : c.content.Holds text) (hallowed : Allowed c.content.strips text)
    (hnull : c.textIsNull = true → text = [])
    (hrecords : ∀ r ∈ c.undoChange ++ c.next, Recorded c.content.strips r)
    (anchor caretPosition : Int) :
    Sound ((placed c text anchor caretPosition).withSelected text) text where
  holds := hholds
  allowed := hallowed
  null := hnull
  length := .inr rfl
  records := hrecords
  anchor := clamp_mem anchor text.length
  caretPosition := clamp_mem caretPosition text.length
  selection := rfl
  selectedText := rfl

theorem updateSelectedText_placed (hholds : c.content.Holds text)
    (hnull : c.textIsNull = true → text = []) (anchor caretPosition : Int) :
    updateSelectedText (placed c text anchor caretPosition)
      = (.ok (), (placed c text anchor caretPosition).withSelected text) := by
  obtain ⟨i, j, hsel, hij, hj⟩ := placed_selection c text anchor caretPosition
  exact updateSelectedText_spec hholds hnull hsel hij hj

theorem Sound.updateSelectedText (h : Sound c text) : TextInputControl.updateSelectedText c = (.ok (), c) := by
  have ha := h.anchor
  have hb := h.caretPosition
  have hsel : c.selection = (((min c.anchor c.caretPosition).toNat : Int),
      ((max c.anchor c.caretPosition).toNat : Int)) := by
    rw [h.selection, Prod.mk.injEq]
    omega
  rw [updateSelectedText_spec h.holds h.null hsel (by omega) (by omega)]
  have hself : c.withSelected text = c := by
    cases c
    simp only [withSelected, TextInputControl.mk.injEq, true_and, and_true]
    exact h.selectedText.symm
  rw [hself]

/-! ### Exchanging text -/

/-- The control with another content, whose listeners have been told. -/
def withContent (c : TextInputControl) (content : Content) (told : Bool) : TextInputControl :=
  if told then contentHasChanged { c with content } else { c with content }

@[simp] theorem withContent_content (c : TextInputControl) (content : Content) (told : Bool) :
    (c.withContent content told).content = content := by
  cases told <;> rfl

/-- Only the content, what is kept of its length and whether the text is null have changed. -/
theorem withContent_eq (c : TextInputControl) (content : Content) (told : Bool) :
    ∃ textIsNull, c.withContent content told
        = { c with content, textIsNull, length := if told then none else c.length } ∧
      (textIsNull = true → c.textIsNull = true ∧ (told = true → content.length ≤ 0)) := by
  cases told with
  | false => exact ⟨c.textIsNull, rfl, fun h => ⟨h, by simp⟩⟩
  | true =>
    refine ⟨if content.length > 0 then false else c.textIsNull, rfl, ?_⟩
    split
    · simp
    · next h => exact fun hn => ⟨hn, fun _ => by omega⟩

theorem withContent_twice (c : TextInputControl) (content content' : Content) (told told' : Bool) :
    ∃ textIsNull, (c.withContent content told).withContent content' told' = { c with
        content := content', textIsNull, length := if told || told' then none else c.length } ∧
      (textIsNull = true → c.textIsNull = true ∧ (told' = true → content'.length ≤ 0)) := by
  obtain ⟨tn, heq, hnull⟩ := withContent_eq c content told
  obtain ⟨tn', heq', hnull'⟩ := withContent_eq (c.withContent content told) content' told'
  refine ⟨tn', ?_, ?_⟩
  · rw [heq']
    cases told <;> cases told' <;> rfl
  · intro h
    have h' := hnull' h
    rw [heq] at h'
    exact ⟨(hnull h'.1).1, h'.2⟩

theorem onContent_ok {told : Bool} (h : f c.content = .ok (content, told)) :
    onContent f c = (.ok (), c.withContent content told) := by
  rw [onContent, h]
  rfl

theorem onContent_error {e : JavaException} (h : f c.content = .error e) : onContent f c = (.error e, c) := by
  rw [onContent, h]

theorem deleteRange_spec (hholds : c.content.Holds text) (hij : i ≤ j)
    (hj : j ≤ text.length) (value : Chars) (n : Int) :
    ∃ content, deleteRange i j value n c
        = (.ok (n - (j - i)), c.withContent content (value.isEmpty && decide (i < j))) ∧
      content.Holds (text.take i ++ text.drop j) ∧ content.strips = c.content.strips := by
  by_cases hlt : i < j
  · obtain ⟨content, hdelete, hholds', hstrips⟩ := hholds.delete hij hj value.isEmpty
    refine ⟨content, ?_, hholds', hstrips⟩
    rw [deleteRange, if_pos (by omega), bind_ok (onContent_ok hdelete)]
    rfl
  · obtain rfl : i = j := by omega
    refine ⟨c.content, ?_, by simpa using hholds, rfl⟩
    rw [deleteRange]
    simp [withContent]

/-- What an exchange comes to if somebody is told about it: a text that is put in place of another
one must not be stripped as a whole.  The length that is read at the beginning, right or wrong,
only shows in the result and in where the caret goes. -/
theorem replaceRange_spec (hholds : c.content.Holds text) (hallowed : Allowed c.content.strips text)
    (hrecords : ∀ r ∈ c.undoChange ++ c.next, Recorded c.content.strips r) (hij : i ≤ j)
    (hj : j ≤ text.length) (value : Chars)
    (hvalue : i < j → value = [] ∨ c.content.filterInput value ≠ [])
    (hnull : c.textIsNull = true → c.content.filterInput value = [] →
      text.take i ++ text.drop j = []) (hlength : getLength c = (.ok n, c.withLength n))
    (hn : i = j → c.content.filterInput value = [] → n = text.length) (anchor caret : Int) :
    ∃ (content : Content) (textIsNull : Bool) (text' : Chars) (adjustment : Int),
      text' = text.take i ++ c.content.filterInput value ++ text.drop j ∧
      adjustment = value.length - (text'.length - (n - (j - i))) ∧
      replaceRange i j value anchor caret c
        = (.ok adjustment, (placed { c with content, textIsNull } text' (anchor - adjustment)
            (caret - adjustment)).withSelected text') ∧
      Sound ((placed { c with content, textIsNull } text' (anchor - adjustment)
        (caret - adjustment)).withSelected text') text' ∧
      content.strips = c.content.strips := by
  obtain ⟨content₁, hdelete, hholds₁, hstrips₁⟩ :=
    deleteRange_spec (c := c.withLength n) hholds hij hj value n
  have hi : i ≤ (text.take i ++ text.drop j).length := by simp; omega
  obtain ⟨content₂, hinsert, hholds₂, hstrips₂⟩ := hholds₁.insert hi value true
  have hfilter : content₁.filterInput value = c.content.filterInput value := by
    rw [Content.filterInput, hstrips₁]
    rfl
  have htext : (text.take i ++ text.drop j).take i ++ content₁.filterInput value ++ (text.take i ++ text.drop j).drop i
        = text.take i ++ c.content.filterInput value ++ text.drop j := by
    have hlen : (text.take i).length = i := by simp; omega
    rw [hfilter, take_left' hlen, drop_left' hlen]
  rw [htext] at hholds₂
  rw [hfilter] at hinsert
  obtain ⟨tn, hstate, htn⟩ := withContent_twice (c.withLength n) content₁ content₂
    (value.isEmpty && decide (i < j)) (true && !(c.content.filterInput value).isEmpty)
  generalize htext' : text.take i ++ c.content.filterInput value ++ text.drop j = text' at *
  have hstrips : content₂.strips = c.content.strips := hstrips₂.trans hstrips₁
  have hnull' : tn = true → text' = [] := by
    intro htrue
    obtain ⟨hc, hlen⟩ := htn htrue
    by_cases hx : c.content.filterInput value = []
    · rw [← htext', hx]
      simpa using hnull hc hx
    · have := hlen (by simp [hx])
      rw [hholds₂.length] at this
      exact List.length_eq_zero_iff.mp (by omega)
  have hallowed' : Allowed c.content.strips text' := by
    intro a ha
    rw [← htext', mem_append, mem_append] at ha
    rcases ha with (ha | ha) | ha
    · exact hallowed a (mem_of_mem_take ha)
    · exact allowed_filterInput c.content value a ha
    · exact hallowed a (mem_of_mem_drop ha)
  have hread : getLength ((c.withLength n).withContent content₁ (value.isEmpty && decide (i < j))
        |>.withContent content₂ (true && !(c.content.filterInput value).isEmpty))
      = (.ok text'.length, ({ c with content := content₂, textIsNull := tn } : TextInputControl)
          |>.withLength text'.length) := by
    rw [hstate]
    by_cases htold : (value.isEmpty && decide (i < j) ||
        (true && !(c.content.filterInput value).isEmpty)) = true
    · rw [htold]
      exact getLength_computed hholds₂ hnull' rfl
    · simp only [Bool.or_eq_true, Bool.and_eq_true, List.isEmpty_iff, decide_eq_true_eq,
        Bool.not_eq_true', true_and, not_or, not_and, Bool.not_eq_false] at htold
      have hsame : i = j := by
        rcases Nat.lt_or_ge i j with hlt | hge
        · rcases hvalue hlt with hv | hx
          · exact absurd hlt (htold.1 hv)
          · exact absurd htold.2 hx
        · omega
      have hlen : (text'.length : Int) = n := by
        rw [hn hsame htold.2, ← htext', htold.2, hsame]
        simp
      rw [hlen]
      simp [htold.2, hsame, getLength, withLength]
  refine ⟨content₂, tn, text', value.length - (text'.length - (n - (j - i))), rfl, rfl,
    ?_, placed_sound hholds₂ (hstrips ▸ hallowed') hnull' (hstrips ▸ hrecords) _ _, hstrips⟩
  refine tryFinally_apply ?_ (updateSelectedText_placed hholds₂ hnull' _ _)
  rw [bind_ok hlength, bind_ok hdelete, bind_ok (onContent_ok (by rw [withContent_content]; exact hinsert)),
    bind_ok hread]
  rfl


/-! ### Edits -/

/-- A range of a text with another text in its place. -/
def spliced (text : Chars) (i j : Nat) (x : Chars) : Chars := text.take i ++ x ++ text.drop j

/-- The control after its records have been brought up to date. -/
def flagged (c : TextInputControl) : TextInputControl :=
  { c with undoable := !c.undoChange.isEmpty, redoable := !c.next.isEmpty }

def hasSelection (c : TextInputControl) : Bool := decide (c.selection.2 - c.selection.1 > 0)

/-- The change of an edit of `[i, j)`, and what becomes of the chain. -/
def recorded (c : TextInputControl) (text : Chars) (change : Change) (i j : Nat)
    (nonEmptySelection force : Bool) (g : Grouping) : TextInputControl :=
  if change.text = (text.take j).drop i then c
  else flagged (recordChange change ((text.take j).drop i) change.text nonEmptySelection force g c)

theorem updateContent_spec (h : Settled c text) (hij : i ≤ j) (hj : j ≤ text.length)
    (hx : Allowed c.content.strips x) (anchor caret : Int) (force : Bool)
    (g : Grouping) :
    ∃ (content : Content) (textIsNull : Bool), updateContent ⟨i, j, x, anchor, caret⟩ force g c
        = (.ok (), recorded ((placed { c with content, textIsNull } (spliced text i j x) anchor
            caret).withSelected (spliced text i j x)) text ⟨i, j, x, anchor, caret⟩ i j
            c.hasSelection force g) ∧
      Sound ((placed { c with content, textIsNull } (spliced text i j x) anchor
        caret).withSelected (spliced text i j x)) (spliced text i j x) ∧
      content.strips = c.content.strips := by
  have hfilter : c.content.filterInput x = x := filterInput_of_allowed hx
  have hw := h.withLength
  obtain ⟨content, tn, text', adjustment, htext', hadj, hreplace, hsound, hstrips⟩ :=
    replaceRange_spec hw.holds hw.allowed hw.records hij hj x (fun _ => by
        rcases x with _ | ⟨a, x⟩
        · exact .inl rfl
        · exact .inr (by rw [show (c.withLength text.length).content = c.content from rfl, hfilter]; simp))
      (fun hnull _ => by simp [h.null hnull])
      (getLength_cached rfl) (fun _ _ => rfl) anchor caret
  rw [show (c.withLength text.length).content = c.content from rfl, hfilter] at htext'
  obtain rfl : text' = spliced text i j x := htext'
  have hlen : (spliced text i j x).length = i + x.length + (text.length - j) := by
    simp [spliced]
    omega
  obtain rfl : adjustment = 0 := by
    omega
  simp only [sub_zero] at hreplace hsound
  refine ⟨content, tn, ?_, hsound, hstrips⟩
  -- Reading the text that has come in, from the text after the edit.
  have hnew : getTextBetween i (i + x.length - 0) ((placed { c with content := content, textIsNull := tn }
        (spliced text i j x) anchor caret).withSelected (spliced text i j x))
      = (.ok x, (placed { c with content := content, textIsNull := tn } (spliced text i j x) anchor
          caret).withSelected (spliced text i j x)) := by
    have hget := hsound.toSettled.getTextBetween (i := i) (j := i + x.length) (by omega) (by rw [hlen]; omega)
    have hmid : ((spliced text i j x).take (i + x.length)).drop i = x := by
      have htake : (text.take i).length = i := by simp; omega
      rw [spliced, append_assoc, drop_take, drop_left' htake]
      simp
    rw [hmid] at hget
    exact hget
  rw [updateContent, bind_ok (read_apply _ _), bind_ok (h.getTextBetween hij hj), bind_ok hreplace]
  refine (bind_ok hnew).trans ?_
  rw [recorded]
  split
  · rfl
  · rfl


theorem recordChange_records {change : Change} {oldText newText : Chars} {strips : Bool}
    (hstart : 0 ≤ change.start) (hle : change.start ≤ change.end)
    (hold : Allowed strips oldText) (hnew : Allowed strips newText) (hne : newText ≠ oldText)
    (nonEmptySelection force : Bool) (g : Grouping)
    (h : ∀ r ∈ c.undoChange ++ c.next, Recorded strips r) :
    ∀ r ∈ (recordChange change oldText newText nonEmptySelection force g c).undoChange ++
      (recordChange change oldText newText nonEmptySelection force g c).next, Recorded strips r := by
  have hchange : oldText ≠ [] ∨ newText ≠ [] := by
    by_cases ho : oldText = []
    · exact .inr (ho ▸ hne)
    · exact .inl ho
  have hrecord : Recorded strips ⟨change.start, oldText, newText⟩ := ⟨hstart, hold, hnew, hchange⟩
  unfold recordChange
  split
  · intro r hr
    rcases List.mem_cons.mp (by simpa using hr) with rfl | hr
    · exact hrecord
    · exact h r (List.mem_append.mpr (.inl hr))
  · next hstarts =>
      rcases hchain : c.undoChange with _ | ⟨current, rest⟩
      · simpa using h
      · -- A range that is not empty would have started a record.
        have hsame : change.start = change.end := by
          by_contra hc
          apply hstarts
          simp only [startsRecord, Bool.or_eq_true]
          exact .inr (by simpa using (by omega : change.start < change.end))
        have hcurrent : Recorded strips current := h current (by simp [hchain])
        simp only [hsame, ne_eq, not_true_eq_false, false_and, if_false]
        intro r hr
        rw [cons_append, mem_cons] at hr
        rcases hr with rfl | hr
        · refine ⟨hcurrent.start, hcurrent.oldText, ?_, ?_⟩
          · intro a ha
            rcases List.mem_append.mp ha with ha | ha
            · exact hcurrent.newText a ha
            · exact hnew a ha
          · rcases hcurrent.change with ho | hn
            · exact .inl ho
            · exact .inr (by simp [hn])
        · exact h r (by rw [hchain]; exact mem_cons_of_mem _ hr)

theorem recordChange_eq (change : Change) (oldText newText : Chars)
    (nonEmptySelection force : Bool) (g : Grouping) (c : TextInputControl) :
    ∃ undoChange next, recordChange change oldText newText nonEmptySelection force g c
      = { c with undoChange, next } := by
  unfold recordChange
  split
  · exact ⟨_, _, rfl⟩
  · split
    · exact ⟨c.undoChange, c.next, rfl⟩
    · split
      · split
        · exact ⟨_, _, rfl⟩
        · split <;> exact ⟨_, _, rfl⟩
      · exact ⟨_, _, rfl⟩

theorem Sound.withChain (h : Sound c text) {undoChange next : List UndoRedoChange}
    (hrecords : ∀ r ∈ undoChange ++ next, Recorded c.content.strips r)
    (createNewUndoRecord undoable redoable : Bool) :
    Sound { c with undoChange, next, createNewUndoRecord, undoable, redoable } text :=
  { holds := h.holds, allowed := h.allowed, null := h.null, length := h.length,
    records := hrecords, anchor := h.anchor, caretPosition := h.caretPosition,
    selection := h.selection, selectedText := h.selectedText }

theorem Sound.withLength (h : Sound c text) : Sound (c.withLength text.length) text :=
  { h.toSettled.withLength with
    anchor := h.anchor, caretPosition := h.caretPosition, selection := h.selection,
    selectedText := h.selectedText }

theorem recorded_sound (h : Sound c text') (change : Change)
    (hstart : change.start = i) (hend : change.end = j) (hij : i ≤ j)
    (hold : Allowed c.content.strips text) (hnew : Allowed c.content.strips change.text)
    (nonEmptySelection force : Bool) (g : Grouping) :
    Sound (recorded c text change i j nonEmptySelection force g) text' := by
  unfold recorded
  split
  · exact h
  · next hne =>
      have hold' : Allowed c.content.strips ((text.take j).drop i) := fun a ha =>
        hold a (mem_of_mem_take (mem_of_mem_drop ha))
      have hrecords := recordChange_records (show 0 ≤ change.start by omega)
        (show change.start ≤ change.end by omega) hold' hnew hne
        nonEmptySelection force g h.records
      obtain ⟨undoChange, next, heq⟩ := recordChange_eq change ((text.take j).drop i) change.text
        nonEmptySelection force g c
      rw [heq] at hrecords ⊢
      exact h.withChain hrecords c.createNewUndoRecord (!undoChange.isEmpty) (!next.isEmpty)

theorem Sound.updateContent (h : Sound c text) (hij : i ≤ j) (hj : j ≤ text.length)
    (hx : Allowed c.content.strips x) (anchor caret : Int) (force : Bool)
    (g : Grouping) :
    (TextInputControl.updateContent ⟨i, j, x, anchor, caret⟩ force g c).1 = .ok () ∧
      Sound (TextInputControl.updateContent ⟨i, j, x, anchor, caret⟩ force g c).2 (spliced text i j x) := by
  obtain ⟨content, tn, heq, hsound, hstrips⟩ :=
    updateContent_spec h.toSettled hij hj hx anchor caret force g
  rw [heq]
  refine ⟨rfl, recorded_sound hsound _ rfl rfl hij ?_ ?_ _ _ _⟩
  · show Allowed content.strips text
    rw [hstrips]
    exact h.allowed
  · show Allowed content.strips x
    rw [hstrips]
    exact hx

theorem replaceText_eq (h : Settled c text) (hij : i ≤ j) (hj : j ≤ text.length) (x : Chars) (g : Grouping) :
    replaceText none i j x g c = TextInputControl.updateContent
      ⟨i, j, c.content.filterInput x, i + (c.content.filterInput x).length,
        i + (c.content.filterInput x).length⟩ (decide ((text.length : Int) = 0)) g
      (c.withLength text.length) := by
  rw [replaceText, if_neg (by omega), bind_ok h.getLength, if_neg (by omega)]
  rfl

theorem replaceText_error (h : Settled c text) {start stop : Int}
    (hout : ¬ (0 ≤ start ∧ start ≤ stop ∧ stop ≤ text.length)) (x : Chars) (g : Grouping) :
    ∃ e, replaceText none start stop x g c = (.error e, c) ∨
      replaceText none start stop x g c = (.error e, c.withLength text.length) := by
  rw [replaceText]
  by_cases hlt : start > stop
  · rw [if_pos hlt]
    exact ⟨_, .inl rfl⟩
  · rw [if_neg hlt, bind_ok h.getLength, if_pos (by omega)]
    exact ⟨_, .inr rfl⟩

theorem Sound.replaceText (h : Sound c text) (start stop : Int) (x : Chars) (g : Grouping) :
    ∃ text', Sound (TextInputControl.replaceText none start stop x g c).2 text' := by
  by_cases hin : 0 ≤ start ∧ start ≤ stop ∧ stop ≤ text.length
  · obtain ⟨i, rfl⟩ : ∃ i : Nat, start = i := ⟨start.toNat, by omega⟩
    obtain ⟨j, rfl⟩ : ∃ j : Nat, stop = j := ⟨stop.toNat, by omega⟩
    rw [replaceText_eq h.toSettled (by omega) (by omega)]
    exact ⟨_, (h.withLength.updateContent (by omega) (by omega) (allowed_filterInput c.content x) _ _ _ g).2⟩
  · obtain ⟨e, heq | heq⟩ := replaceText_error h.toSettled hin x g
    · exact ⟨text, heq ▸ h⟩
    · exact ⟨text, heq ▸ h.withLength⟩


theorem Sound.selection_range (h : Sound c text) :
    0 ≤ c.selection.1 ∧ c.selection.1 ≤ c.selection.2 ∧ c.selection.2 ≤ text.length := by
  have ha := h.anchor
  have hb := h.caretPosition
  rw [h.selection]
  omega

theorem Sound.replaceSelection (h : Sound c text) (x : Chars) (g : Grouping) :
    ∃ text', Sound (TextInputControl.replaceSelection none x g c).2 text' := by
  exact h.replaceText _ _ x g

/-- The flag of `paste` while it is at work. -/
def pasting (c : TextInputControl) (b : Bool) : TextInputControl := { c with createNewUndoRecord := b }

theorem Sound.pasting (h : Sound c text) (b : Bool) : Sound (c.pasting b) text :=
  h.withChain h.records b c.undoable c.redoable

theorem paste_eq (c : TextInputControl) (x : Chars) (g : Grouping) :
    paste none x g c = ((replaceSelection none x g (c.pasting true)).1,
      (replaceSelection none x g (c.pasting true)).2.pasting false) := by
  rw [paste]
  exact tryFinally_apply rfl (modify_apply _ _)

theorem Sound.paste (h : Sound c text) (x : Chars) (g : Grouping) :
    ∃ text', Sound (TextInputControl.paste none x g c).2 text' := by
  obtain ⟨text', hsound⟩ := (h.pasting true).replaceSelection x g
  exact ⟨text', hsound.pasting false⟩

/-- A move of the caret is an edit that changes nothing. -/
theorem selectRange_eq (h : Settled c text) (anchor caret : Int) (g : Grouping) :
    ∃ i : Nat, i ≤ text.length ∧ selectRange none anchor caret g c
      = TextInputControl.updateContent ⟨i, i, [], clamp 0 anchor text.length, i⟩ false g
          (c.withLength text.length) := by
  have hmem := clamp_mem caret text.length
  refine ⟨(clamp 0 caret text.length).toNat, by omega, ?_⟩
  rw [selectRange, bind_ok h.getLength, Int.toNat_of_nonneg hmem.1]

theorem Sound.selectRange (h : Sound c text) (anchor caret : Int) (g : Grouping) :
    (TextInputControl.selectRange none anchor caret g c).1 = .ok () ∧
      Sound (TextInputControl.selectRange none anchor caret g c).2 text := by
  obtain ⟨i, hi, heq⟩ := selectRange_eq h.toSettled anchor caret g
  obtain ⟨hok, hsound⟩ := h.withLength.updateContent (Nat.le_refl i) hi (x := []) (by simp [Allowed])
    (clamp 0 anchor text.length) i false g
  rw [heq]
  refine ⟨hok, ?_⟩
  simpa [spliced] using hsound

/-! ### Undo and redo -/

theorem exchange_ok (h : Settled c text)
    (hput : Allowed c.content.strips put) (hsome : taken ≠ [] ∨ put ≠ []) {content₁ : Content}
    (hdelete : c.content.delete i (i + taken.length) put.isEmpty
      = .ok (content₁, put.isEmpty && decide (i < i + taken.length)))
    (hholds₁ : content₁.Holds (text.take i ++ text.drop j))
    (hstrips₁ : content₁.strips = c.content.strips) (hi : i ≤ text.length)
    (anchor caret : Int) :
    ∃ (content : Content) (textIsNull : Bool), exchange i taken put anchor caret c
        = (.ok (), placed { c with content, textIsNull } (spliced text i j put) anchor caret) ∧
      Sound ((placed { c with content, textIsNull } (spliced text i j put) anchor
        caret).withSelected (spliced text i j put)) (spliced text i j put) ∧
      content.strips = c.content.strips := by
  have hlen : (text.take i).length = i := by simp; omega
  obtain ⟨content₂, hinsert, hholds₂, hstrips₂⟩ :=
    hholds₁.insert (i := i) (by simp; omega) put true
  have hfilter : content₁.filterInput put = put := filterInput_of_allowed (hstrips₁ ▸ hput)
  rw [hfilter, take_left' hlen, drop_left' hlen] at hholds₂
  rw [hfilter] at hinsert
  obtain ⟨tn, hstate, htn⟩ := withContent_twice c content₁ content₂
    (put.isEmpty && decide (i < i + taken.length)) (true && !put.isEmpty)
  have hstrips : content₂.strips = c.content.strips := hstrips₂.trans hstrips₁
  -- One of the two steps has told the listeners.
  have htold : (put.isEmpty && decide (i < i + taken.length) || (true && !put.isEmpty)) = true := by
    by_cases hempty : put = []
    · have htaken : 0 < taken.length := by
        rcases hsome with ht | hp
        · exact List.length_pos_iff.mpr ht
        · exact absurd hempty hp
      simp [htaken]
    · simp [hempty]
  have hnull : tn = true → spliced text i j put = [] := by
    intro htrue
    obtain ⟨hc, hle⟩ := htn htrue
    by_cases hempty : put = []
    · simp [spliced, hempty, h.null hc]
    · have := hle (by simp [hempty])
      rw [hholds₂.length] at this
      exact List.length_eq_zero_iff.mp (by simp only [spliced]; omega)
  have hallowed : Allowed content₂.strips (spliced text i j put) := by
    rw [hstrips]
    intro a ha
    rw [spliced, mem_append, mem_append] at ha
    rcases ha with (ha | ha) | ha
    · exact h.allowed a (mem_of_mem_take ha)
    · exact hput a ha
    · exact h.allowed a (mem_of_mem_drop ha)
  refine ⟨content₂, tn, ?_, placed_sound hholds₂ hallowed hnull (hstrips ▸ h.records) _ _, hstrips⟩
  rw [exchange, bind_ok (onContent_ok hdelete),
    bind_ok (onContent_ok (by rw [withContent_content]; exact hinsert)), hstate, htold]
  exact doSelectRange_spec _ anchor caret (getLength_computed hholds₂ hnull rfl)

theorem exchange_any (h : Settled c text)
    (hput : Allowed c.content.strips put) (hsome : taken ≠ [] ∨ put ≠ []) (anchor caret : Int) :
    (∃ e, exchange i taken put anchor caret c = (.error e, c)) ∨
      ∃ (content : Content) (textIsNull : Bool) (text' : Chars), exchange i taken put anchor caret c
          = (.ok (), placed { c with content, textIsNull } text' anchor caret) ∧
        Sound ((placed { c with content, textIsNull } text' anchor caret).withSelected text') text' ∧
        content.strips = c.content.strips := by
  rcases h.holds.delete_any (show i ≤ i + taken.length by omega) put.isEmpty with
    ⟨e, hdelete⟩ | ⟨content₁, j, hdelete, hholds₁, hstrips₁, hij, hin, hsame⟩
  · refine .inl ⟨e, ?_⟩
    exact bind_error (onContent_error (by simpa using hdelete))
  · by_cases hi : i ≤ text.length
    · obtain ⟨content, tn, heq, hsound, hstrips⟩ := exchange_ok h hput hsome
        (by simpa using hdelete) hholds₁ hstrips₁ hi anchor caret
      exact .inr ⟨content, tn, _, heq, hsound, hstrips⟩
    · -- Nothing was to be taken out, so there is something to be put in, outside the text.
      have htaken : taken = [] := by
        by_contra hne
        have := List.length_pos_iff.mpr hne
        exact hi (hin (by omega))
      subst htaken
      have hne : put ≠ [] := hsome.resolve_left (by simp)
      obtain ⟨e, hinsert⟩ := h.holds.insert_outside (i := i) (by omega) put true
        (by rw [filterInput_of_allowed hput]; exact hne)
      refine .inl ⟨e, ?_⟩
      have hkept : c.content.delete i (i + ([] : Chars).length) put.isEmpty = .ok (c.content, false) := by
        have hcontent := Content.delete_nothing (by simpa using hdelete)
        rw [hcontent] at hdelete
        simpa using hdelete
      rw [exchange, bind_ok (onContent_ok hkept)]
      exact bind_error (onContent_error hinsert)

/-- The control at another place of its chain. -/
def chained (c : TextInputControl) (undoChange next : List UndoRedoChange) : TextInputControl :=
  { c with undoChange, next }

theorem undo_eq (hundoable : c.undoable = true) (hchain : c.undoChange = current :: rest) :
    undo c = (Program.tryFinally
      (exchange current.start current.newText current.oldText current.start
          (current.start + current.oldText.length) >>= fun _ =>
        Program.modify fun c => chained c rest (current :: c.next))
      updateSelectedText >>= fun _ => updateUndoRedoState) c := by
  rw [undo, hundoable, hchain]
  rfl

theorem redo_eq (hredoable : c.redoable = true) (hchain : c.next = current :: rest) : redo c = (Program.tryFinally
      (exchange current.start current.oldText current.newText
        (current.start + current.newText.length) (current.start + current.newText.length))
      updateSelectedText >>= fun _ => updateUndoRedoState) (chained c (current :: c.undoChange) rest) := by
  rw [redo]
  split
  · next h =>
      rw [hchain] at h
      obtain ⟨rfl, rfl⟩ := List.cons_eq_cons.mp h
      exact bind_ok (modify_apply _ _)
  · next h => exact absurd hchain (h _ _ hredoable)

theorem undo_ok (hundoable : c.undoable = true) (hchain : c.undoChange = current :: rest)
    (hok : exchange current.start current.newText current.oldText current.start
        (current.start + current.oldText.length) c
      = (.ok (), placed { c with content, textIsNull } text' current.start (current.start + current.oldText.length)))
    (hholds : content.Holds text') (hnull : textIsNull = true → text' = []) :
    undo c = (.ok (), flagged ((placed (chained { c with content, textIsNull } rest
      (current :: c.next)) text' current.start (current.start + current.oldText.length)).withSelected text')) := by
  have hlast := updateSelectedText_placed (c := chained { c with content, textIsNull } rest (current :: c.next))
    hholds hnull current.start (current.start + current.oldText.length)
  rw [undo_eq hundoable hchain]
  exact bind_ok (tryFinally_apply ((bind_ok hok).trans (modify_apply _ _)) hlast)

theorem redo_ok (hredoable : c.redoable = true) (hchain : c.next = current :: rest)
    (hok : exchange current.start current.oldText current.newText
        (current.start + current.newText.length) (current.start + current.newText.length)
        (chained c (current :: c.undoChange) rest)
      = (.ok (), placed (chained { c with content, textIsNull } (current :: c.undoChange) rest)
          text' (current.start + current.newText.length) (current.start + current.newText.length)))
    (hholds : content.Holds text') (hnull : textIsNull = true → text' = []) :
    redo c = (.ok (), flagged ((placed (chained { c with content, textIsNull } (current :: c.undoChange) rest) text'
        (current.start + current.newText.length)
        (current.start + current.newText.length)).withSelected text')) := by
  have hlast := updateSelectedText_placed (c := chained { c with content, textIsNull } (current :: c.undoChange) rest)
    hholds hnull (current.start + current.newText.length) (current.start + current.newText.length)
  rw [redo_eq hredoable hchain]
  exact bind_ok (tryFinally_apply hok hlast)

theorem Sound.flagged (h : Sound c text) : Sound (TextInputControl.flagged c) text :=
  h.withChain h.records c.createNewUndoRecord _ _

theorem Sound.undo (h : Sound c text) : ∃ text', Sound (TextInputControl.undo c).2 text' := by
  by_cases hcan : c.undoable = true ∧ c.undoChange ≠ []
  · obtain ⟨hundoable, hne⟩ := hcan
    obtain ⟨current, rest, hchain⟩ := exists_cons_of_ne_nil hne
    have hcurrent : Recorded c.content.strips current := h.records current (by simp [hchain])
    obtain ⟨i, hi⟩ : ∃ i : Nat, current.start = i :=
      ⟨current.start.toNat, (Int.toNat_of_nonneg hcurrent.start).symm⟩
    rcases exchange_any h.toSettled hcurrent.oldText hcurrent.change.symm current.start
      (current.start + current.oldText.length) with
      ⟨e, hfail⟩ | ⟨content, tn, text', hok, hsound, hstrips⟩
    · refine ⟨text, ?_⟩
      rw [← hi] at hfail
      rw [undo_eq hundoable hchain, bind_error (tryFinally_apply (bind_error hfail) h.updateSelectedText)]
      exact h
    · refine ⟨text', ?_⟩
      rw [← hi] at hok
      rw [undo_ok hundoable hchain hok hsound.holds hsound.null]
      refine Sound.flagged (Sound.withChain hsound ?_ c.createNewUndoRecord c.undoable c.redoable)
      intro r hr
      apply hsound.records r
      show r ∈ c.undoChange ++ c.next
      change r ∈ rest ++ current :: c.next at hr
      rw [hchain]
      simpa [or_left_comm] using hr
  · refine ⟨text, ?_⟩
    have heq : TextInputControl.undo c = updateUndoRedoState c := by
      unfold TextInputControl.undo
      split
      · next hundoable hchain => exact absurd ⟨hundoable, by simp [hchain]⟩ hcan
      · rfl
    rw [heq]
    exact h.flagged

theorem Sound.redo (h : Sound c text) : ∃ text', Sound (TextInputControl.redo c).2 text' := by
  by_cases hcan : c.redoable = true ∧ c.next ≠ []
  · obtain ⟨hredoable, hne⟩ := hcan
    obtain ⟨current, rest, hchain⟩ := exists_cons_of_ne_nil hne
    have hcurrent : Recorded c.content.strips current := h.records current (by simp [hchain])
    obtain ⟨i, hi⟩ : ∃ i : Nat, current.start = i :=
      ⟨current.start.toNat, (Int.toNat_of_nonneg hcurrent.start).symm⟩
    have hmoved : Sound (chained c (current :: c.undoChange) rest) text := by
      refine h.withChain ?_ c.createNewUndoRecord c.undoable c.redoable
      intro r hr
      apply h.records r
      rw [hchain]
      simpa [or_left_comm] using hr
    rcases exchange_any hmoved.toSettled hcurrent.newText hcurrent.change
      (current.start + current.newText.length) (current.start + current.newText.length) with
      ⟨e, hfail⟩ | ⟨content, tn, text', hok, hsound, hstrips⟩
    · refine ⟨text, ?_⟩
      rw [← hi] at hfail
      rw [redo_eq hredoable hchain, bind_error (tryFinally_apply hfail hmoved.updateSelectedText)]
      exact hmoved
    · refine ⟨text', ?_⟩
      rw [← hi] at hok
      rw [redo_ok hredoable hchain hok hsound.holds hsound.null]
      exact hsound.flagged
  · refine ⟨text, ?_⟩
    have heq : TextInputControl.redo c = updateUndoRedoState c := by
      unfold TextInputControl.redo
      split
      · next hredoable hchain => exact absurd ⟨hredoable, by simp [hchain]⟩ hcan
      · rfl
    rw [heq]
    exact h.flagged

/-- **Every edit leaves a sound control sound**, whether it returns or throws. -/
theorem Sound.edit (h : Sound c text) (g : Grouping) (e : Edit) :
    ∃ text', Sound (TextInputControl.edit g e c).2 text' := by
  cases e with
  | replaceText start stop x => exact h.replaceText start stop x g
  | replaceSelection x => exact h.replaceSelection x g
  | paste x => exact h.paste x g
  | selectRange anchor caret => exact ⟨text, (h.selectRange anchor caret g).2⟩
  | undo => exact h.undo
  | redo => exact h.redo

end JavaFX.TextInputControl
