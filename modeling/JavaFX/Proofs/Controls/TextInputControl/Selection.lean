/-
Caret and selection stay inside the text.

The edits keep a control sound.  `setText` is the one operation that hands a text to the content
before anything has been stripped from it: if the whole of it is stripped, nobody is told that the
old text is gone, and the caret is put down by a length that is left over from it.
-/
import JavaFX.Proofs.Controls.TextInputControl.Edits

namespace JavaFX.TextInputControl

open Content Program List

variable {c : TextInputControl} {text : Chars}

/-! ### Setting the text -/

/-- A control whose text is about to be set to `value`. -/
def setting (c : TextInputControl) (value : Option Chars) : TextInputControl :=
  { c with textIsNull := value.isNone }

/-- The control after `setText`: no records, and a length that has to be read again. -/
def cleared (c : TextInputControl) : TextInputControl :=
  { c with
    undoChange := []
    next := []
    undoable := false
    redoable := false
    length := none }

variable {value : Option Chars}

theorem setText_eq {n : Int} {d : TextInputControl} (hholds : c.content.Holds text)
    (h : replaceRange (0 : Nat) text.length (value.getD []) 0 0 (c.setting value) = (.ok n, d)) :
    setText none value c = updateSelectedText (cleared d) := by
  rw [← hholds.length] at h
  have hset : filterAndSet none (value.getD []) (c.setting value) = (.ok true, d) := by
    rw [filterAndSet, bind_ok (read_apply _ _)]
    exact bind_ok h
  have hdo : doSet none value c
      = (.ok (), { d with undoChange := [], next := [], undoable := false, redoable := false }) := by
    exact bind_ok hset
  rw [setText, bind_ok hdo]
  rfl

theorem Sound.cleared (h : Sound c text) : Sound (TextInputControl.cleared c) text :=
  { holds := h.holds, allowed := h.allowed, null := h.null, length := .inl rfl,
    records := by simp [TextInputControl.cleared], anchor := h.anchor,
    caretPosition := h.caretPosition, selection := h.selection, selectedText := h.selectedText }

/-- The length at the beginning of `setText`: a text that has just become null has none. -/
theorem setting_length (h : Settled c text) (value : Option Chars) :
    ∃ n : Int, getLength (c.setting value) = (.ok n, (c.setting value).withLength n) ∧
      (value = none ∧ n = 0 ∨ n = text.length) := by
  rcases h.length with hnone | hsome
  · cases value with
    | none =>
      refine ⟨0, ?_, .inl ⟨rfl, rfl⟩⟩
      have hlength : (c.setting none).length = none := hnone
      rw [getLength, hlength]
      rfl
    | some v =>
      exact ⟨text.length, getLength_computed h.holds (fun hn => by simp [setting] at hn) hnone, .inr rfl⟩
  · exact ⟨text.length, getLength_cached hsome, .inr rfl⟩

/-- A value of which something is left, or nothing was there to begin with. -/
theorem Sound.setText_kept (h : Sound c text)
    (hvalue : text = [] ∨ value.getD [] = [] ∨ c.content.filterInput (value.getD []) ≠ []) :
    ∃ d, setText none value c = (.ok (), TextInputControl.cleared d) ∧
      Sound (TextInputControl.cleared d) (c.content.filterInput (value.getD [])) := by
  obtain ⟨n, hlength, hn⟩ := setting_length h.toSettled value
  obtain ⟨content, tn, text', adjustment, htext', -, hreplace, hsound, -⟩ :=
    replaceRange_spec (c := c.setting value) h.holds h.allowed
      h.records (Nat.zero_le text.length) (Nat.le_refl _) (value.getD [])
      (fun hlt => hvalue.resolve_left (by rintro rfl; simp at hlt))
      (fun _ _ => by simp) hlength
      (fun hzero _ => by omega) 0 0
  have hcontent : (c.setting value).content = c.content := rfl
  rw [hcontent] at htext'
  obtain rfl : text' = c.content.filterInput (value.getD []) := by simpa using htext'
  exact ⟨_, (setText_eq h.holds hreplace).trans hsound.cleared.updateSelectedText, hsound.cleared⟩

theorem updateSelectedText_empty (hholds : c.content.Holds []) (hnull : c.textIsNull = false)
    {p : Nat} (hsel : c.selection = ((p : Int), (p : Int))) :
    updateSelectedText c = (.ok (), { c with selectedText := [] }) := by
  have htext : getText c = (.ok (some []), c) := by simp [getText, hnull, hholds.getValue, Except.map]
  rw [updateSelectedText, bind_ok htext]
  dsimp only
  rw [bind_ok (read_apply _ _)]
  have hstart : (p : Int) > (([] : Chars).length : Int) - 1 := by simp; omega
  have hsub : StringBuilder.substring [] 0 0 = .ok [] := rfl
  simp only [hsel, hstart, if_true, hsub]
  rw [bind_ok (lift_apply _ _), modify_apply, ← hsel]

/-- The text is gone and the caret is where the old length has put it. -/
def stranded (c : TextInputControl) (content : Content) (p : Int) : TextInputControl :=
  { c with
    content
    textIsNull := false
    length := none
    anchor := p
    caretPosition := p
    selection := (p, p)
    selectedText := []
    undoChange := []
    next := []
    undoable := false
    redoable := false }

/-- **A value that is stripped as a whole wipes the text without telling**: the caret is put
down by the length of the text that was there. -/
theorem setText_stripped (h : Settled c text) {value : Chars} (htext : text ≠ [])
    (hvalue : value ≠ []) (hstripped : c.content.filterInput value = []) :
    ∃ content : Content, content.Holds [] ∧ content.strips = c.content.strips ∧
      setText none (some value) c = (.ok (), c.stranded content (text.length - value.length : Nat)) := by
  obtain ⟨n, hlength, hn⟩ := setting_length h (some value)
  obtain rfl : n = text.length := by simpa using hn
  obtain ⟨content₁, hdelete, hholds₁, hstrips₁⟩ :=
    deleteRange_spec (c := (c.setting (some value)).withLength text.length) h.holds
      (Nat.zero_le text.length) (Nat.le_refl _) value text.length
  simp only [take_zero, drop_length, append_nil] at hholds₁
  obtain ⟨content₂, hinsert, hholds₂, hstrips₂⟩ := hholds₁.insert (Nat.zero_le _) value true
  have hfilter : content₁.filterInput value = [] := by
    rw [← hstripped, Content.filterInput, Content.filterInput, hstrips₁]
    rfl
  have hsilent : (value.isEmpty && decide (0 < text.length)) = false := by
    simp [hvalue]
  rw [hsilent] at hdelete
  rw [hfilter] at hinsert hholds₂
  refine ⟨content₂, hholds₂, hstrips₂.trans hstrips₁, ?_⟩
  -- The length that is left over from the old text is taken for the length of the new one.
  obtain ⟨adjustment, hadj⟩ : ∃ a : Int,
      a = (value.length : Int) - (text.length - (text.length - (text.length - (0 : Nat)))) := ⟨_, rfl⟩
  have hplace : clamp 0 (0 - adjustment) text.length = (text.length - value.length : Nat) := by
    unfold clamp
    split
    · omega
    · split <;> omega
  have hempty : ∀ d : TextInputControl, d.content = content₂ → d.textIsNull = false →
      d.selection = (((text.length - value.length : Nat) : Int), ((text.length - value.length : Nat) : Int)) →
      updateSelectedText d = (.ok (), { d with selectedText := [] }) := fun d hd hdn hds =>
    updateSelectedText_empty (hd ▸ hholds₂) hdn hds
  have hbody : replaceRange (0 : Nat) text.length value 0 0 (c.setting (some value))
      = (.ok adjustment, { placed { c.setting (some value) with content := content₂ } text
          (0 - adjustment) (0 - adjustment) with selectedText := [] }) := by
    rw [hadj, replaceRange]
    refine tryFinally_apply ?_ (hempty _ ?_ ?_ ?_)
    · rw [bind_ok hlength, bind_ok hdelete, bind_ok (onContent_ok (by rw [withContent_content]; exact hinsert)),
        bind_ok (getLength_cached (n := (text.length : Int)) rfl),
        bind_ok (doSelectRange_spec text _ _ (getLength_cached rfl))]
      rfl
    · rfl
    · rfl
    · simp only [← hadj, placed, hplace, min_self, max_self]
  rw [@setText_eq _ _ (some value) _ _ h.holds hbody,
    hempty _ rfl rfl (by simp only [cleared, placed, hplace, min_self, max_self])]
  simp only [placed, hplace, min_self, max_self]
  rfl


/-! ### Runs -/

/-- Caret and anchor are inside the text, and the other properties agree with them. -/
structure Inside (c : TextInputControl) : Prop where
  anchor : 0 ≤ c.anchor ∧ c.anchor ≤ (shown c).length
  caretPosition : 0 ≤ c.caretPosition ∧ c.caretPosition ≤ (shown c).length
  length : (getLength c).1 = .ok ((shown c).length : Int)
  selection : c.selection = (min c.anchor c.caretPosition, max c.anchor c.caretPosition)
  selectedText : StringBuilder.substring (shown c) c.selection.1 c.selection.2 = .ok c.selectedText

/-- A text is set that is not empty, is stripped as a whole, and is shorter than the text that it
replaces. -/
def strands (c : TextInputControl) : Operation → Bool
  | .setText (some value) =>
    decide (value ≠ [] ∧ c.content.filterInput value = [] ∧ (value.length : Int) < c.content.length)
  | _ => false

def run (ops : List Operation) (c : TextInputControl) : TextInputControl :=
  ops.foldl (fun c op => (operate op c).2) c

/-- No step of a run strands the caret. -/
def Careful : TextInputControl → List Operation → Prop
  | _, [] => True
  | c, op :: ops => strands c op = false ∧ Careful (operate op c).2 ops

instance decidableCareful : ∀ (c : TextInputControl) (ops : List Operation), Decidable (Careful c ops)
  | _, [] => isTrue trivial
  | c, op :: ops =>
    have := decidableCareful (operate op c).2 ops
    inferInstanceAs (Decidable (_ ∧ _))

theorem Sound.inside (h : Sound c text) : Inside c := by
  have hshown := h.toSettled.shown
  have hrange := h.selection_range
  refine ⟨hshown.symm ▸ h.anchor, hshown.symm ▸ h.caretPosition, ?_, h.selection, ?_⟩
  · rw [h.toSettled.getLength, hshown]
  · rw [hshown, StringBuilder.substring, if_pos hrange, h.selectedText]

theorem Sound.setText (h : Sound c text) (value : Option Chars) :
    (strands c (.setText value) = false → ∃ text', Sound (TextInputControl.setText none value c).2 text') ∧
      (strands c (.setText value) = true → ¬ Inside (TextInputControl.setText none value c).2) := by
  by_cases hkept : text = [] ∨ value.getD [] = [] ∨ c.content.filterInput (value.getD []) ≠ []
  · obtain ⟨d, heq, hsound⟩ := h.setText_kept hkept
    refine ⟨fun _ => ⟨_, by rw [heq]; exact hsound⟩, fun hstrands => ?_⟩
    cases value with
    | none => simp [strands] at hstrands
    | some v =>
      simp only [strands, decide_eq_true_eq, h.holds.length] at hstrands
      obtain ⟨hv, hf, hlt⟩ := hstrands
      rcases hkept with rfl | hempty | hleft
      · simp at hlt
        omega
      · exact absurd hempty hv
      · exact absurd hf hleft
  · simp only [not_or, not_not] at hkept
    obtain ⟨htext, hv, hf⟩ := hkept
    cases value with
    | none => exact absurd rfl hv
    | some v =>
      rw [Option.getD_some] at hv hf
      obtain ⟨content, hholds, hstrips, heq⟩ := setText_stripped h.toSettled htext hv hf
      rw [heq]
      have hnil : ∀ p : Int, TextInputControl.shown (c.stranded content p) = [] := by
        intro p
        simp [TextInputControl.shown, getText, stranded, hholds.getValue, Except.map]
      constructor
      · -- A longer text that is stripped leaves the caret at the beginning.
        intro hfalse
        simp only [strands, decide_eq_false_iff_not, h.holds.length, not_and] at hfalse
        have hle := hfalse hv hf
        have hzero : text.length - v.length = 0 := by omega
        refine ⟨[], ?_⟩
        rw [hzero]
        exact {
            holds := hholds, allowed := by simp [Allowed], null := fun _ => rfl
            length := .inl rfl, records := by simp [stranded]
            anchor := by simp [stranded]
            caretPosition := by simp [stranded]
            selection := by simp [stranded]
            selectedText := by simp [stranded] }
      · intro hstrands hinside
        simp only [strands, decide_eq_true_eq, h.holds.length] at hstrands
        have hcaret := hinside.caretPosition.2
        rw [hnil] at hcaret
        simp only [stranded, length_nil] at hcaret
        omega

theorem Sound.operate (h : Sound c text) (op : Operation) :
    (strands c op = false → ∃ text', Sound (TextInputControl.operate op c).2 text') ∧
      (strands c op = true → ¬ Inside (TextInputControl.operate op c).2) := by
  cases op with
  | setText value => exact h.setText value
  | edit e g => exact ⟨fun _ => h.edit g e, fun hs => by simp [strands] at hs⟩

theorem Sound.run_iff (h : Sound c text) (ops : List Operation) :
    (∀ n, Inside (run (ops.take n) c)) ↔ Careful c ops := by
  induction ops generalizing c text with
  | nil => exact ⟨fun _ => trivial, fun _ n => by simpa [run] using h.inside⟩
  | cons op ops ih =>
    obtain ⟨hkeep, hbreak⟩ := h.operate op
    constructor
    · intro hinside
      cases hs : strands c op with
      | true => exact absurd (hinside 1) (hbreak hs)
      | false =>
        obtain ⟨text', hsound⟩ := hkeep hs
        refine ⟨hs, (ih hsound).mp fun n => ?_⟩
        exact hinside (n + 1)
    · rintro ⟨hs, hcareful⟩ n
      obtain ⟨text', hsound⟩ := hkeep hs
      cases n with
      | zero => exact h.inside
      | succ n =>
        exact (ih hsound).mpr hcareful n

theorem bare_sound (content : Content) (h : content.Holds []) : Sound (bare content) [] where
  holds := h
  allowed := by simp [Allowed]
  null := fun _ => rfl
  length := .inl rfl
  records := by simp [bare]
  anchor := by simp [bare]
  caretPosition := by simp [bare]
  selection := by simp [bare]
  selectedText := by simp [bare]

/-- A new control. -/
def Created (c : TextInputControl) : Prop :=
  (∃ text, c = textField text) ∨ ∃ text, c = textArea text

theorem Created.sound (h : Created c) : ∃ d text, c = TextInputControl.cleared d ∧ Sound c text := by
  rcases h with ⟨value, rfl⟩ | ⟨value, rfl⟩
  · obtain ⟨d, heq, hsound⟩ := (bare_sound (.textField []) rfl).setText_kept (.inl rfl)
    rw [textField, heq]
    exact ⟨d, _, rfl, hsound⟩
  · obtain ⟨d, heq, hsound⟩ :=
      (bare_sound (.textArea .empty) TextAreaContent.holds_empty).setText_kept (.inl rfl)
    rw [textArea, heq]
    exact ⟨d, _, rfl, hsound⟩

/-- **Caret and selection stay inside the text as long as no text is set that is stripped as a
whole and shorter than the text it replaces.** -/
theorem inside_iff_careful (h : Created c) (ops : List Operation) :
    (∀ n, Inside (run (ops.take n) c)) ↔ Careful c ops := by
  obtain ⟨-, text, -, hsound⟩ := h.sound
  exact hsound.run_iff ops

theorem inside_iff_careful_tabs : Inside (run (([.setText (some (Chars.of "a\tb\n")),
      .edit (.selectRange 2 0) ⟨false, false⟩, .edit (.replaceSelection (Chars.of "\nc")) ⟨false, false⟩,
      .edit .undo ⟨false, false⟩, .setText (some (Chars.of "\n\n"))] : List Operation).take 5)
        (textField (some (Chars.of "x")))) :=
  (inside_iff_careful (.inl ⟨_, rfl⟩) _).mpr (by decide +kernel) 5

theorem newline_strands_caret :
    ¬ Inside (run [.setText (some (Chars.of "\n"))] (textField (some (Chars.of "abc")))) := by
  intro h
  have hcaret := h.caretPosition.2
  revert hcaret
  decide +kernel

end JavaFX.TextInputControl
