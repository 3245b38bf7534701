/-
The selectors and the combinators of a text.

A text is a sequence of simple selectors with something between each two, which is white space
with at most one `>`, and with white space around them.  The scan finds them if the spaces and
the `>` between two of them are next to each other, so that all other white space is next to a
selector, where it is trimmed.  Where it comes between two spaces it is taken for a selector,
and where there is neither a space nor a `>` nothing is split.

A space before the first selector ends an empty part.  The part is left out later on, but its
combinator is not: of two or more selectors each gets the combinator of the one before it.
-/
import JavaFX.Proofs.Css.SelectorParts
import Mathlib

namespace JavaFX.Selector

open List

/-! ### What a text says -/

/-- Where the scan ends a part. -/
def isSeparator (c : Char) : Bool := c = ' ' ∨ c = '>'

/-- What stands between two simple selectors. -/
structure Joint where
  text : List Char
  ne_nil : text ≠ []
  chars : ∀ c ∈ text, isWhite c ∨ c = '>'
  single : text.count '>' ≤ 1

/-- What a text has besides the simple selectors. -/
structure Layout where
  leading : List Char
  leading_white : ∀ c ∈ leading, isWhite c
  joints : List Joint
  trailing : List Char
  trailing_white : ∀ c ∈ trailing, isWhite c

/-- `>`, and nothing else, says child. -/
def Joint.combinator (joint : Joint) : Combinator := if '>' ∈ joint.text then .child else .descendant

/-- The text with the simple selectors in their places. -/
def Layout.text (layout : Layout) (first : List Char) (rest : List (List Char)) : List Char :=
  layout.leading ++ first ++ (layout.joints.zip rest).flatMap (fun (joint, text) => joint.text ++ text)
    ++ layout.trailing

section

variable (styleClassRegistry pseudoClassRegistry : Registry)

/-- The text of a simple selector, with what it is on its own. -/
structure SimpleText where
  text : List Char
  chars : ∀ c ∈ text, isWhite c = false ∧ c ≠ '>'
  selector : SimpleSelector
  denotes : createSelector styleClassRegistry pseudoClassRegistry (some text) = .ok (some (.simple selector))

/-- The selector that a text says. -/
def Layout.selector (layout : Layout) (first : SimpleSelector) (rest : List SimpleSelector) : Created :=
  match rest with
  | [] => .simple first
  | _ => .compound (first :: rest) (layout.joints.map Joint.combinator)

/-- Whatever the simple selectors are, the selector is what the text says. -/
def Layout.IsRead (layout : Layout) : Prop :=
  ∀ (first : SimpleText styleClassRegistry pseudoClassRegistry)
    (rest : List (SimpleText styleClassRegistry pseudoClassRegistry)), rest.length = layout.joints.length →
      createSelector styleClassRegistry pseudoClassRegistry (some (layout.text first.text (rest.map SimpleText.text))) =
        .ok (some (layout.selector first.selector (rest.map SimpleText.selector)))

end

/-- The separators of a joint are next to each other, and there are some. -/
def Joint.Tidy (joint : Joint) : Prop :=
  (∃ c ∈ joint.text, isSeparator c) ∧
    ∀ c ∈ (joint.text.dropWhile (!isSeparator ·)).dropWhile isSeparator, isSeparator c = false

/-- There is no space before two selectors or more, and other white space is next to a
selector. -/
structure Layout.Tidy (layout : Layout) : Prop where
  single : layout.joints = [] → ∀ c ∈ layout.leading.dropWhile isSeparator, isSeparator c = false
  several : layout.joints ≠ [] → ∀ c ∈ layout.leading, isSeparator c = false
  joints : ∀ joint ∈ layout.joints, joint.Tidy
  trailing : ∀ c ∈ layout.trailing.dropWhile (!isSeparator ·), isSeparator c = true

/-! ### The scan by words -/

/-- The parts so far, the characters since the last of them and, after a separator, the part
they begin with and its combinator. -/
structure Words where
  parts : List (List Char) := []
  combinators : List Combinator := []
  word : List Char := []
  cut : Option (List Char × Char) := none

namespace Words

def char (t : Words) (ch : Char) : Words :=
  if ch = ' ' then { t with word := t.word ++ [ch], cut := some (t.cut.getD (t.word, ' ')) }
  else if ch = '>' then { t with word := t.word ++ [ch], cut := some ((t.cut.map (·.1)).getD t.word, '>') }
  else
    match t.cut with
    | some (part, combinator) =>
      { parts := t.parts ++ [part]
        combinators := t.combinators ++ [if combinator = ' ' then .descendant else .child]
        word := [ch] }
    | none => { t with word := t.word ++ [ch] }

/-- The scan has come to the end of `taken`. -/
structure Tracks (taken : List Char) (scan : Scan) (t : Words) : Prop where
  parts : scan.parts = t.parts
  combinators : scan.combinators = t.combinators
  word : taken.drop scan.start = t.word
  start : scan.start ≤ taken.length
  uncut : t.cut = none → scan.combinator = none
  cut : ∀ part combinator, t.cut = some (part, combinator) → scan.combinator = some combinator ∧
    part <+: t.word ∧ scan.stop = scan.start + part.length

variable {taken : List Char} {scan : Scan} {t : Words}

section

variable (h : Tracks taken scan t)
include h

theorem Tracks.length_word : scan.start + t.word.length = taken.length := by
  rw [← h.word, length_drop]
  have := h.start
  omega

theorem Tracks.combinator_none : scan.combinator = none ↔ t.cut = none := by
  refine ⟨fun hnone => ?_, h.uncut⟩
  cases hcut : t.cut with
  | none => rfl
  | some cut => simp [(h.cut cut.1 cut.2 hcut).1] at hnone

theorem Tracks.substring {part : List Char} {combinator : Char}
    (hcut : t.cut = some (part, combinator)) (rest : List Char) :
    substring (taken ++ rest) scan.start scan.stop.toNat = part := by
  obtain ⟨-, ⟨after, hafter⟩, hstop⟩ := h.cut part combinator hcut
  have hlength : scan.stop.toNat - scan.start = part.length := by omega
  rw [JavaFX.substring, hlength, drop_append_of_le_length h.start, h.word, ← hafter]
  simp

theorem Tracks.char (ch : Char) (rest : List Char) :
    Tracks (taken ++ [ch]) (scanChar (taken ++ ch :: rest) scan taken.length ch) (t.char ch) := by
  have hword : (taken ++ [ch]).drop scan.start = t.word ++ [ch] := by
    rw [drop_append_of_le_length h.start, h.word]
  have hstart : scan.start ≤ (taken ++ [ch]).length := by
    have := h.start
    simp
    omega
  have hlength := h.length_word
  unfold scanChar Words.char
  by_cases hspace : ch = ' '
  · rw [if_pos hspace, if_pos hspace]
    cases hcut : t.cut with
    | none =>
      rw [if_pos (h.combinator_none.mpr hcut)]
      refine ⟨h.parts, h.combinators, hword, hstart, nofun, fun part combinator heq => ?_⟩
      obtain ⟨rfl, rfl⟩ := Prod.mk.inj (Option.some.inj heq)
      exact ⟨congrArg some hspace, prefix_append _ _, by simp only; omega⟩
    | some cut =>
      rw [if_neg (fun hnone => by simp [h.combinator_none.mp hnone] at hcut)]
      refine ⟨h.parts, h.combinators, hword, hstart, nofun, fun part combinator heq => ?_⟩
      obtain rfl : cut = (part, combinator) := Option.some.inj heq
      obtain ⟨hcombinator, hpart, hstop⟩ := h.cut part combinator hcut
      exact ⟨hcombinator, hpart.trans (prefix_append _ _), hstop⟩
  rw [if_neg hspace, if_neg hspace]
  by_cases hchild : ch = '>'
  · rw [if_pos hchild, if_pos hchild]
    refine ⟨h.parts, h.combinators, hword, hstart, nofun, fun part combinator heq => ?_⟩
    obtain ⟨rfl, rfl⟩ := Prod.mk.inj (Option.some.inj heq)
    refine ⟨congrArg some hchild, ?_⟩
    cases hcut : t.cut with
    | none =>
      rw [if_pos (h.combinator_none.mpr hcut)]
      exact ⟨prefix_append _ _, by simp only [Option.map_none, Option.getD_none]; omega⟩
    | some cut =>
      rw [if_neg (fun hnone => by simp [h.combinator_none.mp hnone] at hcut)]
      obtain ⟨-, hpart, hstop⟩ := h.cut cut.1 cut.2 hcut
      exact ⟨hpart.trans (prefix_append _ _), hstop⟩
  rw [if_neg hchild, if_neg hchild]
  cases hcut : t.cut with
  | none =>
    simp only [h.combinator_none.mpr hcut]
    exact ⟨h.parts, h.combinators, hword, hstart, fun _ => h.combinator_none.mpr hcut, nofun⟩
  | some cut =>
    obtain ⟨part, combinator⟩ := cut
    simp only [(h.cut part combinator hcut).1, h.substring hcut]
    refine ⟨by rw [h.parts], by rw [h.combinators], by simp, by simp, fun _ => rfl, nofun⟩

end

end Words

/-- The text by words. -/
def words (text : List Char) : Words := text.foldl Words.char {}

theorem scanParts_eq (text : List Char) :
    scanParts text = ((words text).parts ++ [(words text).word], (words text).combinators) := by
  have hrun : ∀ (rest taken : List Char) (scan : Scan) (t : Words), Words.Tracks taken scan t →
      Words.Tracks (taken ++ rest) (scanFrom (taken ++ rest) taken.length rest scan) (rest.foldl Words.char t) := by
    intro rest
    induction rest with
    | nil => intro taken scan t h; simpa [scanFrom] using h
    | cons ch rest ih =>
      intro taken scan t h
      have hnext := ih (taken ++ [ch]) _ _ (h.char ch rest)
      simpa [scanFrom] using hnext
  have hfinal := hrun text [] {} {} ⟨rfl, rfl, rfl, Nat.le_refl _, fun _ => rfl, nofun⟩
  unfold scanParts words
  rw [← hfinal.parts, ← hfinal.combinators, ← hfinal.word]
  rfl

/-! ### Several characters -/

namespace Words

variable {t : Words} {text : List Char}

theorem char_plain {ch : Char} (h : isSeparator ch = false) : t.char ch =
      match t.cut with
      | some (part, combinator) =>
        { parts := t.parts ++ [part]
          combinators := t.combinators ++ [if combinator = ' ' then .descendant else .child]
          word := [ch] }
      | none => { t with word := t.word ++ [ch] } := by
  simp only [isSeparator, decide_eq_false_iff_not, not_or] at h
  unfold char
  rw [if_neg h.1, if_neg h.2]

theorem foldl_word (hcut : t.cut = none) (h : ∀ c ∈ text, isSeparator c = false) :
    text.foldl char t = { t with word := t.word ++ text } := by
  induction text generalizing t with
  | nil => simp
  | cons ch text ih =>
    rw [forall_mem_cons] at h
    have hchar : t.char ch = { t with word := t.word ++ [ch] } := by rw [char_plain h.1, hcut]
    rw [foldl_cons, hchar, ih (t := { t with word := t.word ++ [ch] }) hcut h.2]
    simp

theorem foldl_new {part : List Char} {combinator : Char} (hcut : t.cut = some (part, combinator)) (hne : text ≠ [])
    (h : ∀ c ∈ text, isSeparator c = false) :
    text.foldl char t = {
        parts := t.parts ++ [part]
        combinators := t.combinators ++ [if combinator = ' ' then .descendant else .child]
        word := text } := by
  cases text with
  | nil => exact absurd rfl hne
  | cons ch text =>
    rw [forall_mem_cons] at h
    rw [foldl_cons, char_plain h.1, hcut]
    exact foldl_word rfl h.2

theorem foldl_separators {part : List Char} {combinator : Char} (hcut : t.cut = some (part, combinator))
    (h : ∀ c ∈ text, isSeparator c) :
    text.foldl char t = { t with
        word := t.word ++ text
        cut := some (part, if '>' ∈ text then '>' else combinator) } := by
  induction text generalizing t combinator with
  | nil => simp [← hcut]
  | cons ch text ih =>
    rw [forall_mem_cons] at h
    rw [foldl_cons]
    have hch := h.1
    simp only [isSeparator, decide_eq_true_eq] at hch
    rcases hch with rfl | rfl
    · have hchar : t.char ' ' = { t with word := t.word ++ [' '], cut := some (part, combinator) } := by
        simp [char, hcut]
      rw [hchar, ih rfl h.2]
      simp
    · have hchar : t.char '>' = { t with word := t.word ++ ['>'], cut := some (part, '>') } := by
        simp [char, hcut]
      rw [hchar, ih rfl h.2]
      simp

theorem foldl_cut (hcut : t.cut = none) (hne : text ≠ [])
    (h : ∀ c ∈ text, isSeparator c) : text.foldl char t = { t with
        word := t.word ++ text
        cut := some (t.word, if '>' ∈ text then '>' else ' ') } := by
  cases text with
  | nil => exact absurd rfl hne
  | cons ch text =>
    rw [forall_mem_cons] at h
    have hch := h.1
    simp only [isSeparator, decide_eq_true_eq] at hch
    have hchar : t.char ch = { t with word := t.word ++ [ch], cut := some (t.word, ch) } := by
      rcases hch with rfl | rfl <;> simp [char, hcut]
    rw [foldl_cons, hchar, foldl_separators rfl h.2]
    rcases hch with rfl | rfl <;> simp

end Words

/-! ### Joints -/

/-- A text up to its first separator, its first separators, and the rest. -/
theorem eq_word_separators (text : List Char) :
    ∃ word separators rest, text = word ++ separators ++ rest ∧ (∀ c ∈ word, isSeparator c = false) ∧
      (∀ c ∈ separators, isSeparator c) ∧ rest = (text.dropWhile (!isSeparator ·)).dropWhile isSeparator ∧
      (separators = [] ↔ ∀ c ∈ text, isSeparator c = false) := by
  refine ⟨text.takeWhile (!isSeparator ·), (text.dropWhile (!isSeparator ·)).takeWhile isSeparator, _, ?_, ?_, ?_, rfl, ?_⟩
  · rw [append_assoc, takeWhile_append_dropWhile, takeWhile_append_dropWhile]
  · intro c hc
    simpa using mem_takeWhile_imp hc
  · intro c hc
    exact mem_takeWhile_imp hc
  · refine ⟨fun hnil => ?_, fun hnone => ?_⟩
    · cases hdrop : text.dropWhile (!isSeparator ·) with
      | nil => simpa using hdrop
      | cons c rest =>
        have hhead := head_dropWhile_not (!isSeparator ·) (l := text) (by simp [hdrop])
        simp only [hdrop, head_cons, Bool.not_eq_false'] at hhead
        simp [hdrop, hhead] at hnil
    · rw [List.dropWhile_eq_nil_iff.mpr (by simpa using hnone), takeWhile_nil]

theorem isSeparator_of_not_white {c : Char} (hwhite : isWhite c = false) (hchild : c ≠ '>') :
    isSeparator c = false := by
  simp only [isWhite, decide_eq_false_iff_not, not_or] at hwhite
  simp [isSeparator, hwhite.1, hchild]

theorem isWhite_of_joint {c : Char} (h : isWhite c ∨ c = '>') (hsep : isSeparator c = false) : isWhite c := by
  refine h.resolve_right (fun hchild => ?_)
  rw [hchild] at hsep
  exact absurd hsep (by decide)

/-- The text of a simple selector. -/
structure IsSimple (text : List Char) : Prop where
  ne_nil : text ≠ []
  chars : ∀ c ∈ text, isSeparator c = false

/-- The words are the texts of simple selectors, the last of which is `current`. -/
structure Forms (done : List (List Char)) (current : List Char) (t : Words) : Prop where
  cut : t.cut = none
  parts : List.Forall₂ Padded done (t.parts.filter fun part => part ≠ [])
  word : Padded current t.word

theorem Padded.append {s padded space : List Char} (h : Padded s padded) (hspace : ∀ c ∈ space, isWhite c) :
    Padded s (padded ++ space) := by
  obtain ⟨front, back, rfl, hfront, hback⟩ := h
  refine ⟨front, back ++ space, by simp, hfront, fun c hc => ?_⟩
  rcases List.mem_append.mp hc with hc | hc
  · exact hback c hc
  · exact hspace c hc

theorem Padded.of_front {s space : List Char} (hspace : ∀ c ∈ space, isWhite c) : Padded s (space ++ s) :=
  ⟨space, [], by simp, hspace, by simp⟩

variable {done : List (List Char)} {current : List Char}

theorem Forms.joint {text : List Char} {t : Words} (h : Forms done current t)
    {joint : Joint} (htidy : joint.Tidy) (hcurrent : current ≠ []) (htext : IsSimple text) :
    Forms (done ++ [current]) text ((joint.text ++ text).foldl Words.char t) ∧
      ((joint.text ++ text).foldl Words.char t).combinators = t.combinators ++ [joint.combinator] := by
  obtain ⟨word, separators, rest, heq, hword, hseparators, hrest, hnone⟩ := eq_word_separators joint.text
  have hne : separators ≠ [] := by
    intro hnil
    obtain ⟨c, hc, hsep⟩ := htidy.1
    simp [hnone.mp hnil c hc] at hsep
  have hafter : ∀ c ∈ rest, isSeparator c = false := hrest ▸ htidy.2
  have hwhite : ∀ c ∈ word ++ rest, isWhite c := by
    intro c hc
    have hmem : c ∈ joint.text := by rw [heq]; simp at hc ⊢; grind
    refine isWhite_of_joint (joint.chars c hmem) ?_
    rcases List.mem_append.mp hc with hc | hc
    · exact hword c hc
    · exact hafter c hc
  have hchild : '>' ∈ joint.text ↔ '>' ∈ separators := by
    have hnot : ∀ l : List Char, (∀ c ∈ l, isSeparator c = false) → '>' ∉ l :=
      fun l hl hmem => absurd (hl '>' hmem) (by decide)
    simp [heq, hnot word hword, hnot rest hafter]
  have hfold : (joint.text ++ text).foldl Words.char t = {
        parts := t.parts ++ [t.word ++ word]
        combinators := t.combinators ++ [joint.combinator]
        word := rest ++ text } := by
    have hnew : ∀ c ∈ rest ++ text, isSeparator c = false := by
      intro c hc
      rcases List.mem_append.mp hc with hc | hc
      · exact hafter c hc
      · exact htext.chars c hc
    have hassoc : joint.text ++ text = word ++ (separators ++ (rest ++ text)) := by simp [heq]
    rw [hassoc, foldl_append, Words.foldl_word h.cut hword, foldl_append,
      Words.foldl_cut (t := { t with word := t.word ++ word }) h.cut hne hseparators, Words.foldl_new rfl (by simp [htext.ne_nil]) hnew]
    simp only [Joint.combinator, hchild]
    congr 2
    split <;> simp
  rw [hfold]
  refine ⟨⟨rfl, ?_, .of_front fun c hc => hwhite c (by simp [hc])⟩, rfl⟩
  have hpart : Padded current (t.word ++ word) := h.word.append fun c hc => hwhite c (by simp [hc])
  have hfilter : [t.word ++ word].filter (fun part => part ≠ []) = [t.word ++ word] :=
    filter_cons_of_pos (decide_eq_true (hpart.ne_nil hcurrent))
  rw [filter_append, hfilter]
  exact rel_append h.parts (.cons hpart .nil)

theorem Forms.joints {joints : List Joint} {texts : List (List Char)}
    {t : Words} (h : Forms done current t) (htidy : ∀ joint ∈ joints, joint.Tidy) (hcurrent : current ≠ [])
    (htexts : ∀ text ∈ texts, IsSimple text) (hlength : texts.length = joints.length) :
    ∃ done' current', done' ++ [current'] = done ++ current :: texts ∧ current' ≠ [] ∧ Forms done' current'
        (((joints.zip texts).flatMap fun (joint, text) => joint.text ++ text).foldl Words.char t) ∧
      (((joints.zip texts).flatMap fun (joint, text) => joint.text ++ text).foldl Words.char t).combinators =
        t.combinators ++ joints.map Joint.combinator := by
  induction joints generalizing texts done current t with
  | nil =>
    obtain rfl : texts = [] := List.length_eq_zero_iff.mp hlength
    exact ⟨done, current, rfl, hcurrent, h, by simp⟩
  | cons joint joints ih =>
    cases texts with
    | nil => simp at hlength
    | cons text texts =>
      rw [forall_mem_cons] at htidy htexts
      obtain ⟨hforms, hcombinators⟩ := h.joint htidy.1 hcurrent htexts.1
      obtain ⟨done', current', heq, hne, hrest, hmore⟩ :=
        ih hforms htidy.2 htexts.1.ne_nil htexts.2 (by simpa using hlength)
      refine ⟨done', current', by simpa using heq, hne, ?_⟩
      rw [zip_cons_cons, flatMap_cons, foldl_append]
      exact ⟨hrest, by rw [hmore, hcombinators]; simp⟩

/-- The combinator of an empty part. -/
def Layout.extra (layout : Layout) : List Combinator :=
  if ∃ c ∈ layout.leading, isSeparator c then [.descendant] else []

theorem forms_leading {layout : Layout}
    (htidy : ∀ c ∈ layout.leading.dropWhile isSeparator, isSeparator c = false) {first : List Char}
    (hfirst : IsSimple first) :
    Forms [] first (words (layout.leading ++ first)) ∧
      (words (layout.leading ++ first)).combinators = layout.extra := by
  have happend : layout.leading.takeWhile isSeparator ++ layout.leading.dropWhile isSeparator = layout.leading :=
    takeWhile_append_dropWhile
  have hspaces : ∀ c ∈ layout.leading.takeWhile isSeparator, isSeparator c := fun c hc => mem_takeWhile_imp hc
  generalize layout.leading.takeWhile isSeparator = spaces at happend hspaces
  generalize layout.leading.dropWhile isSeparator = rest at happend htidy
  have hwhite : ∀ c ∈ spaces ++ rest, isWhite c := happend ▸ layout.leading_white
  have hnew : ∀ c ∈ rest ++ first, isSeparator c = false := by
    intro c hc
    rcases List.mem_append.mp hc with hc | hc
    · exact htidy c hc
    · exact hfirst.chars c hc
  have hrest : ∀ c ∈ rest, isWhite c := fun c hc => hwhite c (by simp [hc])
  unfold words Layout.extra
  rw [← happend]
  by_cases hnil : spaces = []
  · subst hnil
    rw [if_neg (by rintro ⟨c, hc, hsep⟩; simp [htidy c hc] at hsep), nil_append, Words.foldl_word rfl hnew]
    exact ⟨⟨rfl, .nil, .of_front hrest⟩, rfl⟩
  · obtain ⟨space, spaces', hcons⟩ := exists_cons_of_ne_nil hnil
    have hsome : ∃ c ∈ spaces ++ rest, isSeparator c := ⟨space, by simp [hcons], hspaces space (by simp [hcons])⟩
    have hchild : '>' ∉ spaces := fun hmem => absurd (hwhite '>' (by simp [hmem])) (by decide)
    rw [if_pos hsome, append_assoc, foldl_append, Words.foldl_cut rfl hnil hspaces,
      Words.foldl_new rfl (by simp [hfirst.ne_nil]) hnew, if_neg hchild]
    exact ⟨⟨rfl, .nil, .of_front hrest⟩, rfl⟩

theorem Forms.trailing {trailing : List Char} {t : Words}
    (h : Forms done current t) (hwhite : ∀ c ∈ trailing, isWhite c)
    (htidy : ∀ c ∈ trailing.dropWhile (!isSeparator ·), isSeparator c = true) :
    (trailing.foldl Words.char t).parts = t.parts ∧ (trailing.foldl Words.char t).combinators = t.combinators ∧
      Padded current (trailing.foldl Words.char t).word := by
  have hpadded := h.word.append hwhite
  have happend : trailing.takeWhile (!isSeparator ·) ++ trailing.dropWhile (!isSeparator ·) = trailing :=
    takeWhile_append_dropWhile
  have hword : ∀ c ∈ trailing.takeWhile (!isSeparator ·), isSeparator c = false := by
    intro c hc
    simpa using mem_takeWhile_imp hc
  generalize trailing.takeWhile (!isSeparator ·) = word at happend hword
  generalize trailing.dropWhile (!isSeparator ·) = spaces at happend htidy
  rw [← happend] at hpadded ⊢
  rw [foldl_append, Words.foldl_word h.cut hword]
  by_cases hnil : spaces = []
  · subst hnil
    exact ⟨rfl, rfl, by simpa using hpadded⟩
  · rw [Words.foldl_cut (t := { t with word := t.word ++ word }) h.cut hnil htidy]
    exact ⟨rfl, rfl, by simpa using hpadded⟩

/-! ### Tidy texts -/

section

variable {styleClassRegistry pseudoClassRegistry : Registry}

/-- The parts that are taken apart. -/
def fullParts (text : List Char) : List (List Char) :=
  ((words text).parts ++ [(words text).word]).filter fun part => part ≠ []

/-- The last step. -/
def assemble (selectors : List SimpleSelector) (combinators : List Combinator) : Created :=
  match selectors with
  | [selector] => .simple selector
  | _ => .compound selectors combinators

theorem createSelector_ok_iff {text : List Char} (hne : text ≠ []) (created : Option Created) :
    createSelector styleClassRegistry pseudoClassRegistry (some text) = .ok created ↔
      ∃ selectors, (fullParts text).mapM (parsePart styleClassRegistry pseudoClassRegistry) = .ok selectors ∧
        created = some (assemble selectors (words text).combinators) := by
  obtain ⟨c, rest, rfl⟩ := exists_cons_of_ne_nil hne
  unfold createSelector fullParts
  simp only [scanParts_eq]
  generalize (((words (c :: rest)).parts ++ [(words (c :: rest)).word]).filter fun part => part ≠ []).mapM
      (parsePart styleClassRegistry pseudoClassRegistry) = result
  cases result with
  | error e => simp [bind, Except.bind]
  | ok selectors =>
    simp only [bind, Except.bind, Except.ok.injEq, exists_eq_left']
    rcases selectors with - | ⟨selector, - | ⟨selector', selectors⟩⟩
    all_goals
      simp only [pure, Except.pure, Except.ok.injEq]
      exact eq_comm

theorem SimpleText.isSimple (text : SimpleText styleClassRegistry pseudoClassRegistry) : IsSimple text.text := by
  refine ⟨fun hnil => ?_, fun c hc => isSeparator_of_not_white (text.chars c hc).1 (text.chars c hc).2⟩
  have hdenotes := text.denotes
  rw [hnil] at hdenotes
  simp [createSelector, pure, Except.pure] at hdenotes

theorem SimpleText.parsePart (text : SimpleText styleClassRegistry pseudoClassRegistry) :
    parsePart styleClassRegistry pseudoClassRegistry text.text = .ok text.selector := by
  have hsimple := text.isSimple
  obtain ⟨selectors, hmap, heq⟩ := (createSelector_ok_iff hsimple.ne_nil _).mp text.denotes
  have hfull : fullParts text.text = [text.text] := by
    unfold fullParts words
    rw [Words.foldl_word rfl hsimple.chars]
    exact filter_cons_of_pos (decide_eq_true hsimple.ne_nil)
  rw [hfull, Outcome.mapM_eq_ok] at hmap
  obtain ⟨selector, rest, hparse, hnil, rfl⟩ := List.forall₂_cons_left_iff.mp hmap
  obtain rfl := List.forall₂_nil_left_iff.mp hnil
  obtain rfl : text.selector = selector := by simpa [assemble] using heq
  exact hparse

theorem parse_padded (texts : List (SimpleText styleClassRegistry pseudoClassRegistry)) {parts : List (List Char)}
    (h : Forall₂ Padded (texts.map SimpleText.text) parts) :
    Forall₂ (fun part selector => Selector.parsePart styleClassRegistry pseudoClassRegistry part = .ok selector)
      parts (texts.map SimpleText.selector) := by
  induction texts generalizing parts with
  | nil =>
    obtain rfl := List.forall₂_nil_left_iff.mp h
    exact .nil
  | cons text texts ih =>
    obtain ⟨part, parts', hpart, hparts, rfl⟩ := List.forall₂_cons_left_iff.mp h
    exact .cons (parsePart_padded hpart text.parsePart) (ih hparts)

/-- The selectors and the combinators of a text in which white space is next to the
selectors. -/
theorem createSelector_tidy (layout : Layout)
    (hleading : ∀ c ∈ layout.leading.dropWhile isSeparator, isSeparator c = false)
    (hjoints : ∀ joint ∈ layout.joints, joint.Tidy)
    (htrailing : ∀ c ∈ layout.trailing.dropWhile (!isSeparator ·), isSeparator c = true)
    (first : SimpleText styleClassRegistry pseudoClassRegistry)
    (rest : List (SimpleText styleClassRegistry pseudoClassRegistry)) (hlength : rest.length = layout.joints.length) :
    createSelector styleClassRegistry pseudoClassRegistry (some (layout.text first.text (rest.map SimpleText.text))) =
      .ok (some (assemble (first.selector :: rest.map SimpleText.selector)
        (layout.extra ++ layout.joints.map Joint.combinator))) := by
  obtain ⟨hforms, hextra⟩ := forms_leading hleading first.isSimple
  have htexts : ∀ text ∈ rest.map SimpleText.text, IsSimple text := by
    intro text htext
    obtain ⟨simple, -, rfl⟩ := List.mem_map.mp htext
    exact simple.isSimple
  obtain ⟨done, current, heq, hcurrent, hjoined, hcombinators⟩ :=
    hforms.joints hjoints first.isSimple.ne_nil htexts (by simpa using hlength)
  obtain ⟨hparts, hafter, hword⟩ := hjoined.trailing layout.trailing_white htrailing
  have hwords : words (layout.text first.text (rest.map SimpleText.text)) = layout.trailing.foldl Words.char
        (((layout.joints.zip (rest.map SimpleText.text)).flatMap fun (joint, text) => joint.text ++ text).foldl
          Words.char (words (layout.leading ++ first.text))) := by
    simp [words, Layout.text]
  have hfull : Forall₂ Padded ((first :: rest).map SimpleText.text)
      (fullParts (layout.text first.text (rest.map SimpleText.text))) := by
    have hlast : [(words (layout.text first.text (rest.map SimpleText.text))).word].filter (fun part => part ≠ []) =
        [(words (layout.text first.text (rest.map SimpleText.text))).word] :=
      filter_cons_of_pos (decide_eq_true (hwords ▸ hword.ne_nil hcurrent))
    have hdone : (first :: rest).map SimpleText.text = done ++ [current] := heq.symm
    rw [fullParts, filter_append, hlast, hwords, hparts, hdone]
    exact rel_append hjoined.parts (.cons hword .nil)
  refine (createSelector_ok_iff ?_ _).mpr ⟨_, Outcome.mapM_eq_ok.mpr (parse_padded (first :: rest) hfull), ?_⟩
  · have := first.isSimple.ne_nil
    simp [Layout.text, this]
  · rw [hwords, hafter, hcombinators, hextra]
    rfl

end

/-! ### Texts that are not tidy

All simple selectors are `a` here.  A part that is not empty and does not have just one `a` is
not this selector.
-/

def Bad (part : List Char) : Prop := part ≠ [] ∧ part.count 'a' ≠ 1

/-- There is a bad part, or there will be one: the word, or what has been cut off of it, has too
many `a`, or it has been cut off and has none. -/
def Words.Doomed (t : Words) : Prop :=
  (∃ part ∈ t.parts, Bad part) ∨
    (2 ≤ t.word.count 'a' ∧ ∀ part combinator, t.cut = some (part, combinator) → 2 ≤ part.count 'a') ∨
    (t.word.count 'a' = 0 ∧ t.word ≠ [] ∧
      ∃ part combinator, t.cut = some (part, combinator) ∧ part ≠ [] ∧ part.count 'a' = 0)

theorem bad_of_two {part : List Char} (h : 2 ≤ part.count 'a') : Bad part := by
  refine ⟨?_, by omega⟩
  rintro rfl
  simp at h

theorem bad_of_none {part : List Char} (hne : part ≠ []) (h : part.count 'a' = 0) : Bad part := ⟨hne, by omega⟩

namespace Words

variable {t : Words} {text : List Char}

theorem Doomed.bad (h : t.Doomed) : ∃ part ∈ t.parts ++ [t.word], Bad part := by
  rcases h with ⟨part, hpart, hbad⟩ | ⟨htwo, -⟩ | ⟨hnone, hne, -⟩
  · exact ⟨part, by simp [hpart], hbad⟩
  · exact ⟨t.word, by simp, bad_of_two htwo⟩
  · exact ⟨t.word, by simp, bad_of_none hne hnone⟩

theorem count_separator {ch : Char} (h : isSeparator ch = true) (word : List Char) :
    (word ++ [ch]).count 'a' = word.count 'a' := by
  have hne : ch ≠ 'a' := by
    rintro rfl
    exact absurd h (by decide)
  simp [hne]

theorem char_separator {ch : Char} (h : isSeparator ch = true) :
    (t.char ch).parts = t.parts ∧ (t.char ch).word = t.word ++ [ch] ∧
      ∃ combinator, (t.char ch).cut = some ((t.cut.map (·.1)).getD t.word, combinator) := by
  simp only [isSeparator, decide_eq_true_eq] at h
  rcases h with rfl | rfl
  · cases hcut : t.cut with
    | none => simp [char, hcut]
    | some cut =>
      simp only [char, if_true, hcut, true_and]
      exact ⟨cut.2, rfl⟩
  · simp [char]

theorem Doomed.char (h : t.Doomed) (ch : Char) : (t.char ch).Doomed := by
  cases hsep : isSeparator ch with
  | true =>
    obtain ⟨hparts, hword, combinator, hcut⟩ := t.char_separator hsep
    unfold Doomed at h ⊢
    rw [hparts, hword, hcut, count_separator hsep]
    rcases h with hbad | ⟨htwo, hcuts⟩ | ⟨hnone, -, part, combinator', hcut', hne, hcount⟩
    · exact .inl hbad
    · refine .inr (.inl ⟨htwo, fun part combinator' heq => ?_⟩)
      obtain ⟨rfl, -⟩ := Prod.mk.inj (Option.some.inj heq)
      cases ht : t.cut with
      | none => exact htwo
      | some cut => exact hcuts cut.1 cut.2 ht
    · rw [hcut']
      exact .inr (.inr ⟨hnone, by simp, part, combinator, rfl, hne, hcount⟩)
  | false =>
    rw [char_plain hsep]
    cases hcut : t.cut with
    | none =>
      rcases h with hbad | ⟨htwo, -⟩ | ⟨-, -, part, combinator, hcut', -⟩
      · exact .inl hbad
      · refine .inr (.inl ⟨?_, nofun⟩)
        simp only [count_append]
        omega
      · simp [hcut] at hcut'
    | some cut =>
      obtain ⟨part, combinator⟩ := cut
      rcases h with ⟨bad, hmem, hbad⟩ | ⟨-, hcuts⟩ | ⟨-, -, part', combinator', hcut', hne, hcount⟩
      · exact .inl ⟨bad, by simp [hmem], hbad⟩
      · exact .inl ⟨part, by simp, bad_of_two (hcuts part combinator hcut)⟩
      · obtain rfl : part = part' := by
          rw [hcut] at hcut'
          exact (Prod.mk.inj (Option.some.inj hcut')).1
        exact .inl ⟨part, by simp, bad_of_none hne hcount⟩

theorem Doomed.foldl (h : t.Doomed) (text : List Char) : (text.foldl Words.char t).Doomed := by
  induction text generalizing t with
  | nil => exact h
  | cons ch text ih => exact ih (h.char ch)

theorem doomed_of_stray (hstart : t.cut = none → t.word = []) (hcount : text.count 'a' = 0)
    (hhead : ∀ c ∈ text.head?, isSeparator c = false) (hsep : ∃ c ∈ text, isSeparator c = true) :
    (text.foldl Words.char t).Doomed := by
  obtain ⟨word, separators, rest, rfl, hword, hseparators, -, hnone⟩ := eq_word_separators text
  have hne : separators ≠ [] := by
    intro hnil
    obtain ⟨c, hc, hsep⟩ := hsep
    simp [hnone.mp hnil c hc] at hsep
  obtain ⟨ch, separators, rfl⟩ := exists_cons_of_ne_nil hne
  rw [forall_mem_cons] at hseparators
  have hwordne : word ≠ [] := by
    rintro rfl
    have := hhead ch (by simp)
    simp [hseparators.1] at this
  simp only [count_append] at hcount
  have hafter : (word.foldl Words.char t).cut = none ∧ (word.foldl Words.char t).word = word := by
    cases hcut : t.cut with
    | none =>
      rw [foldl_word hcut hword]
      exact ⟨hcut, by simp [hstart hcut]⟩
    | some cut =>
      rw [foldl_new hcut hwordne hword]
      exact ⟨rfl, rfl⟩
  have hdoomed : ((word.foldl Words.char t).char ch).Doomed := by
    obtain ⟨-, hword', combinator, hcut⟩ := (word.foldl Words.char t).char_separator hseparators.1
    rw [hafter.2] at hword'
    rw [hafter.1, hafter.2] at hcut
    refine .inr (.inr ⟨?_, by rw [hword']; simp, word, combinator, hcut, hwordne, by omega⟩)
    rw [hword', count_separator hseparators.1]
    omega
  rw [append_assoc, foldl_append]
  exact hdoomed.foldl _

theorem doomed_of_separators (hcut : t.cut = none) (hcount : text.count 'a' = 0)
    (hsep : ∃ c ∈ text.dropWhile isSeparator, isSeparator c = true)
    (hfirst : ∃ c ∈ text.head?, isSeparator c = true) :
    (text.foldl Words.char t).Doomed := by
  have happend : text.takeWhile isSeparator ++ text.dropWhile isSeparator = text := takeWhile_append_dropWhile
  have hspaces : ∀ c ∈ text.takeWhile isSeparator, isSeparator c := fun c hc => mem_takeWhile_imp hc
  have hhead : ∀ c ∈ (text.dropWhile isSeparator).head?, isSeparator c = false := by
    intro c hc
    have hfirst := head?_dropWhile_not isSeparator text
    rw [hc] at hfirst
    exact hfirst
  have hne : text.takeWhile isSeparator ≠ [] := by
    obtain ⟨c, hc, hspace⟩ := hfirst
    obtain ⟨rest, rfl⟩ := List.head?_eq_some_iff.mp hc
    simp [hspace]
  rw [← happend, count_append] at hcount
  rw [← happend, foldl_append]
  refine doomed_of_stray ?_ (by omega) hhead hsep
  rw [foldl_cut hcut hne hspaces]
  exact nofun

theorem char_a (t : Words) : (t.char 'a').cut = none ∧ 1 ≤ (t.char 'a').word.count 'a' := by
  have hchar := @char_plain t 'a' (by decide)
  cases hcut : t.cut with
  | none => simp [hchar, hcut]
  | some cut => simp [hchar, hcut]

end Words

/-- The first separators of a text are followed by white space and others. -/
theorem doomed_after_word {text : List Char} {t : Words} (hcut : t.cut = none) (hcount : text.count 'a' = 0)
    (hsep : ∃ c ∈ text, isSeparator c = true)
    (hstray : ∃ c ∈ (text.dropWhile (!isSeparator ·)).dropWhile isSeparator, isSeparator c = true)
    (rest : List Char) : ((text ++ rest).foldl Words.char t).Doomed := by
  have happend : text.takeWhile (!isSeparator ·) ++ text.dropWhile (!isSeparator ·) = text :=
    takeWhile_append_dropWhile
  have hword : ∀ c ∈ text.takeWhile (!isSeparator ·), isSeparator c = false := by
    intro c hc
    simpa using mem_takeWhile_imp hc
  have hfirst : ∃ c ∈ (text.dropWhile (!isSeparator ·)).head?, isSeparator c = true := by
    have hhead := head?_dropWhile_not (!isSeparator ·) text
    cases hdrop : (text.dropWhile (!isSeparator ·)).head? with
    | none =>
      rw [head?_eq_none_iff, dropWhile_eq_nil_iff] at hdrop
      obtain ⟨c, hc, hsep⟩ := hsep
      simpa [hsep] using hdrop c hc
    | some c =>
      rw [hdrop] at hhead
      exact ⟨c, rfl, by simpa using hhead⟩
  generalize text.takeWhile (!isSeparator ·) = word at happend hword
  rw [← happend, count_append] at hcount
  rw [← happend, append_assoc, foldl_append, Words.foldl_word hcut hword, foldl_append]
  exact (Words.doomed_of_separators (t := { t with word := t.word ++ word }) hcut (by omega) hstray hfirst).foldl rest

theorem not_joint_tidy {joint : Joint} (h : ¬ joint.Tidy) {t : Words} (hcut : t.cut = none)
    (hcount : 1 ≤ t.word.count 'a') : ((joint.text ++ ['a']).foldl Words.char t).Doomed := by
  have hnone : joint.text.count 'a' = 0 := by
    rw [count_eq_zero]
    intro hmem
    exact absurd (joint.chars 'a' hmem) (by decide)
  by_cases hsep : ∃ c ∈ joint.text, isSeparator c = true
  · have hstray : ∃ c ∈ (joint.text.dropWhile (!isSeparator ·)).dropWhile isSeparator, isSeparator c = true := by
      by_contra hnot
      refine h ⟨hsep, fun c hc => ?_⟩
      by_contra hc'
      exact hnot ⟨c, hc, by simpa using hc'⟩
    exact doomed_after_word hcut hnone hsep hstray ['a']
  · have hplain : ∀ c ∈ joint.text ++ ['a'], isSeparator c = false := by
      intro c hc
      rcases List.mem_append.mp hc with hc | hc
      · by_contra hc'
        exact hsep ⟨c, hc, by simpa using hc'⟩
      · obtain rfl := List.mem_singleton.mp hc
        decide
    rw [Words.foldl_word hcut hplain]
    refine .inr (.inl ⟨?_, by simp [hcut]⟩)
    simp only [count_append, count_singleton_self]
    omega

theorem joints_tidy_or_doomed {joints : List Joint} {t : Words} (hcut : t.cut = none)
    (hcount : 1 ≤ t.word.count 'a') :
    ((∀ joint ∈ joints, joint.Tidy) ∧
        ((joints.flatMap fun joint => joint.text ++ ['a']).foldl Words.char t).cut = none) ∨
      ((joints.flatMap fun joint => joint.text ++ ['a']).foldl Words.char t).Doomed := by
  induction joints generalizing t with
  | nil => exact .inl ⟨by simp, hcut⟩
  | cons joint joints ih =>
    rw [flatMap_cons, foldl_append]
    by_cases htidy : joint.Tidy
    · have hafter : ((joint.text ++ ['a']).foldl Words.char t).cut = none ∧
          1 ≤ ((joint.text ++ ['a']).foldl Words.char t).word.count 'a' := by
        rw [foldl_append]
        exact Words.char_a _
      rcases ih hafter.1 hafter.2 with ⟨hall, hnone⟩ | hdoomed
      · exact .inl ⟨by simpa [htidy] using hall, hnone⟩
      · exact .inr hdoomed
    · exact .inr ((not_joint_tidy htidy hcut hcount).foldl _)

theorem leading_tidy_or_doomed {leading : List Char} (hwhite : ∀ c ∈ leading, isWhite c) :
    (∀ c ∈ leading.dropWhile isSeparator, isSeparator c = false) ∨ (words leading).Doomed := by
  by_cases htidy : ∀ c ∈ leading.dropWhile isSeparator, isSeparator c = false
  · exact .inl htidy
  have hnone : leading.count 'a' = 0 := by
    rw [count_eq_zero]
    intro hmem
    exact absurd (hwhite 'a' hmem) (by decide)
  have hstray : ∃ c ∈ leading.dropWhile isSeparator, isSeparator c = true := by
    by_contra hnot
    refine htidy fun c hc => ?_
    by_contra hc'
    exact hnot ⟨c, hc, by simpa using hc'⟩
  refine .inr ?_
  cases leading with
  | nil => simp at hstray
  | cons c leading =>
    cases hsep : isSeparator c with
    | true => exact Words.doomed_of_separators rfl hnone hstray ⟨c, rfl, hsep⟩
    | false =>
      rw [dropWhile_cons, if_neg (by simp [hsep])] at hstray
      exact Words.doomed_of_stray (fun _ => rfl) hnone (by simpa using hsep) hstray

theorem trailing_tidy_or_bad {trailing : List Char} (hwhite : ∀ c ∈ trailing, isWhite c) {t : Words}
    (hcut : t.cut = none) :
    (∀ c ∈ trailing.dropWhile (!isSeparator ·), isSeparator c = true) ∨
      ∃ part ∈ (trailing.foldl Words.char t).parts ++ [(trailing.foldl Words.char t).word], Bad part := by
  have hnone : trailing.count 'a' = 0 := by
    rw [count_eq_zero]
    intro hmem
    exact absurd (hwhite 'a' hmem) (by decide)
  by_cases hall : ∀ c ∈ trailing.dropWhile (!isSeparator ·), isSeparator c = true
  · exact .inl hall
  refine .inr ?_
  obtain ⟨word, separators, rest, heq, hword, hseparators, hrest, hnil⟩ := eq_word_separators trailing
  have hne : separators ≠ [] := by
    intro hseps
    refine hall fun c hc => ?_
    rw [List.dropWhile_eq_nil_iff.mpr (by simpa using hnil.mp hseps)] at hc
    simp at hc
  have hrestne : rest ≠ [] := by
    rw [hrest]
    intro hdrop
    exact hall (List.dropWhile_eq_nil_iff.mp hdrop)
  by_cases hstray : ∃ c ∈ rest, isSeparator c = true
  · have hsep : ∃ c ∈ trailing, isSeparator c = true := by
      obtain ⟨c, hc, hsep⟩ := hstray
      exact ⟨c, by simp [heq, hc], hsep⟩
    have hdoomed := doomed_after_word hcut hnone hsep (hrest ▸ hstray) []
    rw [append_nil] at hdoomed
    exact hdoomed.bad
  · have hplain : ∀ c ∈ rest, isSeparator c = false := by
      intro c hc
      by_contra hc'
      exact hstray ⟨c, hc, by simpa using hc'⟩
    have hcount : rest.count 'a' = 0 := by
      rw [heq, count_append] at hnone
      omega
    rw [heq, append_assoc, foldl_append, Words.foldl_word hcut hword, foldl_append,
      Words.foldl_cut (t := { t with word := t.word ++ word }) hcut hne hseparators,
      Words.foldl_new rfl hrestne hplain]
    exact ⟨rest, by simp, bad_of_none hrestne hcount⟩

/-! ### The layouts that are read -/

section

variable (styleClassRegistry pseudoClassRegistry : Registry)

/-- The selector `a`. -/
def selectorA : SimpleSelector :=
  { name := "a", styleClassSet := .empty, id := "", pseudoClassState := .empty, nodeOrientation := .inherit }

def textA : SimpleText styleClassRegistry pseudoClassRegistry :=
  ⟨['a'], by simp [isWhite], selectorA, rfl⟩

end

section

variable {styleClassRegistry pseudoClassRegistry : Registry}

theorem count_trim (s : List Char) : (trim s).count 'a' = s.count 'a' := by
  have hblank : ∀ l : List Char, (∀ c ∈ l, c ≤ ' ') → l.count 'a' = 0 := by
    intro l hl
    rw [count_eq_zero]
    intro hmem
    exact absurd (hl 'a' hmem) (by decide)
  have hfront : s.takeWhile (· ≤ ' ') ++ s.dropWhile (· ≤ ' ') = s := takeWhile_append_dropWhile
  have hback : trim s ++ (s.dropWhile (· ≤ ' ')).rtakeWhile (· ≤ ' ') = s.dropWhile (· ≤ ' ') :=
    rdropWhile_append_rtakeWhile
  have hfront' := hblank (s.takeWhile (· ≤ ' ')) (fun c hc => by simpa using mem_takeWhile_imp hc)
  have hback' := hblank ((s.dropWhile (· ≤ ' ')).rtakeWhile (· ≤ ' '))
    (fun c hc => by simpa using mem_rtakeWhile_imp hc)
  have hcount := congrArg (count 'a') hfront
  have hcount' := congrArg (count 'a') hback
  rw [count_append] at hcount hcount'
  omega

theorem trim_subset (s : List Char) : trim s ⊆ s := by
  intro c hc
  have hback : trim s <+: s.dropWhile (· ≤ ' ') := rdropWhile_prefix _ _
  exact (dropWhile_subset _) (hback.subset hc)

theorem splitAround_of_not_mem {sep : Char} {s : List Char} (h : sep ∉ s) : splitAround sep s = [s] := by
  simp [splitAround, splitOn_eq_singleton h]

theorem count_of_parsePart {part : List Char} {selector : SimpleSelector}
    (hchars : ∀ c ∈ part, isWhite c ∨ c = '>' ∨ c = 'a')
    (hparse : parsePart styleClassRegistry pseudoClassRegistry part = .ok selector) (hname : selector.name = "a") :
    part.count 'a' = 1 := by
  have hnot : ∀ c ∈ [':', '.', '#'], c ∉ part := by
    intro c hc hmem
    have hfalse : ∀ c ∈ [':', '.', '#'], ¬ (isWhite c ∨ c = '>' ∨ c = 'a') := by simp [isWhite]
    exact hfalse c hc (hchars c hmem)
  have hcolon := splitAround_of_not_mem (hnot ':' (by simp))
  have hstop := splitAround_of_not_mem (fun hmem => hnot '.' (by simp) (trim_subset part hmem))
  have hhash : '#' ∉ trim part := fun hmem => hnot '#' (by simp) (trim_subset part hmem)
  unfold parsePart at hparse
  rw [hcolon] at hparse
  simp only [getAt_zero, bind, Except.bind, hstop] at hparse
  cases htrim : trim part with
  | nil =>
    rw [htrim] at hparse
    have hstar : selector.name = "*" := by
      rw [← Except.ok.inj hparse]
      rfl
    rw [hname] at hstar
    exact absurd hstar (by decide)
  | cons c rest =>
    have hne : c ≠ '#' := by
      rintro rfl
      exact hhash (by simp [htrim])
    rw [htrim] at hparse
    simp only [nameAndId, hne] at hparse
    have hself : selector.name = String.ofList (trim (c :: rest)) := by
      rw [← Except.ok.inj hparse]
      rfl
    have ha : trim (c :: rest) = ['a'] := by
      rw [hname, ← String.toList_inj] at hself
      simpa using hself.symm
    have hcount := count_trim (c :: rest)
    rw [ha, ← htrim, count_trim] at hcount
    exact hcount.symm

end

/-- The words have characters of the text. -/
structure Words.Within (text : List Char) (t : Words) : Prop where
  parts : ∀ part ∈ t.parts, part ⊆ text
  word : t.word ⊆ text
  cut : ∀ cut ∈ t.cut, cut.1 ⊆ text

theorem Words.Within.char {text : List Char} {t : Words} (h : t.Within text) {ch : Char} (hch : ch ∈ text) :
    (t.char ch).Within text := by
  have hword : t.word ++ [ch] ⊆ text := by
    intro c hc
    rcases List.mem_append.mp hc with hc | hc
    · exact h.word hc
    · exact List.mem_singleton.mp hc ▸ hch
  cases hsep : isSeparator ch with
  | true =>
    obtain ⟨hparts, hnext, combinator, hcut⟩ := t.char_separator hsep
    refine ⟨hparts ▸ h.parts, hnext ▸ hword, ?_⟩
    rw [hcut]
    intro cut heq
    obtain rfl := Option.some.inj heq
    cases ht : t.cut with
    | none => exact h.word
    | some cut => exact h.cut cut ht
  | false =>
    rw [Words.char_plain hsep]
    cases ht : t.cut with
    | none => exact ⟨h.parts, hword, by simp⟩
    | some cut =>
      refine ⟨fun part hpart => ?_, by simpa using hch, nofun⟩
      rcases List.mem_append.mp hpart with hpart | hpart
      · exact h.parts part hpart
      · exact List.mem_singleton.mp hpart ▸ h.cut cut ht

theorem words_subset (text : List Char) : ∀ part ∈ (words text).parts ++ [(words text).word], part ⊆ text := by
  have hrun : ∀ (rest : List Char) (t : Words), rest ⊆ text → t.Within text →
      (rest.foldl Words.char t).Within text := by
    intro rest
    induction rest with
    | nil => exact fun t _ h => h
    | cons ch rest ih =>
      intro t hrest h
      rw [cons_subset] at hrest
      exact ih (t.char ch) hrest.2 (h.char hrest.1)
  have hfinal := hrun text {} (List.Subset.refl text) ⟨by simp, by simp, by simp⟩
  intro part hpart
  rcases List.mem_append.mp hpart with hpart | hpart
  · exact hfinal.parts part hpart
  · exact List.mem_singleton.mp hpart ▸ hfinal.word

section

variable {styleClassRegistry pseudoClassRegistry : Registry}

/-- The text with `a` for each simple selector. -/
def Layout.textA (layout : Layout) : List Char :=
  layout.leading ++ ['a'] ++ (layout.joints.flatMap fun joint => joint.text ++ ['a']) ++ layout.trailing

theorem Layout.text_textA (layout : Layout) : layout.text ['a']
    (layout.joints.map fun _ => ['a']) = layout.textA := by
  have hjoints : ∀ joints : List Joint,
      ((joints.zip (joints.map fun _ => ['a'])).flatMap fun (joint, text) => joint.text ++ text) =
        joints.flatMap fun joint => joint.text ++ ['a'] := by
    intro joints
    induction joints with
    | nil => rfl
    | cons joint joints ih => simpa using ih
  rw [Layout.text, hjoints, Layout.textA]

theorem Layout.chars_textA (layout : Layout) : ∀ c ∈ layout.textA, isWhite c ∨ c = '>' ∨ c = 'a' := by
  intro c hc
  simp only [Layout.textA, mem_append, mem_flatMap, mem_singleton] at hc
  rcases hc with ((hc | rfl) | ⟨joint, -, hc | rfl⟩) | hc
  · exact .inl (layout.leading_white c hc)
  · exact .inr (.inr rfl)
  · rcases joint.chars c hc with h | h
    · exact .inl h
    · exact .inr (.inl h)
  · exact .inr (.inr rfl)
  · exact .inl (layout.trailing_white c hc)

variable {layout : Layout}

/-- What has been put together of selectors that are all alike. -/
theorem of_assemble {selectors : List SimpleSelector} {combinators : List Combinator}
    {first : SimpleSelector} {rest : List SimpleSelector}
    (h : assemble selectors combinators = layout.selector first rest) : selectors = first :: rest := by
  unfold assemble Layout.selector at h
  split at h <;> split at h <;> simp_all

theorem Layout.IsRead.not_bad (h : layout.IsRead styleClassRegistry pseudoClassRegistry) :
    ¬ ∃ part ∈ (words layout.textA).parts ++ [(words layout.textA).word], Bad part := by
  rintro ⟨part, hpart, hne, hcount⟩
  have hread := h (Selector.textA _ _) (layout.joints.map fun _ => Selector.textA _ _) (by simp)
  have htext : layout.text (Selector.textA styleClassRegistry pseudoClassRegistry).text
      ((layout.joints.map fun _ => Selector.textA styleClassRegistry pseudoClassRegistry).map SimpleText.text) =
        layout.textA := by
    rw [map_map]
    exact layout.text_textA
  rw [htext] at hread
  obtain ⟨selectors, hmap, heq⟩ := (createSelector_ok_iff (by simp [Layout.textA]) _).mp hread
  obtain rfl := of_assemble (Option.some.inj heq).symm
  have hall : ∀ selector ∈ (Selector.textA styleClassRegistry pseudoClassRegistry).selector ::
      (layout.joints.map fun _ => Selector.textA styleClassRegistry pseudoClassRegistry).map SimpleText.selector,
      selector.name = "a" := by
    intro selector hmem
    simp only [map_map, mem_cons, mem_map] at hmem
    rcases hmem with rfl | ⟨_, _, rfl⟩ <;> rfl
  rw [Outcome.mapM_eq_ok] at hmap
  have hfull : part ∈ fullParts layout.textA := List.mem_filter.mpr ⟨hpart, decide_eq_true hne⟩
  obtain ⟨i, hi, rfl⟩ := getElem_of_mem hfull
  have hi' := hmap.length_eq ▸ hi
  have hparse := List.forall₂_iff_get.mp hmap |>.2 i hi hi'
  refine hcount (count_of_parsePart (fun c hc => ?_) hparse (hall _ (getElem_mem hi')))
  exact layout.chars_textA c (words_subset _ _ hpart hc)

/-- A layout that is read has all other white space next to a selector. -/
theorem Layout.IsRead.next_to (h : layout.IsRead styleClassRegistry pseudoClassRegistry) :
    (∀ c ∈ layout.leading.dropWhile isSeparator, isSeparator c = false) ∧ (∀ joint ∈ layout.joints, joint.Tidy) ∧
      ∀ c ∈ layout.trailing.dropWhile (!isSeparator ·), isSeparator c = true := by
  have hbad := h.not_bad
  have hwords : words layout.textA = layout.trailing.foldl Words.char
      ((layout.joints.flatMap fun joint => joint.text ++ ['a']).foldl Words.char ((words layout.leading).char 'a')) := by
    simp [words, Layout.textA]
  rw [hwords] at hbad
  have hnot : ∀ t : Words, (layout.trailing.foldl Words.char t).Doomed →
      ∃ part ∈ (layout.trailing.foldl Words.char t).parts ++ [(layout.trailing.foldl Words.char t).word], Bad part :=
    fun t ht => ht.bad
  have ha := (words layout.leading).char_a
  rcases @joints_tidy_or_doomed layout.joints _ ha.1 ha.2 with ⟨hjoints, hcut⟩ | hdoomed
  · refine ⟨?_, hjoints, (trailing_tidy_or_bad layout.trailing_white hcut).resolve_right hbad⟩
    refine (leading_tidy_or_doomed layout.leading_white).resolve_right fun hdoomed => hbad (hnot _ ?_)
    exact ((hdoomed.char 'a').foldl _).foldl _
  · exact absurd (hnot _ (hdoomed.foldl _)) hbad

/-- Without an extra combinator the selector is what the text says. -/
theorem assemble_eq_iff (layout : Layout) (first : SimpleSelector) (rest : List SimpleSelector)
    (hlength : rest.length = layout.joints.length) :
    assemble (first :: rest) (layout.extra ++ layout.joints.map Joint.combinator) = layout.selector first rest ↔
      layout.joints = [] ∨ layout.extra = [] := by
  cases rest with
  | nil =>
    have hnil : layout.joints = [] := List.length_eq_zero_iff.mp hlength.symm
    simp [assemble, Layout.selector, hnil]
  | cons selector rest =>
    have hne : layout.joints ≠ [] := by
      intro hnil
      simp [hnil] at hlength
    simp [assemble, Layout.selector, hne]

/-- **The selectors of a text are read**, whatever they are, exactly if the text is tidy. -/
theorem isRead_iff_tidy (styleClassRegistry pseudoClassRegistry : Registry) (layout : Layout) :
    layout.IsRead styleClassRegistry pseudoClassRegistry ↔ layout.Tidy := by
  have hextra : layout.extra = [] ↔ ∀ c ∈ layout.leading, isSeparator c = false := by
    simp [Layout.extra]
  refine ⟨fun h => ?_, fun h first rest hlength => ?_⟩
  · obtain ⟨hleading, hjoints, htrailing⟩ := h.next_to
    refine ⟨fun _ => hleading, fun hne => ?_, hjoints, htrailing⟩
    let first := textA styleClassRegistry pseudoClassRegistry
    let rest := layout.joints.map fun _ => textA styleClassRegistry pseudoClassRegistry
    have hread := h first rest (by simp [rest])
    rw [createSelector_tidy layout hleading hjoints htrailing first rest (by simp [rest])] at hread
    have heq := (assemble_eq_iff layout _ _ (by simp [rest])).mp (Option.some.inj (Except.ok.inj hread))
    exact hextra.mp (heq.resolve_left hne)
  · have hleading : ∀ c ∈ layout.leading.dropWhile isSeparator, isSeparator c = false := by
      by_cases hnil : layout.joints = []
      · exact h.single hnil
      · exact fun c hc => h.several hnil c (dropWhile_subset _ hc)
    have heq := (assemble_eq_iff layout first.selector (rest.map SimpleText.selector) (by simpa using hlength)).mpr
    rw [createSelector_tidy layout hleading h.joints h.trailing first rest hlength, heq]
    by_cases hnil : layout.joints = []
    · exact .inl hnil
    · exact .inr (hextra.mpr (h.several hnil))

end

theorem encode_injective : Function.Injective fun name : String => Encodable.encode (name.toList.map Char.toNat) := by
  intro name name' h
  have hcodes := List.map_injective_iff.mpr (fun c c' heq => Char.toNat_inj.mp heq) (Encodable.encode_injective h)
  exact String.toList_inj.mp hcodes

/-- A registry that numbers all names. -/
def allNames : Registry where
  index name := Encodable.encode (name.toList.map Char.toNat)
  injective := encode_injective

/-- A space before two selectors. -/
def spaceFirst : Layout where
  leading := [' ']
  leading_white := by simp [isWhite]
  joints := [⟨[' '], by decide, by simp [isWhite], by decide⟩]
  trailing := []
  trailing_white := by simp

/-- A space before two selectors gives a combinator too many. -/
theorem not_isRead_spaceFirst : ¬ ∀ (styleClassRegistry pseudoClassRegistry : Registry) (layout : Layout),
      layout.IsRead styleClassRegistry pseudoClassRegistry := by
  intro h
  have hread := h allNames allNames spaceFirst (textA _ _) [textA _ _] rfl
  have hcreated : createSelector allNames allNames (some [' ', 'a', ' ', 'a']) =
      .ok (some (.compound [selectorA, selectorA] [.descendant, .descendant])) := rfl
  have heq := hcreated.symm.trans hread
  simp [Layout.selector, spaceFirst] at heq

end JavaFX.Selector
