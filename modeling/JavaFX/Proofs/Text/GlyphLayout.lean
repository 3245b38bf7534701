/-
The runs of a text.

As long as nothing goes wrong, the span and the bidi run that the loop is in are those of the last
character it has read, and the run that is being read lies in both.  Three things can go wrong: the
span that begins is empty, so that the next character is taken for one of it; a line terminator of two
characters goes across the end of a bidi run; and when the second half of a surrogate pair has been
read ahead, the run is cut behind the first half, or a bidi run that ends between the halves is not
noticed.  Each of them leaves a run in the wrong place, which stays there to the end.
-/
import JavaFX.Text.GlyphLayout
import JavaFX.Lib.Segments
import Mathlib.Tactic.IntervalCases

namespace JavaFX.GlyphLayout

open Segments Outcome List Nat Bool

/-! ### What is wanted -/

variable (p : Input)

/-- The spans with their lengths; a plain text is one piece without a span. -/
def pieces : List (Option TextSpan × Nat) :=
  match p.spans with
  | none => [(none, p.chars.length)]
  | some spans => spans.map fun s => (some s, s.text.length)

def spanLens : List Nat := (pieces p).map Prod.snd

/-- The bidi runs, or one run of level 0 if it is known that there is nothing to find. -/
def levels : List BidiRun :=
  match p.usedBidi with
  | none => [⟨p.chars.length, 0⟩]
  | some bidi => bidi.runs

def levelLens : List Nat := (levels p).map (·.length)

def InSpan (a b : Nat) (span : Option TextSpan) : Prop :=
  ∃ k n, (pieces p)[k]? = some (span, n) ∧ Within (spanLens p) k a b

def InLevel (a b level : Nat) : Prop :=
  ∃ k n, (levels p)[k]? = some ⟨n, level⟩ ∧ Within (levelLens p) k a b

/-- Inside one span, which it carries, and inside one bidi run, of which it has the level. -/
def Placed (r : TextRun) : Prop :=
  0 < r.length → InSpan p r.start (r.start + r.length) r.span ∧
    InLevel p r.start (r.start + r.length) r.level

/-- A line terminator of two characters in one span. -/
def Crlf (j : Nat) : Prop :=
  p.chars[j]? = some carriageReturn ∧ p.chars[j + 1]? = some lineFeed ∧ Together (spanLens p) j (j + 1)

/-- A tab or a line terminator is alone. -/
def Alone (r : TextRun) : Prop :=
  ∀ j ch, r.start ≤ j → j < r.start + r.length → p.chars[j]? = some ch → isDelimiter ch = true →
    r.start = j ∧ (Crlf p j ∧ r.length = 2 ∨ ¬ Crlf p j ∧ r.length = 1) ∨
      r.start + 1 = j ∧ Crlf p r.start ∧ r.length = 2

def IsPair (a : Nat) : Prop :=
  ∃ high low, p.chars[a]? = some high ∧ p.chars[a + 1]? = some low ∧ isHighSurrogate high = true ∧
    isLowSurrogate low = true

/-- A surrogate pair in one span and in one bidi run is cut here. -/
def SplitsPair (b : Nat) : Prop :=
  ∃ a, b = a + 1 ∧ IsPair p a ∧ Together (spanLens p) a b ∧ Together (levelLens p) a b

/-- One run behind the other. -/
def Consecutive : Nat → List TextRun → Nat → Prop
  | a, [], b => a = b
  | a, r :: rs, b => r.start = a ∧ Consecutive (a + r.length) rs b

structure Good (r : TextRun) : Prop where
  placed : Placed p r
  alone : Alone p r
  notSplit : ¬ SplitsPair p r.start

/-- The runs up to a place in the text. -/
structure Itemized (b : Nat) (runs : List TextRun) : Prop where
  consecutive : Consecutive 0 runs b
  good : ∀ r ∈ runs, Good p r

/-! ### What may not happen -/

/-- The two characters at a place are in one span, and the first of them does not begin a later
span. -/
def Joined (i : Nat) : Prop := ∃ k, (k = 0 ∨ offset (spanLens p) k < i) ∧
    i + 1 < offset (spanLens p) (k + 1)

/-- Nothing goes wrong in front of a place. -/
structure CleanTo (b : Nat) : Prop where
  /-- No span but the first is empty. -/
  spans : ∀ k span, 0 < k → (pieces p)[k]? = some (span, 0) → b ≤ offset (spanLens p) k
  lines : ∀ i, i < b → Crlf p i → ¬ Boundary (levelLens p) (i + 1)
  pairs : p.checkComplex = true → ∀ i, i < b → IsPair p i → Joined p i →
    ¬ Boundary (levelLens p) i ∧ ¬ Boundary (levelLens p) (i + 1)

variable {p}

/-! ### The input -/

/-- The texts of the spans make the text. -/
def Concatenates (p : Input) : Prop := ∀ spans, p.spans = some spans →
    spans.flatMap (·.text) = p.chars

theorem spanLens_sum (h : Concatenates p) : (spanLens p).sum = p.chars.length := by
  unfold spanLens pieces
  cases hspans : p.spans with
  | none => simp
  | some spans =>
    rw [← h spans hspans]
    simp [Function.comp_def]

theorem levelLens_sum (p : Input) : (levelLens p).sum = p.chars.length := by
  unfold levelLens levels
  cases p.usedBidi with
  | none => simp
  | some bidi => exact bidi.covers

theorem levels_nonempty (h : 0 < p.chars.length) : ∀ r ∈ levels p, 0 < r.length := by
  unfold levels
  cases p.usedBidi with
  | none =>
    intro r hr
    rw [List.mem_singleton.mp hr]
    exact h
  | some bidi => exact bidi.nonempty

variable {k n b : Nat} {span : Option TextSpan} {ch : UInt16} {r : TextRun}

theorem spanLens_get (h : (pieces p)[k]? = some (span, n)) : (spanLens p)[k]? = some n := by
  rw [spanLens, getElem?_map, h]
  rfl

theorem levelLens_get {level : Nat} (h : (levels p)[k]? = some ⟨n, level⟩) :
    (levelLens p)[k]? = some n := by
  rw [levelLens, getElem?_map, h]
  rfl

/-- There is a span behind the ones that end in front of the end. -/
theorem exists_piece (h : Concatenates p) (hk : offset (spanLens p) k < p.chars.length) :
    ∃ span n, (pieces p)[k]? = some (span, n) := by
  rw [← spanLens_sum h] at hk
  have hlt := lt_length_of_offset_lt hk
  rw [spanLens, length_map] at hlt
  exact ⟨_, _, getElem?_eq_getElem hlt⟩

theorem exists_level (hk : offset (levelLens p) k < p.chars.length) :
    ∃ level n, (levels p)[k]? = some ⟨n, level⟩ ∧ 0 < n := by
  have hpos : 0 < p.chars.length := by omega
  rw [← levelLens_sum p] at hk
  have hlt := lt_length_of_offset_lt hk
  rw [levelLens, length_map] at hlt
  exact ⟨_, _, getElem?_eq_getElem hlt, levels_nonempty hpos _ (getElem_mem hlt)⟩

theorem length_pos_of_getElem? {i : Nat} (h : p.chars[i]? = some ch) : i < p.chars.length :=
  (List.getElem?_eq_some_iff.mp h).1

/-! ### Characters -/

theorem isDelimiter_lineFeed : isDelimiter lineFeed = true := by decide

theorem not_delimiter_of_low (h : isLowSurrogate ch = true) : isDelimiter ch = false := by
  simp only [isLowSurrogate, isDelimiter, and_eq_true] at *
  by_contra hne
  simp only [not_eq_false, or_eq_true, beq_iff_eq] at hne
  obtain ⟨hlow, -⟩ := h
  rcases hne with (rfl | rfl) | rfl <;> revert hlow <;> decide

theorem not_delimiter_of_high (h : isHighSurrogate ch = true) : isDelimiter ch = false := by
  simp only [isHighSurrogate, isDelimiter, and_eq_true] at *
  by_contra hne
  simp only [not_eq_false, or_eq_true, beq_iff_eq] at hne
  obtain ⟨hhigh, -⟩ := h
  rcases hne with (rfl | rfl) | rfl <;> revert hhigh <;> decide

theorem not_high_of_low (h : isLowSurrogate ch = true) : isHighSurrogate ch = false := by
  simp only [isLowSurrogate, isHighSurrogate, and_eq_true, and_eq_false_iff, decide_eq_true_eq,
    decide_eq_false_iff_not, UInt16.le_iff_toNat_le] at *
  have h1 : (0xDC00 : UInt16).toNat = 0xDC00 := rfl
  have h2 : (0xDBFF : UInt16).toNat = 0xDBFF := rfl
  omega

/-! ### Runs -/

variable {runs : List TextRun} {a : Nat}

theorem Consecutive.append : ∀ {a b : Nat}, Consecutive a runs b → r.start = b →
    Consecutive a (runs ++ [r]) (b + r.length) := by
  induction runs with
  | nil =>
    rintro a b rfl hr
    exact ⟨hr, rfl⟩
  | cons r' runs ih =>
    rintro a b ⟨hr', hruns⟩ hr
    exact ⟨hr', ih hruns hr⟩

theorem Itemized.append (h : Itemized p b runs) (hstart : r.start = b)
    (hr : Good p r) : Itemized p (b + r.length) (runs ++ [r]) where
  consecutive := h.consecutive.append hstart
  good r' hr' := by
    rcases List.mem_append.mp hr' with hr' | hr'
    · exact h.good r' hr'
    · rw [List.mem_singleton.mp hr']
      exact hr

theorem alone_of_text (h : ∀ j ch, r.start ≤ j → j < r.start + r.length → p.chars[j]? = some ch →
    isDelimiter ch = false) : Alone p r := by
  intro j ch hj hj' hch hdelimiter
  rw [h j ch hj hj' hch] at hdelimiter
  cases hdelimiter

theorem notSplit_of_span (h : offset (spanLens p) k = b) : ¬ SplitsPair p b := by
  rintro ⟨a, rfl, -, htogether, -⟩
  exact not_together (lt_succ_self a) h htogether

theorem notSplit_of_level (h : offset (levelLens p) k = b) : ¬ SplitsPair p b := by
  rintro ⟨a, rfl, -, -, htogether⟩
  exact not_together (lt_succ_self a) h htogether

theorem notSplit_of_delimiter (h : p.chars[b]? = some ch) (hch : isDelimiter ch = true) :
    ¬ SplitsPair p b := by
  rintro ⟨a, rfl, ⟨high, low, -, hlow, -, hlow'⟩, -, -⟩
  obtain rfl := Option.some.inj (h.symm.trans hlow)
  rw [not_delimiter_of_low hlow'] at hch
  cases hch

theorem notSplit_after_delimiter (h : p.chars[b]? = some ch) (hch : isDelimiter ch = true) :
    ¬ SplitsPair p (b + 1) := by
  rintro ⟨a, hab, ⟨high, low, hhigh, -, hhigh', -⟩, -, -⟩
  obtain rfl : b = a := by omega
  obtain rfl := Option.some.inj (h.symm.trans hhigh)
  rw [not_delimiter_of_high hhigh'] at hch
  cases hch

/-- Neighbouring bidi runs differ in their levels. -/
def Maximal (p : Input) : Prop :=
  ∀ k m n a b, (levels p)[k]? = some ⟨m, a⟩ → (levels p)[k + 1]? = some ⟨n, b⟩ → a ≠ b

theorem CleanTo.extend (h : CleanTo p a)
    (hspans : ∀ k span, 0 < k → (pieces p)[k]? = some (span, 0) → a ≤ offset (spanLens p) k →
      b ≤ offset (spanLens p) k)
    (hlines : ∀ i, a ≤ i → i < b → Crlf p i → ¬ Boundary (levelLens p) (i + 1))
    (hpairs : p.checkComplex = true → ∀ i, a ≤ i → i < b → IsPair p i → Joined p i →
      ¬ Boundary (levelLens p) i ∧ ¬ Boundary (levelLens p) (i + 1)) : CleanTo p b where
  spans k span hk hpiece := hspans k span hk hpiece (h.spans k span hk hpiece)
  lines i hi hcrlf := by
    rcases Nat.lt_or_ge i a with hlt | hge
    · exact h.lines i hlt hcrlf
    · exact hlines i hge hi hcrlf
  pairs hcheck i hi hpair hjoined := by
    rcases Nat.lt_or_ge i a with hlt | hge
    · exact h.pairs hcheck i hlt hpair hjoined
    · exact hpairs hcheck i hge hi hpair hjoined

theorem pieces_length {j m : Nat} (hj : (pieces p)[j]? = some (span, m))
    (hk : (pieces p)[k]? = some (span, n)) : m = n := by
  have hlength : ∀ i l : Nat, (pieces p)[i]? = some (span, l) →
    l = (span.map (·.text.length)).getD p.chars.length := by
    intro i l hi
    have hmem := mem_of_getElem? hi
    unfold pieces at hmem
    cases hspans : p.spans with
    | none =>
      rw [hspans] at hmem
      obtain ⟨rfl, rfl⟩ := Prod.mk.inj (List.mem_singleton.mp hmem)
      rfl
    | some spans =>
      rw [hspans] at hmem
      obtain ⟨sp, -, hsp⟩ := List.mem_map.mp hmem
      obtain ⟨rfl, rfl⟩ := Prod.mk.inj hsp
      rfl
  rw [hlength j m hj, hlength k n hk]

theorem not_inSpan_empty (hk : (pieces p)[k]? = some (span, 0)) (hab : a < b) :
    ¬ InSpan p a b span := by
  rintro ⟨j, m, hj, hfrom, hto⟩
  obtain rfl := pieces_length hj hk
  rw [offset_succ (spanLens_get hj)] at hto
  omega

/-! ### The parts of a step -/

namespace Loop

variable {s s' : Loop}

/-- The run that is being read, if there is one. -/
def pending (complex : Bool) (s : Loop) : List TextRun :=
  if s.start = s.i then [] else [⟨s.start, s.i - s.start, s.bidiLevel, complex ||
    s.bidiLevel % 2 == 1, s.span, false, false⟩]

theorem cut_eq (complex : Bool) (s : Loop) : ∃ flags complex', s.cut complex =
    { s with runs := s.runs ++ s.pending complex, start := s.i, flags, complex := complex' } := by
  unfold cut pending
  by_cases h : s.start = s.i
  · rw [if_neg (by simpa using h), if_pos h, append_nil]
    exact ⟨s.flags, s.complex, congrArg (fun n => ({ s with start := n } : Loop)) h⟩
  · rw [if_pos h, if_neg h]
    exact ⟨_, _, rfl⟩

/-- The index of a span, the span and its end. -/
def AtSpan (p : Input) (s : Loop) : Prop :=
  ∃ n, (pieces p)[s.spanIndex]? = some (s.span, n) ∧ s.spanEnd = offset (spanLens p) (s.spanIndex + 1)

/-- The index of a bidi run, its level and its end. -/
def AtLevel (p : Input) (s : Loop) : Prop :=
  ∃ n, (levels p)[s.bidiIndex]? = some ⟨n, s.bidiLevel⟩ ∧
    s.bidiEnd = offset (levelLens p) (s.bidiIndex + 1)

theorem nextSpan_ok (hp : Concatenates p) (h : AtSpan p s) (hend : s.spanEnd < p.chars.length) :
    ∃ span spanEnd flags feature, s.nextSpan p = .ok
        { s with spanIndex := s.spanIndex + 1, span, spanEnd, flags, feature } ∧
      AtSpan p { s with spanIndex := s.spanIndex + 1, span, spanEnd, flags, feature } := by
  obtain ⟨n, hpiece, heq⟩ := h
  obtain ⟨span, m, hnext⟩ := exists_piece hp (heq ▸ hend)
  have hoffset := offset_succ (spanLens_get hnext)
  unfold nextSpan
  cases hspans : p.spans with
  | none =>
    rw [pieces, hspans] at hnext
    simp at hnext
  | some spans =>
    have hget := hnext
    rw [pieces, hspans, getElem?_map, Option.map_eq_some_iff] at hget
    obtain ⟨sp, hsp, hpair⟩ := hget
    obtain ⟨rfl, rfl⟩ := Prod.mk.inj hpair
    simp only [hsp]
    have hat : s.spanEnd + sp.text.length = offset (spanLens p)
      (s.spanIndex + 1 + 1) := by rw [hoffset, heq]
    unfold readFont
    split
    · exact ⟨_, _, _, _, rfl, _, hnext, hat⟩
    · exact ⟨_, _, _, _, rfl, _, hnext, hat⟩

theorem nextLevel_ok (h : AtLevel p s) (hend : s.bidiEnd < p.chars.length) :
    ∃ bidiLevel bidiEnd flags,
      s.nextLevel p = .ok { s with bidiIndex := s.bidiIndex + 1, bidiLevel, bidiEnd, flags } ∧
      AtLevel p { s with bidiIndex := s.bidiIndex + 1, bidiLevel, bidiEnd, flags } := by
  obtain ⟨n, hlevel, heq⟩ := h
  obtain ⟨level, m, hnext, -⟩ := exists_level (heq ▸ hend)
  unfold nextLevel
  cases hbidi : p.usedBidi with
  | none =>
    rw [levels, hbidi] at hnext
    simp at hnext
  | some bidi =>
    have hget := hnext
    rw [levels, hbidi] at hget
    simp only [hget]
    refine ⟨_, _, _, rfl, m, hnext, ?_⟩
    rw [Bidi.getRunLimit, levelLens, levels, hbidi, offset, map_take]

/-- The span and the bidi run of the character at `i`. -/
structure Follows (p : Input) (i : Nat) (s s' : Loop) : Prop where
  span : s.spanEnd ≤ i → s'.spanIndex = s.spanIndex + 1
  sameSpan : i < s.spanEnd → s'.spanIndex = s.spanIndex ∧ s'.span = s.span ∧ s'.spanEnd = s.spanEnd
  level : s.bidiEnd ≤ i → s'.bidiIndex = s.bidiIndex + 1
  sameLevel : i < s.bidiEnd → s'.bidiIndex = s.bidiIndex ∧ s'.bidiLevel = s.bidiLevel ∧
    s'.bidiEnd = s.bidiEnd
  atSpan : AtSpan p s'
  atLevel : AtLevel p s'

/-- Nothing else is different. -/
structure Moved (p : Input) (i : Nat) (s s' : Loop) : Prop extends Follows p i s s' where
  here : s'.i = s.i
  start : s'.start = s.start
  runs : s'.runs = s.runs
  scriptRun : s'.scriptRun = s.scriptRun

variable {i b : Nat} {ch : UInt16}

theorem moveOn_ok (hp : Concatenates p) (hi : i < p.chars.length) (hspan : AtSpan p s)
    (hlevel : AtLevel p s) :
    ∃ s', s.moveOn p (s.spanEnd ≤ i) (s.bidiEnd ≤ i) = .ok s' ∧ Moved p i s s' := by
  unfold moveOn
  by_cases hse : s.spanEnd ≤ i
  · obtain ⟨span, spanEnd, flags, feature, hnext, hspan'⟩ := nextSpan_ok hp hspan (by omega)
    simp only [decide_eq_true hse, hnext]
    by_cases hbe : s.bidiEnd ≤ i
    · obtain ⟨bidiLevel, bidiEnd, flags', hnext', hlevel'⟩ := nextLevel_ok
        (s := { s with spanIndex := s.spanIndex + 1, span, spanEnd, flags, feature }) hlevel
          (by show s.bidiEnd < _; omega)
      simp only [decide_eq_true hbe]
      exact ⟨_, hnext', ⟨fun _ => rfl, fun h => by omega, fun _ => rfl, fun h => by omega, hspan',
        hlevel'⟩, rfl, rfl, rfl, rfl⟩
    · simp only [decide_eq_false hbe]
      exact ⟨_, rfl, ⟨fun _ => rfl, fun h => by omega, fun h => absurd h hbe,
        fun _ => ⟨rfl, rfl, rfl⟩, hspan', hlevel⟩,
        rfl, rfl, rfl, rfl⟩
  · simp only [decide_eq_false hse]
    by_cases hbe : s.bidiEnd ≤ i
    · obtain ⟨bidiLevel, bidiEnd, flags', hnext', hlevel'⟩ := nextLevel_ok hlevel (by omega)
      simp only [decide_eq_true hbe]
      exact ⟨_, hnext', ⟨fun h => absurd h hse, fun _ => ⟨rfl, rfl, rfl⟩, fun _ => rfl,
        fun h => by omega, hspan, hlevel'⟩,
        rfl, rfl, rfl, rfl⟩
    · simp only [decide_eq_false hbe]
      exact ⟨_, rfl, ⟨fun h => absurd h hse, fun _ => ⟨rfl, rfl, rfl⟩, fun h => absurd h hbe,
        fun _ => ⟨rfl, rfl, rfl⟩,
        hspan, hlevel⟩, rfl, rfl, rfl, rfl⟩

/-- The second half of a pair is read ahead. -/
def Merges (p : Input) (ch : UInt16) (s : Loop) : Prop :=
  p.checkComplex = true ∧ isHighSurrogate ch = true ∧ s.i + 1 < s.spanEnd ∧
    ∃ low, p.chars[s.i + 1]? = some low ∧ isLowSurrogate low = true

theorem lookAhead_isSome (hcheck : p.checkComplex = true) :
    (s.lookAhead p ch).isSome = true ↔ Merges p ch s := by
  unfold lookAhead Merges
  by_cases h : isHighSurrogate ch = true ∧ s.i + 1 < s.spanEnd
  · cases hlow : p.chars[s.i + 1]? with
    | none => simp
    | some low =>
      by_cases hl : isLowSurrogate low = true
      · simp [hl, hcheck]
      · simp [hl]
  · rw [if_neg h]
    simp only [Option.isSome_none, false_eq_true, false_iff]
    exact fun hm => h ⟨hm.2.1, hm.2.2.1⟩

theorem analyse_eq (p : Input) (ch : UInt16) (s : Loop) : ∃ i flags complex scriptChanged,
    s.analyse p ch = ({ s with i, flags, complex }, scriptChanged) ∧
      (Merges p ch s ∧ i = s.i + 1 ∨ ¬ Merges p ch s ∧ i = s.i) ∧
        (s.scriptRun = COMMON → scriptChanged = none) := by
  unfold analyse
  by_cases hcheck : p.checkComplex = true
  · rw [if_pos hcheck]
    refine ⟨_, _, _, _, rfl, ?_, fun hscript => ?_⟩
    · rw [← lookAhead_isSome hcheck]
      split
      · next h => exact .inl ⟨h, rfl⟩
      · next h => exact .inr ⟨h, rfl⟩
    · rw [hscript, if_neg (by simp [INHERITED, COMMON])]
  · rw [if_neg hcheck]
    exact ⟨_, _, _, _, rfl, .inr ⟨fun h => hcheck h.1, rfl⟩, fun _ => rfl⟩

/-! ### What holds as long as nothing goes wrong -/

/-- The loop is where it should be. -/
structure Exact (p : Input) (s : Loop) : Prop where
  le : s.start ≤ s.i
  bound : s.i ≤ p.chars.length
  atSpan : AtSpan p s
  atLevel : AtLevel p s
  /-- The run that is being read lies in the span and in the bidi run. -/
  spanStart : offset (spanLens p) s.spanIndex ≤ s.start
  spanHere : s.i ≤ s.spanEnd
  levelStart : offset (levelLens p) s.bidiIndex ≤ s.start
  levelHere : s.i ≤ s.bidiEnd
  /-- They are those of the last character, not of the next one. -/
  spanFirst : s.spanIndex = 0 ∨ offset (spanLens p) s.spanIndex < s.i
  levelFirst : s.bidiIndex = 0 ∨ offset (levelLens p) s.bidiIndex < s.i
  scriptRun : s.scriptRun = COMMON
  text : ∀ j ch, s.start ≤ j → j < s.i → p.chars[j]? = some ch → isDelimiter ch = false
  runs : Itemized p s.start s.runs
  notSplit : ¬ SplitsPair p s.start
  clean : CleanTo p s.i

/-- There is a run in the wrong place, or there will be one. -/
def Spoiled (p : Input) (s : Loop) : Prop :=
  s.start ≤ s.i ∧ s.i ≤ p.chars.length ∧ ((∃ r ∈ s.runs, ¬ Placed p r) ∨
      s.start < s.i ∧ ¬ (InSpan p s.start s.i s.span ∧ InLevel p s.start s.i s.bidiLevel))

section

variable (h : Exact p s)
include h

theorem Exact.inSpan (hb : b ≤ s.spanEnd) : InSpan p s.start b s.span := by
  obtain ⟨n, hpiece, hend⟩ := h.atSpan
  exact ⟨s.spanIndex, n, hpiece, h.spanStart, hend ▸ hb⟩

theorem Exact.inLevel (hb : b ≤ s.bidiEnd) : InLevel p s.start b s.bidiLevel := by
  obtain ⟨n, hlevel, hend⟩ := h.atLevel
  exact ⟨s.bidiIndex, n, hlevel, h.levelStart, hend ▸ hb⟩

theorem Exact.good (complex : Bool) : ∀ r ∈ s.pending complex, Good p r ∧ r.start = s.start ∧
    s.start + r.length = s.i := by
  intro r hr
  unfold pending at hr
  have hle := h.le
  split at hr
  · cases hr
  · obtain rfl := List.mem_singleton.mp hr
    have hlength : s.start + (s.i - s.start) = s.i := by omega
    refine ⟨⟨fun _ => ?_, alone_of_text fun j ch hj hj' hch => ?_, h.notSplit⟩, rfl, hlength⟩
    · rw [hlength]
      exact ⟨h.inSpan h.spanHere, h.inLevel h.levelHere⟩
    · exact h.text j ch hj (by rw [← hlength]; exact hj') hch

theorem Exact.itemized (complex : Bool) : Itemized p s.i (s.runs ++ s.pending complex) := by
  have hgood := h.good complex
  unfold pending at hgood ⊢
  split
  · next heq =>
      rw [append_nil, ← heq]
      exact h.runs
  · next heq =>
      rw [if_neg heq] at hgood
      obtain ⟨hr, hstart, hlength⟩ := hgood _ (mem_singleton_self _)
      have happend := h.runs.append hstart hr
      rwa [hlength] at happend

/-- The spans up to the present one begin in front of the next character. -/
theorem Exact.offset_span_lt (hk : 0 < k) (hle : k ≤ s.spanIndex) :
  offset (spanLens p) k < s.i := by
  have := offset_mono (spanLens p) hle
  rcases h.spanFirst with hzero | hlt
  · omega
  · omega

theorem Exact.spans_from {n : Nat} (hn : n ≤ s.spanEnd) (k : Nat) (hk : 0 < k)
    (hlo : s.i ≤ offset (spanLens p) k) : n ≤ offset (spanLens p) k := by
  obtain ⟨m, hpiece, hend⟩ := h.atSpan
  rcases Nat.lt_or_ge s.spanIndex k with hlt | hge
  · have := offset_mono (spanLens p) (show s.spanIndex + 1 ≤ k from hlt)
    omega
  · have := h.offset_span_lt hk hge
    omega

theorem Exact.not_boundary (hlo : s.i ≤ b) (hb : b < s.bidiEnd) (hpos : 0 < b) :
    ¬ Boundary (levelLens p) b := by
  rintro ⟨k, hk, -, rfl⟩
  obtain ⟨m, hlevel, hend⟩ := h.atLevel
  rcases Nat.lt_or_ge s.bidiIndex k with hlt | hge
  · have := offset_mono (levelLens p) (show s.bidiIndex + 1 ≤ k from hlt)
    omega
  · have := offset_mono (levelLens p) hge
    rcases h.levelFirst with hzero | hlt
    · omega
    · omega

theorem Exact.lt_of_joined (hjoined : Joined p s.i) : s.i + 1 < s.spanEnd := by
  obtain ⟨k, hk, hlt⟩ := hjoined
  obtain ⟨m, hpiece, hend⟩ := h.atSpan
  have hhere := h.spanHere
  rcases Nat.lt_or_ge s.spanIndex k with hlt' | hge
  · have := offset_mono (spanLens p) (show s.spanIndex + 1 ≤ k from hlt')
    rcases hk with hk | hk
    · omega
    · omega
  · have := offset_mono (spanLens p) (show k + 1 ≤ s.spanIndex + 1 from succ_le_succ hge)
    omega

theorem Exact.joined (hlt : s.i + 1 < s.spanEnd) : Joined p s.i := by
  obtain ⟨m, hpiece, hend⟩ := h.atSpan
  exact ⟨s.spanIndex, h.spanFirst, hend ▸ hlt⟩

/-- What follows a bidi run that ends in front of the end begins there. -/
theorem Exact.boundary (hlt : s.bidiEnd < p.chars.length) : Boundary (levelLens p) s.bidiEnd := by
  obtain ⟨m, hlevel, hend⟩ := h.atLevel
  rw [hend, ← levelLens_sum p] at hlt
  exact ⟨s.bidiIndex + 1, succ_pos _, lt_length_of_offset_lt hlt, hend.symm⟩

end

/-! ### Characters of a text run -/

/-- What a step does that reads the characters from `s.i` to `i`. -/
structure Read (p : Input) (ch : UInt16) (s s' : Loop)
    (i : Nat) : Prop extends Follows p s.i s s' where
  last : Merges p ch s ∧ i = s.i + 1 ∨ ¬ Merges p ch s ∧ i = s.i
  here : s'.i = i + 1
  cut : s.spanEnd ≤ s.i ∨ s.bidiEnd ≤ s.i → s'.start = i ∧
    s'.runs = s.runs ++ { s with i }.pending s.complex
  keep : s.i < s.spanEnd → s.i < s.bidiEnd → s'.start = s.start ∧ s'.runs = s.runs
  scriptRun : s'.scriptRun = s.scriptRun

theorem textStep_read (ch : UInt16) (hp : Concatenates p) (hi : s.i < p.chars.length)
    (hspan : AtSpan p s)
    (hlevel : AtLevel p s) (hscript : s.scriptRun = COMMON) :
    ∃ s' i, s.textStep p ch = .ok s' ∧ Read p ch s s' i := by
  obtain ⟨i, flags, complex, scriptChanged, heq, hlast, hnone⟩ := analyse_eq p ch s
  obtain rfl := hnone hscript
  unfold textStep
  simp only [heq, Option.isSome_none, Bool.or_false, or_eq_true, decide_eq_true_eq]
  obtain ⟨flags', complex', hcut⟩ := cut_eq s.complex { s with i, flags, complex }
  by_cases hchanged : s.spanEnd ≤ s.i ∨ s.bidiEnd ≤ s.i
  · rw [if_pos hchanged, hcut]
    obtain ⟨s', hmove, hmoved⟩ := moveOn_ok hp hi (s := { s with
        runs := s.runs ++ { s with i, flags, complex }.pending s.complex
        start := i
        flags := flags'
        complex := complex'
        i := i + 1 }) hspan hlevel
    refine ⟨s', i, ?_, { hmoved with }, hlast, hmoved.here, fun _ => ⟨hmoved.start, hmoved.runs⟩,
      fun h1 h2 => ?_,
      hmoved.scriptRun⟩
    · rw [hmove]
      rfl
    · omega
  · rw [if_neg hchanged]
    obtain ⟨s', hmove, hmoved⟩ := moveOn_ok hp hi
      (s := { s with flags, complex, i := i + 1 }) hspan hlevel
    refine ⟨s', i, ?_, { hmoved with }, hlast, hmoved.here, fun h => absurd h hchanged,
      fun _ _ => ⟨hmoved.start, hmoved.runs⟩, hmoved.scriptRun⟩
    rw [hmove]
    rfl

/-- Something has gone wrong, and it should not have been let happen. -/
def Wrong (p : Input) (s : Loop) : Prop := ¬ CleanTo p p.chars.length ∧ (Maximal p → Spoiled p s)

theorem Exact.moved_level (h : Exact p s) (hi : s.i < p.chars.length) (hf : Follows p s.i s s') :
    offset (levelLens p) s'.bidiIndex ≤ s.i ∧ s.i < s'.bidiEnd := by
  obtain ⟨n, hn, hend⟩ := h.atLevel
  have hhere := h.levelHere
  have hstart := h.levelStart
  have hle := h.le
  rcases Nat.lt_or_ge s.i s.bidiEnd with hlt | hge
  · obtain ⟨h1, -, h2⟩ := hf.sameLevel hlt
    rw [h1]
    omega
  · have hindex := hf.level hge
    obtain ⟨m, hm, hend'⟩ := hf.atLevel
    have hpos := levels_nonempty (by omega) _ (mem_of_getElem? hm)
    rw [hend', offset_succ (levelLens_get hm), hindex]
    simp only at hpos
    omega

theorem isDelimiter_at {j : Nat} {c : UInt16} (hch : p.chars[i]? = some ch) (hj : j = i)
    (hc : p.chars[j]? = some c) :
    isDelimiter c = isDelimiter ch := by
  rw [Option.some.inj (hch.symm.trans (hj ▸ hc))]

section

variable (h : Exact p s) (hch : p.chars[s.i]? = some ch)
include h hch

theorem Exact.begin (htext : isDelimiter ch = false)
    (hr : Read p ch s s' s.i) (hchanged : s.spanEnd ≤ s.i ∨ s.bidiEnd ≤ s.i)
    (hspan : offset (spanLens p) s'.spanIndex ≤ s.i ∧ s.i < s'.spanEnd)
    (hnotSplit : ¬ SplitsPair p s.i)
    (hspans : ∀ k span, 0 < k → (pieces p)[k]? = some (span, 0) → s.i ≤ offset (spanLens p) k →
      s.i + 1 ≤ offset (spanLens p) k)
    (hpairs : p.checkComplex = true → IsPair p s.i → Joined p s.i →
      ¬ Boundary (levelLens p) s.i ∧ ¬ Boundary (levelLens p) (s.i + 1)) : Exact p s' := by
  have hi := length_pos_of_getElem? hch
  have hindex := hr.here
  obtain ⟨hstart, hruns⟩ := hr.cut hchanged
  obtain ⟨hlevelStart, hlevelHere⟩ := h.moved_level hi hr.toFollows
  exact {
    le := by omega
    bound := by omega
    atSpan := hr.atSpan
    atLevel := hr.atLevel
    spanStart := by omega
    spanHere := by omega
    levelStart := by omega
    levelHere := by omega
    spanFirst := .inr (by omega)
    levelFirst := .inr (by omega)
    scriptRun := hr.scriptRun.trans h.scriptRun
    text := fun j c hj hj' hc => (isDelimiter_at hch (by omega) hc).trans htext
    runs := by
      rw [hstart, hruns]
      exact h.itemized s.complex
    notSplit := by
      rw [hstart]
      exact hnotSplit
    clean := by
      rw [hindex]
      refine h.clean.extend hspans (fun j hj hj' hcrlf => ?_) fun hcheck j hj hj' => ?_
      · cases (isDelimiter_at hch (by omega) hcrlf.1).trans htext
      · obtain rfl : j = s.i := by omega
        exact hpairs hcheck }

theorem Exact.read_span
    (htext : isDelimiter ch = false) (hr : Read p ch s s' i) (hchanged : s.spanEnd ≤ s.i) :
    Exact p s' ∨ Wrong p s' := by
  have hi := length_pos_of_getElem? hch
  have hle := h.le
  have hhere := h.spanHere
  obtain ⟨n, hpiece, hend⟩ := h.atSpan
  have hlast : ¬ Merges p ch s ∧ i = s.i := by
    refine hr.last.resolve_left fun hmerge => ?_
    have := hmerge.1.2.2.1
    omega
  obtain ⟨hnot, rfl⟩ := hlast
  obtain ⟨hstart, hruns⟩ := hr.cut (.inl hchanged)
  have hindex := hr.span hchanged
  have hindex' := hr.here
  obtain ⟨m, hnext, hend'⟩ := hr.atSpan
  have hoffset : offset (spanLens p) s'.spanIndex = s.i := by rw [hindex]; omega
  by_cases hm : m = 0
  · -- the span is empty
    subst hm
    refine .inr ⟨fun hclean => ?_, fun _ => ⟨by omega, by omega, .inr ⟨by omega, fun hplaced => ?_⟩⟩⟩
    · have := hclean.spans s'.spanIndex s'.span (by omega) hnext
      omega
    · exact not_inSpan_empty hnext (by omega) hplaced.1
  · have hnextEnd := offset_succ (spanLens_get hnext)
    refine .inl (h.begin hch htext hr (.inl hchanged) (by omega) (notSplit_of_span hoffset)
      (fun k span hk hempty hlo => ?_)
      fun _ _ hjoined => ?_)
    · rcases Nat.lt_trichotomy k s'.spanIndex with hlt | heq | hgt
      · have := h.offset_span_lt hk (by omega)
        omega
      · rw [heq, hnext] at hempty
        exact absurd (Prod.mk.inj (Option.some.inj hempty)).2 hm
      · have := offset_mono (spanLens p) (show s'.spanIndex + 1 ≤ k from hgt)
        omega
    · have := h.lt_of_joined hjoined
      omega

theorem Exact.merges (hcheck : p.checkComplex = true)
    (hpair : IsPair p s.i) (hjoined : Joined p s.i) : Merges p ch s := by
  obtain ⟨high, low, hhigh, hlow, hhigh', hlow'⟩ := hpair
  obtain rfl := Option.some.inj (hch.symm.trans hhigh)
  exact ⟨hcheck, hhigh', h.lt_of_joined hjoined, low, hlow, hlow'⟩

end

theorem Merges.isPair (h : Merges p ch s) (hch : p.chars[s.i]? = some ch) : IsPair p s.i := by
  obtain ⟨-, hhigh, -, low, hlow, hlow'⟩ := h
  exact ⟨ch, low, hch, hlow, hhigh, hlow'⟩

section

variable (h : Exact p s) (hch : p.chars[s.i]? = some ch)
include h hch

theorem Exact.read_level
    (htext : isDelimiter ch = false) (hr : Read p ch s s' i) (hspan : s.i < s.spanEnd)
    (hchanged : s.bidiEnd ≤ s.i) :
    Exact p s' ∨ Wrong p s' := by
  have hi := length_pos_of_getElem? hch
  have hle := h.le
  have hhere := h.levelHere
  have hend : s.bidiEnd = s.i := by omega
  obtain ⟨n, hlevel, hoffset⟩ := h.atLevel
  obtain ⟨hstart, hruns⟩ := hr.cut (.inr hchanged)
  obtain ⟨hsi, hss, hse⟩ := hr.sameSpan hspan
  have hindex' := hr.here
  rcases hr.last with ⟨hmerge, rfl⟩ | ⟨hnot, rfl⟩
  · -- the run is cut behind the first half of the pair
    have hlow := hmerge.2.2.2
    obtain ⟨low, hlow, -⟩ := hlow
    have hlow := length_pos_of_getElem? hlow
    refine .inr ⟨fun hclean => ?_, fun hmaximal => ⟨by omega, by omega, .inl
      ⟨⟨s.start, s.i + 1 - s.start, s.bidiLevel, s.complex ||
        s.bidiLevel % 2 == 1, s.span, false, false⟩, ?_, ?_⟩⟩⟩
    · have hboundary := h.boundary (by omega)
      rw [hend] at hboundary
      exact (hclean.pairs hmerge.1 s.i hi (hmerge.isPair hch) (h.joined hmerge.2.2.1)).1 hboundary
    · rw [hruns, pending, if_neg (by show s.start ≠ s.i + 1; omega)]
      exact mem_append_right _ (mem_singleton_self _)
    · intro hplaced
      obtain ⟨-, k, m, hk, hwithin⟩ := hplaced (by show 0 < s.i + 1 - s.start; omega)
      replace hwithin : Within (levelLens p) k s.start (s.start + (s.i + 1 - s.start)) := hwithin
      rw [show s.start + (s.i + 1 - s.start) = s.i + 1 by omega] at hwithin
      rcases Nat.lt_or_ge s.start s.i with hlt | hge
      · exact not_within hlt (lt_succ_self _) (hoffset.symm.trans hend) hwithin
      · obtain ⟨m', hnext, hnextEnd⟩ := hr.atLevel
        have hnextIndex := hr.level hchanged
        obtain ⟨-, hlevelHere⟩ := h.moved_level hi hr.toFollows
        obtain rfl : k = s.bidiIndex + 1 := hwithin.unique (by omega) (by omega)
          (by rw [← hnextIndex]; omega)
        exact hmaximal s.bidiIndex n m _ _ hlevel hk rfl
  · have hspanStart := h.spanStart
    exact .inl (h.begin hch htext hr (.inr hchanged) (by rw [hsi]; omega)
      (notSplit_of_level (hoffset.symm.trans hend))
      (fun k span hk hempty hlo => h.spans_from hspan k hk hlo)
      fun hcheck hpair hjoined => absurd (h.merges hch hcheck hpair hjoined) hnot)

/-- The next character goes on with the span and the bidi run. -/
theorem Exact.read_on
    (htext : isDelimiter ch = false) (hr : Read p ch s s' i) (hspan : s.i < s.spanEnd)
    (hlevel : s.i < s.bidiEnd) :
    Exact p s' ∨ Wrong p s' := by
  have hi := length_pos_of_getElem? hch
  have hle := h.le
  obtain ⟨n, hn, hoffset⟩ := h.atLevel
  obtain ⟨hstart, hruns⟩ := hr.keep hspan hlevel
  obtain ⟨hsi, hss, hse⟩ := hr.sameSpan hspan
  obtain ⟨hbi, hbl, hbe⟩ := hr.sameLevel hlevel
  have hindex' := hr.here
  have hspanStart := h.spanStart
  have hlevelStart := h.levelStart
  have hlevelFirst := h.levelFirst
  -- the second character of a pair, if there is one, is in the same span
  have hread : i < s.spanEnd ∧ i < p.chars.length ∧ s.i ≤ i ∧
    (∀ j c, s.i ≤ j → j ≤ i → p.chars[j]? = some c →
      isDelimiter c = false ∧ (s.i < j → isHighSurrogate c = false)) := by
    rcases hr.last with ⟨⟨-, -, hlt, low, hlow, hlow'⟩, rfl⟩ | ⟨-, rfl⟩
    · refine ⟨hlt, length_pos_of_getElem? hlow, le_succ _, fun j c hj hj' hc => ?_⟩
      rcases Nat.lt_or_ge s.i j with hgt | hge
      · obtain rfl : j = s.i + 1 := by omega
        obtain rfl := Option.some.inj (hlow.symm.trans hc)
        exact ⟨not_delimiter_of_low hlow', fun _ => not_high_of_low hlow'⟩
      · obtain rfl : j = s.i := by omega
        obtain rfl := Option.some.inj (hch.symm.trans hc)
        exact ⟨htext, fun h => by omega⟩
    · refine ⟨hspan, hi, Nat.le_refl _, fun j c hj hj' hc => ?_⟩
      obtain rfl : j = s.i := by omega
      obtain rfl := Option.some.inj (hch.symm.trans hc)
      exact ⟨htext, fun h => by omega⟩
  obtain ⟨hlt, hbound, hge, hchars⟩ := hread
  rcases Nat.lt_or_ge i s.bidiEnd with hinside | hbeyond
  · refine .inl {
        le := by omega
        bound := by omega
        atSpan := hr.atSpan
        atLevel := hr.atLevel
        spanStart := by rw [hsi, hstart]; exact hspanStart
        spanHere := by omega
        levelStart := by rw [hbi, hstart]; exact hlevelStart
        levelHere := by omega
        spanFirst := by rw [hsi]; omega
        levelFirst := by rw [hbi]; omega
        scriptRun := hr.scriptRun.trans h.scriptRun
        text := fun j c hj hj' hc => ?_
        runs := by rw [hstart, hruns]; exact h.runs
        notSplit := by rw [hstart]; exact h.notSplit
        clean := h.clean.extend (fun k span hk hempty hlo => h.spans_from (by omega) k hk hlo)
          (fun j hj hj' hcrlf => ?_) fun hcheck j hj hj' hpair hjoined => ?_ }
    · rcases Nat.lt_or_ge j s.i with hj'' | hj''
      · exact h.text j c (by omega) hj'' hc
      · exact (hchars j c hj'' (by omega) hc).1
    · have := (hchars j _ hj (by omega) hcrlf.1).1
      cases this
    · obtain ⟨high, low, hhigh, -, hhigh', -⟩ := id hpair
      rcases Nat.lt_or_ge s.i j with hgt | hge'
      · rw [(hchars j high hj (by omega) hhigh).2 hgt] at hhigh'
        cases hhigh'
      · obtain rfl : j = s.i := by omega
        have hmerge := h.merges hch hcheck hpair hjoined
        have hi' := (hr.last.resolve_right fun hnot => hnot.1 hmerge).2
        refine ⟨?_, h.not_boundary (le_succ _) (by omega) (succ_pos _)⟩
        rcases Nat.eq_zero_or_pos s.i with hzero | hpos
        · rintro ⟨k, hk, hk', hboundary⟩
          have hprev := levels_nonempty (by omega) _ (mem_of_getElem? hn)
          have hmono := offset_mono (levelLens p) (show 1 ≤ k from hk)
          have hfirst : s.bidiIndex = 0 := by omega
          rw [hfirst] at hn
          have hone := offset_succ (levelLens_get hn)
          simp only [Nat.zero_add] at hprev hone
          omega
        · exact h.not_boundary (Nat.le_refl _) hlevel hpos
  · -- the bidi run ends between the halves of the pair
    have hmerge := hr.last.resolve_right fun hnot => by omega
    have hend : s.bidiEnd = s.i + 1 := by omega
    refine .inr ⟨fun hclean => ?_, fun _ => ⟨by omega, by omega, .inr ⟨by omega, fun hplaced => ?_⟩⟩⟩
    · have hboundary := h.boundary (by omega)
      rw [hend] at hboundary
      exact (hclean.pairs hmerge.1.1 s.i hi (hmerge.1.isPair hch) (h.joined hmerge.1.2.2.1)).2 hboundary
    · obtain ⟨-, k, m, -, hwithin⟩ := hplaced
      rw [hstart] at hwithin
      exact not_within (show s.start < s.i + 1 by omega) (by omega) (hoffset.symm.trans hend) hwithin

/-! ### Tabs and line terminators -/

theorem Exact.delimiter {s₁ : Loop} {limit : Nat} {flags : Flags}
    (hdelimiter : isDelimiter ch = true)
    (hf : Follows p s.i s s₁) (hruns : s₁.runs = s.runs ++ s.pending s.complex)
    (hscript : s₁.scriptRun = s.scriptRun)
    (hlimit : limit = if ch = carriageReturn ∧ s.i + 1 < s₁.spanEnd ∧
      p.chars[s.i + 1]? = some lineFeed then s.i + 2 else s.i + 1)
    (hbound : limit ≤ p.chars.length) {r : TextRun} (hr : r.start = s.i)
    (hlength : r.length = limit - s.i)
    (hrlevel : r.level = s₁.bidiLevel) (hrspan : r.span = s₁.span) :
    Exact p { s₁ with flags, runs := s₁.runs ++ [r], i := limit, start := limit } ∨
      Wrong p { s₁ with flags, runs := s₁.runs ++ [r], i := limit, start := limit } := by
  have hi := length_pos_of_getElem? hch
  have hle := h.le
  obtain ⟨n, hpiece, hend⟩ := hf.atSpan
  obtain ⟨m, hlev, hbend⟩ := hf.atLevel
  obtain ⟨hlevelStart, hlevelHere⟩ := h.moved_level hi hf
  have hrange : s.i < limit ∧ limit ≤ s.i + 2 := by
    rw [hlimit]
    split <;> omega
  have hrend : r.start + r.length = limit := by omega
  have hspanStart : offset (spanLens p) s₁.spanIndex ≤ s.i := by
    rcases Nat.lt_or_ge s.i s.spanEnd with hlt | hge
    · rw [(hf.sameSpan hlt).1]
      exact Nat.le_trans h.spanStart hle
    · obtain ⟨_, -, hold⟩ := h.atSpan
      rw [hf.span hge, ← hold]
      exact hge
  by_cases hnext : s.spanEnd ≤ s.i ∧ n = 0
  · -- the span is empty
    obtain ⟨hge, rfl⟩ := hnext
    have hindex := hf.span hge
    refine .inr ⟨fun hclean => ?_, fun _ => ⟨Nat.le_refl _, hbound, .inl ⟨r, mem_append_right _
      (mem_singleton_self _), fun hplaced => ?_⟩⟩⟩
    · have := hclean.spans s₁.spanIndex s₁.span (by omega) hpiece
      omega
    · obtain ⟨hin, -⟩ := hplaced (by omega)
      rw [hrspan] at hin
      exact not_inSpan_empty hpiece (by omega) hin
  · have hspanHere : s.i < s₁.spanEnd := by
      rcases Nat.lt_or_ge s.i s.spanEnd with hlt | hge
      · rw [(hf.sameSpan hlt).2.2]
        exact hlt
      · obtain ⟨_, -, hold⟩ := h.atSpan
        have hindex := hf.span hge
        have hnextEnd := offset_succ (spanLens_get hpiece)
        rw [hindex] at hnextEnd
        have hhere' := h.spanHere
        rw [hend, hindex]
        omega
    have hlimitSpan : limit ≤ s₁.spanEnd := by
      rw [hlimit]
      split <;> omega
    have hcrlf : Crlf p s.i ↔ limit = s.i + 2 := by
      constructor
      · rintro ⟨hcr, hlf, k, hk, hk'⟩
        obtain rfl := Option.some.inj (hch.symm.trans hcr)
        have hwithin : Within (spanLens p) k s.i (s.i + 2) := ⟨hk, hk'⟩
        have heq := hwithin.unique (by omega) hspanStart (by rw [← hend]; exact hspanHere)
        rw [hlimit, if_pos ⟨rfl, by rw [hend, ← heq]; exact hk', hlf⟩]
      · intro htwo
        rw [hlimit] at htwo
        split at htwo
        · next hif =>
            obtain ⟨rfl, hlt, hlf⟩ := hif
            exact ⟨hch, hlf, s₁.spanIndex, hspanStart, by rw [← hend]; exact hlt⟩
        · omega
    rcases Nat.lt_or_ge s₁.bidiEnd limit with hbeyond | hinside
    · -- the line terminator goes across the end of a bidi run
      have htwo : limit = s.i + 2 := by omega
      have hbi : s₁.bidiEnd = s.i + 1 := by omega
      refine .inr ⟨fun hclean => ?_, fun _ => ⟨Nat.le_refl _, hbound, .inl ⟨r, mem_append_right _
        (mem_singleton_self _), fun hplaced => ?_⟩⟩⟩
      · refine hclean.lines s.i hi (hcrlf.mpr htwo)
          ⟨s₁.bidiIndex + 1, succ_pos _, ?_, hbend.symm.trans hbi⟩
        refine lt_length_of_offset_lt ?_
        rw [levelLens_sum p]
        omega
      · obtain ⟨-, k, l, -, hwithin⟩ := hplaced (by omega)
        rw [hr] at hwithin
        exact not_within (lt_succ_self s.i) (by omega) (hbend.symm.trans hbi) hwithin
    · refine .inl {
          le := Nat.le_refl _
          bound := hbound
          atSpan := hf.atSpan
          atLevel := hf.atLevel
          spanStart := Nat.le_trans hspanStart (by show s.i ≤ limit; omega)
          spanHere := hlimitSpan
          levelStart := Nat.le_trans hlevelStart (by show s.i ≤ limit; omega)
          levelHere := hinside
          spanFirst := .inr (Nat.lt_of_le_of_lt hspanStart hrange.1)
          levelFirst := .inr (Nat.lt_of_le_of_lt hlevelStart hrange.1)
          scriptRun := hscript.trans h.scriptRun
          text := fun j c hj hj' hc => absurd hj' (Nat.not_lt.mpr hj)
          runs := ?_
          notSplit := ?_
          clean := h.clean.extend (fun k span hk hempty hlo => ?_) (fun j hj hj' hcr => ?_)
            fun hcheck j hj hj' hpair hjoined => ?_ }
      · have hgood : Good p r := by
          refine ⟨fun _ => ?_, fun j c hj hj' hc hd => ?_, ?_⟩
          · rw [hrend, hr, hrspan, hrlevel]
            exact ⟨⟨s₁.spanIndex, n, hpiece, hspanStart, hend ▸ hlimitSpan⟩,
              ⟨s₁.bidiIndex, m, hlev, hlevelStart, hbend ▸ hinside⟩⟩
          · rcases Nat.lt_or_ge s.i j with hgt | hge
            · exact .inr ⟨by omega, by rw [hr]; exact hcrlf.mpr (by omega), by omega⟩
            · obtain rfl : j = s.i := by omega
              refine .inl ⟨hr, ?_⟩
              by_cases htwo : limit = s.i + 2
              · exact .inl ⟨hcrlf.mpr htwo, by omega⟩
              · exact .inr ⟨fun hcr => htwo (hcrlf.mp hcr), by omega⟩
          · rw [hr]
            exact notSplit_of_delimiter hch hdelimiter
        have happend := (h.itemized s.complex).append hr hgood
        rw [show s.i + r.length = limit by omega, ← hruns] at happend
        exact happend
      · by_cases htwo : limit = s.i + 2
        · have hlf := (hcrlf.mpr htwo).2.1
          rw [htwo]
          exact notSplit_after_delimiter hlf isDelimiter_lineFeed
        · show ¬ SplitsPair p limit
          rw [show limit = s.i + 1 by omega]
          exact notSplit_after_delimiter hch hdelimiter
      · show limit ≤ offset (spanLens p) k
        rcases Nat.lt_or_ge s₁.spanIndex k with hlt | hge
        · have := offset_mono (spanLens p) (show s₁.spanIndex + 1 ≤ k from hlt)
          omega
        · rcases Nat.lt_or_ge s.i s.spanEnd with hsame | hchanged
          · have := h.offset_span_lt hk (by have := (hf.sameSpan hsame).1; omega)
            omega
          · rcases Nat.lt_or_ge k s₁.spanIndex with hlt | hge'
            · have := h.offset_span_lt hk (by have := hf.span hchanged; omega)
              omega
            · obtain rfl : k = s₁.spanIndex := by omega
              rw [hpiece] at hempty
              exact absurd ⟨hchanged, (Prod.mk.inj (Option.some.inj hempty)).2⟩ hnext
      · replace hj' : j < limit := hj'
        rcases Nat.lt_or_ge s.i j with hgt | hge
        · -- the second character is a line feed
          obtain rfl : j = s.i + 1 := by omega
          have hlf := (hcrlf.mpr (by omega)).2.1
          cases Option.some.inj (hlf.symm.trans hcr.1)
        · obtain rfl : j = s.i := by omega
          have htwo := hcrlf.mp hcr
          rintro ⟨k, hk, -, hboundary⟩
          rcases Nat.lt_or_ge s₁.bidiIndex k with hlt | hge'
          · have := offset_mono (levelLens p) (show s₁.bidiIndex + 1 ≤ k from hlt)
            omega
          · have := offset_mono (levelLens p) hge'
            omega
      · replace hj' : j < limit := hj'
        obtain ⟨high, low, hhigh, -, hhigh', -⟩ := hpair
        rcases Nat.lt_or_ge s.i j with hgt | hge
        · obtain rfl : j = s.i + 1 := by omega
          have hlf := (hcrlf.mpr (by omega)).2.1
          obtain rfl := Option.some.inj (hlf.symm.trans hhigh)
          cases hhigh'
        · obtain rfl : j = s.i := by omega
          obtain rfl := Option.some.inj (hch.symm.trans hhigh)
          rw [not_delimiter_of_high hhigh'] at hdelimiter
          cases hdelimiter

end

/-- **A tab or a line terminator** is a run of its own. -/
theorem Exact.delimiterStep (hp : Concatenates p) (h : Exact p s) (hch : p.chars[s.i]? = some ch)
    (hdelimiter : isDelimiter ch = true) : ∃ s', s.delimiterStep p ch = .ok s' ∧ s.i < s'.i ∧
      (Exact p s' ∨ Wrong p s') := by
  have hi := length_pos_of_getElem? hch
  obtain ⟨flags, complex, hcut⟩ := cut_eq s.complex s
  obtain ⟨s', hmove, hmoved⟩ := moveOn_ok hp hi
    (s := { s with runs := s.runs ++ s.pending s.complex, start := s.i, flags, complex })
    h.atSpan h.atLevel
  have hhere : s'.i = s.i := hmoved.here
  have hstart : s'.start = s.i := hmoved.start
  have hruns : s'.runs = s.runs ++ s.pending s.complex := hmoved.runs
  -- where the run ends
  obtain ⟨limit, hlimit⟩ : ∃ limit, limit = if ch = carriageReturn ∧ s'.i + 1 < s'.spanEnd ∧
      p.chars[s'.i + 1]? = some lineFeed then s'.i + 2 else s'.i + 1 := ⟨_, rfl⟩
  have hrange : s.i + 1 ≤ limit ∧ limit ≤ s.i + 2 ∧ limit ≤ p.chars.length := by
    rw [hlimit]
    split
    · next hcrlf =>
        have := length_pos_of_getElem? hcrlf.2.2
        omega
    · omega
  have hadded : addDelimiterRun p ch s' = { s' with
      flags := if ch = tab then { s'.flags with hasTabs := true } else s'.flags
      runs := s'.runs ++ [⟨s'.start, limit - s'.start, s'.bidiLevel, false, s'.span, ch == tab,
        ch != tab⟩]
      i := limit
      start := limit } := by
    rw [hlimit]
    rfl
  refine ⟨addDelimiterRun p ch s', ?_, ?_, ?_⟩
  · unfold Loop.delimiterStep
    simp only [hcut]
    rw [hmove]
    rfl
  · rw [hadded]
    exact hrange.1
  · rw [hadded]
    exact h.delimiter hch hdelimiter { hmoved with } hruns hmoved.scriptRun
      (by rw [hlimit, hhere]) hrange.2.2 hstart
      (by rw [hstart]) rfl rfl

/-- **A character of a text run.** -/
theorem Exact.textStep (hp : Concatenates p) (h : Exact p s) (hch : p.chars[s.i]? = some ch)
    (htext : isDelimiter ch = false) : ∃ s', s.textStep p ch = .ok s' ∧ s.i < s'.i ∧
      (Exact p s' ∨ Wrong p s') := by
  obtain ⟨s', i, hstep, hr⟩ := textStep_read ch hp
    (length_pos_of_getElem? hch) h.atSpan h.atLevel h.scriptRun
  have hindex := hr.here
  have hge : s.i ≤ i := by
    rcases hr.last with ⟨-, rfl⟩ | ⟨-, rfl⟩
    · exact le_succ _
    · exact Nat.le_refl _
  refine ⟨s', hstep, by omega, ?_⟩
  rcases Nat.lt_or_ge s.i s.spanEnd with hspan | hspan
  · rcases Nat.lt_or_ge s.i s.bidiEnd with hlevel | hlevel
    · exact h.read_on hch htext hr hspan hlevel
    · exact h.read_level hch htext hr hspan hlevel
  · exact h.read_span hch htext hr hspan

/-! ### What stays wrong -/

theorem nextSpan_same (h : s.nextSpan p = .ok s') :
    s'.i = s.i ∧ s'.start = s.start ∧ s'.runs = s.runs := by
  unfold nextSpan at h
  split at h
  · cases h
  · split at h
    · cases h
    · obtain rfl := Except.ok.inj h
      unfold readFont
      split
      · exact ⟨rfl, rfl, rfl⟩
      · exact ⟨rfl, rfl, rfl⟩

theorem nextLevel_same (h : s.nextLevel p = .ok s') :
    s'.i = s.i ∧ s'.start = s.start ∧ s'.runs = s.runs := by
  unfold nextLevel at h
  split at h
  · cases h
  · split at h
    · cases h
    · obtain rfl := Except.ok.inj h
      exact ⟨rfl, rfl, rfl⟩

theorem moveOn_same {spanChanged levelChanged : Bool}
    (h : s.moveOn p spanChanged levelChanged = .ok s') :
    s'.i = s.i ∧ s'.start = s.start ∧ s'.runs = s.runs := by
  unfold moveOn at h
  have hlevel : ∀ t : Loop, (if levelChanged = true then t.nextLevel p else .ok t) = .ok s' →
      s'.i = t.i ∧ s'.start = t.start ∧ s'.runs = t.runs := by
    intro t ht
    split at ht
    · exact nextLevel_same ht
    · obtain rfl := Except.ok.inj ht
      exact ⟨rfl, rfl, rfl⟩
  cases spanChanged with
  | false => exact hlevel s h
  | true =>
    cases hnext : s.nextSpan p with
    | error ex =>
      rw [hnext] at h
      cases h
    | ok t =>
      rw [hnext] at h
      obtain ⟨h1, h2, h3⟩ := nextSpan_same hnext
      obtain ⟨h4, h5, h6⟩ := hlevel t h
      exact ⟨h4.trans h1, h5.trans h2, h6.trans h3⟩

/-- A run that is too long already is added sooner or later. -/
theorem Spoiled.cut (h : Spoiled p s) (hi : s.i ≤ i) (complex : Bool) (s₁ : Loop)
    (hstart : s₁.start = s.start)
    (hend : s₁.i = i) (hspan : s₁.span = s.span) (hlevel : s₁.bidiLevel = s.bidiLevel) :
    ∃ r ∈ s.runs ++ s₁.pending complex, ¬ Placed p r := by
  obtain ⟨-, -, ⟨r, hr, hbad⟩ | ⟨hlt, hbad⟩⟩ := h
  · exact ⟨r, mem_append_left _ hr, hbad⟩
  · refine ⟨⟨s₁.start, s₁.i - s₁.start, s₁.bidiLevel, complex ||
      s₁.bidiLevel % 2 == 1, s₁.span, false, false⟩, ?_,
      fun hplaced => hbad ?_⟩
    · rw [pending, if_neg (by omega)]
      exact mem_append_right _ (mem_singleton_self _)
    · obtain ⟨⟨k, n, hk, hwithin⟩, ⟨j, m, hj, hwithin'⟩⟩ := hplaced (by show 0 < s₁.i - s₁.start; omega)
      replace hwithin : Within (spanLens p) k s₁.start (s₁.start + (s₁.i - s₁.start)) := hwithin
      replace hwithin' : Within (levelLens p) j s₁.start (s₁.start + (s₁.i - s₁.start)) := hwithin'
      rw [hspan] at hk
      rw [hlevel] at hj
      rw [hstart] at hwithin hwithin'
      exact ⟨⟨k, n, hk, hwithin.mono (by omega)⟩, ⟨j, m, hj, hwithin'.mono (by omega)⟩⟩

theorem Spoiled.textStep (h : Spoiled p s) (hch : p.chars[s.i]? = some ch)
    (hstep : s.textStep p ch = .ok s') :
    Spoiled p s' ∧ s.i < s'.i := by
  obtain ⟨i, flags, complex, scriptChanged, heq, hlast, -⟩ := analyse_eq p ch s
  have hread : s.i ≤ i ∧ i < p.chars.length := by
    rcases hlast with ⟨⟨-, -, -, low, hlow, -⟩, rfl⟩ | ⟨-, rfl⟩
    · exact ⟨le_succ _, length_pos_of_getElem? hlow⟩
    · exact ⟨Nat.le_refl _, length_pos_of_getElem? hch⟩
  unfold Loop.textStep at hstep
  simp only [heq] at hstep
  obtain ⟨hle, hbound, hbad⟩ := id h
  by_cases hchanged : (decide (s.spanEnd ≤ s.i) || decide (s.bidiEnd ≤ s.i) ||
    scriptChanged.isSome) = true
  · rw [if_pos hchanged] at hstep
    obtain ⟨flags', complex', hcut⟩ := cut_eq s.complex { s with i, flags, complex }
    rw [hcut] at hstep
    obtain ⟨t, hmove, rfl⟩ := map_eq_ok hstep
    obtain ⟨hti, hts, htr⟩ := moveOn_same hmove
    replace hti : t.i = i + 1 := hti
    replace hts : t.start = i := hts
    have hpending := h.cut hread.1 s.complex { s with i, flags, complex } rfl rfl rfl rfl
    exact ⟨⟨by show t.start ≤ t.i; omega, by show t.i ≤ _; omega,
      .inl (by show ∃ r ∈ t.runs, _; rw [htr]; exact hpending)⟩,
      by show s.i < t.i; omega⟩
  · rw [if_neg hchanged] at hstep
    rw [not_eq_true, or_eq_false_iff, or_eq_false_iff] at hchanged
    rw [hchanged.1.1, hchanged.1.2] at hstep
    obtain rfl := Except.ok.inj hstep
    refine ⟨⟨by show s.start ≤ i + 1; omega, by show i + 1 ≤ _; omega, ?_⟩, by show s.i < i + 1; omega⟩
    refine hbad.imp id fun hright => ⟨by show s.start < i + 1; omega, fun hplaced => hright.2 ?_⟩
    obtain ⟨⟨k, n, hk, hwithin⟩, ⟨j, m, hj, hwithin'⟩⟩ := hplaced
    exact ⟨⟨k, n, hk, hwithin.mono (by show s.i ≤ i + 1; omega)⟩,
      ⟨j, m, hj, hwithin'.mono (by show s.i ≤ i + 1; omega)⟩⟩

theorem addDelimiterRun_eq (ch : UInt16) (hi : s.i < p.chars.length) :
    ∃ flags r limit, addDelimiterRun p ch s =
    { s with flags, runs := s.runs ++ [r], i := limit, start := limit } ∧ s.i < limit ∧
      limit ≤ p.chars.length := by
  refine ⟨_, _, _, rfl, ?_⟩
  split
  · next hcrlf => exact ⟨by omega, length_pos_of_getElem? hcrlf.2.2⟩
  · omega

theorem Spoiled.delimiterStep (h : Spoiled p s) (hch : p.chars[s.i]? = some ch)
    (hstep : s.delimiterStep p ch = .ok s') : Spoiled p s' ∧ s.i < s'.i := by
  have hi := length_pos_of_getElem? hch
  obtain ⟨flags, complex, hcut⟩ := cut_eq s.complex s
  have hpending := h.cut (Nat.le_refl _) s.complex s rfl rfl rfl rfl
  unfold Loop.delimiterStep at hstep
  simp only [hcut] at hstep
  obtain ⟨t, hmove, rfl⟩ := map_eq_ok hstep
  obtain ⟨hti, hts, htr⟩ := moveOn_same hmove
  replace hti : t.i = s.i := hti
  replace htr : t.runs = s.runs ++ s.pending s.complex := htr
  rw [← htr] at hpending
  obtain ⟨r, hr, hbad⟩ := hpending
  obtain ⟨flags', r', limit, hadd, hlt, hle⟩ := addDelimiterRun_eq ch (show t.i < p.chars.length by omega)
  rw [hadd]
  exact ⟨⟨Nat.le_refl _, hle, .inl ⟨r, mem_append_left _ hr, hbad⟩⟩, by show s.i < limit; omega⟩

/-! ### The loop -/

theorem Spoiled.run (fuel : Nat) (h : Spoiled p s) (hfuel : p.chars.length ≤ s.i + fuel)
    (hrun : s.run p fuel = .ok s') : Spoiled p s' ∧ s'.i = p.chars.length := by
  induction fuel generalizing s with
  | zero =>
    obtain rfl := Except.ok.inj hrun
    exact ⟨h, Nat.le_antisymm h.2.1 hfuel⟩
  | succ fuel ih =>
    rw [Loop.run] at hrun
    cases hch : p.chars[s.i]? with
    | none =>
      rw [hch] at hrun
      obtain rfl := Except.ok.inj hrun
      exact ⟨h, Nat.le_antisymm h.2.1 (List.getElem?_eq_none_iff.mp hch)⟩
    | some ch =>
      rw [hch] at hrun
      obtain ⟨t, hstep, hrest⟩ := bind_eq_ok hrun
      split at hstep
      · obtain ⟨hspoiled, hlt⟩ := h.delimiterStep hch hstep
        exact ih hspoiled (by omega) hrest
      · obtain ⟨hspoiled, hlt⟩ := h.textStep hch hstep
        exact ih hspoiled (by omega) hrest

/-- **The loop** comes to the end of the text with everything right, or something goes wrong. -/
theorem Exact.run (hp : Concatenates p) (fuel : Nat) (h : Exact p s)
    (hfuel : p.chars.length ≤ s.i + fuel) :
    (∃ s', s.run p fuel = .ok s' ∧ Exact p s' ∧ s'.i = p.chars.length) ∨
    ¬ CleanTo p p.chars.length ∧ (Maximal p → ∀ s', s.run p fuel = .ok s' → Spoiled p s' ∧
      s'.i = p.chars.length) := by
  induction fuel generalizing s with
  | zero => exact .inl ⟨s, rfl, h, Nat.le_antisymm h.bound hfuel⟩
  | succ fuel ih =>
    rw [Loop.run]
    cases hch : p.chars[s.i]? with
    | none => exact .inl ⟨s, rfl, h, Nat.le_antisymm h.bound (List.getElem?_eq_none_iff.mp hch)⟩
    | some ch =>
      have hstep : ∃ t, (if isDelimiter ch = true then s.delimiterStep p ch else s.textStep p ch) =
        .ok t ∧
          s.i < t.i ∧ (Exact p t ∨ Wrong p t) := by
        by_cases hdelimiter : isDelimiter ch = true
        · rw [if_pos hdelimiter]
          exact h.delimiterStep hp hch hdelimiter
        · rw [if_neg hdelimiter]
          exact h.textStep hp hch (Bool.eq_false_iff.mpr hdelimiter)
      obtain ⟨t, hstep, hlt, hexact | hwrong⟩ := hstep
      · simp only [hstep]
        exact ih hexact (by omega)
      · simp only [hstep]
        exact .inr ⟨hwrong.1, fun hmaximal s' hrest => (hwrong.2 hmaximal).run fuel (by omega) hrest⟩

end Loop

/-! ### The whole text -/

theorem getRunLimit_zero {length : Nat} {bidi : Bidi length} {run : BidiRun} {runs : List BidiRun}
    (h : bidi.runs = run :: runs) : bidi.getRunLimit 0 = run.length := by
  rw [Bidi.getRunLimit, h]
  simp

theorem cleanTo_zero (p : Input) : CleanTo p 0 :=
  ⟨fun _ _ _ _ => Nat.zero_le _, fun _ h => absurd h (Nat.not_lt_zero _),
    fun _ _ h => absurd h (Nat.not_lt_zero _)⟩

/-- The variables before the bidi runs are looked at. -/
def beginSpans (p : Input) : Loop :=
  let s : Loop := { flags := p.flags, spanEnd := p.chars.length, bidiEnd := p.chars.length }
  match p.spans with
  | some (span :: _) => { s.readFont span.font with span := some span, spanEnd := span.text.length }
  | some [] => s
  | none => { s with feature := (p.font.map PGFont.hasFeature).getD false }

theorem beginSpans_eq (p : Input) : ∃ flags feature, beginSpans p =
    { flags, feature, span := (beginSpans p).span, spanEnd := (beginSpans p).spanEnd,
      bidiEnd := p.chars.length } := by
  unfold beginSpans
  split
  · unfold Loop.readFont
    split
    · exact ⟨_, _, rfl⟩
    · exact ⟨_, _, rfl⟩
  · exact ⟨_, _, rfl⟩
  · exact ⟨_, _, rfl⟩

theorem beginSpans_atSpan (hp : Concatenates p) (hpos : 0 < p.chars.length) :
    ∃ n, (pieces p)[0]? = some ((beginSpans p).span, n) ∧
      (beginSpans p).spanEnd = offset (spanLens p) 1 := by
  unfold beginSpans
  split
  · next span spans hspans =>
      have hpiece : (pieces p)[0]? = some (some span, span.text.length) := by
        rw [pieces, hspans]
        rfl
      refine ⟨_, hpiece, ?_⟩
      rw [offset_succ (spanLens_get hpiece), offset_zero, Nat.zero_add]
  · next hspans =>
      have := hp [] hspans
      rw [← this] at hpos
      cases hpos
  · next hspans =>
      have hpiece : (pieces p)[0]? = some (none, p.chars.length) := by
        rw [pieces, hspans]
        rfl
      refine ⟨_, hpiece, ?_⟩
      rw [offset_succ (spanLens_get hpiece), offset_zero, Nat.zero_add]

theorem begin_exact (hp : Concatenates p) (hpos : 0 < p.chars.length) : Loop.Exact p (begin p) := by
  obtain ⟨flags, feature, heq⟩ := beginSpans_eq p
  obtain ⟨n, hspan, hspanEnd⟩ := beginSpans_atSpan hp hpos
  have hlevel : ∃ flags level bidiEnd m, begin p =
    { beginSpans p with flags, bidiLevel := level, bidiEnd } ∧
      (levels p)[0]? = some ⟨m, level⟩ ∧ bidiEnd = offset (levelLens p) 1 := by
    have hoffset : ∀ r : BidiRun, (levels p)[0]? = some r → r.length = offset (levelLens p) 1 :=
      fun r hr => by
      rw [offset_succ (levelLens_get hr), offset_zero, Nat.zero_add]
    cases hbidi : p.usedBidi with
    | none =>
      have hget : (levels p)[0]? = some ⟨p.chars.length, 0⟩ := by
        rw [levels, hbidi]
        rfl
      refine ⟨flags, 0, p.chars.length, p.chars.length, ?_, hget, hoffset _ hget⟩
      rw [begin, hbidi]
      show beginSpans p = _
      rw [heq]
    | some bidi =>
      cases hruns : bidi.runs with
      | nil =>
        have := bidi.covers
        rw [hruns] at this
        simp at this
        omega
      | cons run runs =>
        have hget : (levels p)[0]? = some run := by
          rw [levels, hbidi]
          simp only [hruns]
          rfl
        refine ⟨(Loop.readLevel run.level (beginSpans p)).flags, run.level, run.length, run.length,
          ?_, hget,
          hoffset _ hget⟩
        rw [begin, hbidi]
        simp only [hruns, getRunLimit_zero hruns]
        rfl
  obtain ⟨flags', level, bidiEnd, m, hbegin, hget, hend⟩ := hlevel
  rw [hbegin, heq]
  exact {
      le := Nat.le_refl _
      bound := Nat.zero_le _
      atSpan := ⟨n, hspan, hspanEnd⟩
      atLevel := ⟨m, hget, hend⟩
      spanStart := by simp
      spanHere := Nat.zero_le _
      levelStart := by simp
      levelHere := Nat.zero_le _
      spanFirst := .inl rfl
      levelFirst := .inl rfl
      scriptRun := rfl
      text := fun j ch _ hj => absurd hj (Nat.not_lt_zero _)
      runs := ⟨rfl, fun r hr => absurd hr not_mem_nil⟩
      notSplit := by
        rintro ⟨a, ha, -⟩
        cases ha
      clean := cleanTo_zero p }

theorem good_empty (hstart : r.start = p.chars.length) (hlength : r.length = 0) : Good p r where
  placed h := by omega
  alone := alone_of_text fun j ch hj hj' => by omega
  notSplit := by
    rintro ⟨a, ha, ⟨high, low, -, hlow, -⟩, -⟩
    have := length_pos_of_getElem? hlow
    omega

theorem finish_runs (p : Input) (s : Loop) : (finish p s).2 =
    if s.start < p.chars.length then s.runs ++ { s with i := p.chars.length }.pending s.complex
    else if (s.runs.getLast?.map (·.isLinebreak)).getD true then s.runs ++
      [⟨s.start, 0, 0, false, s.span, false, false⟩]
    else s.runs := by
  unfold finish Loop.pending
  by_cases hstart : s.start < p.chars.length
  · simp only [if_pos hstart]
    rw [if_neg (by omega)]
    rfl
  · simp only [if_neg hstart]
    split
    · rfl
    · rfl

theorem finish_itemized {s : Loop} (h : Loop.Exact p s) (hend : s.i = p.chars.length) :
    Itemized p p.chars.length (finish p s).2 := by
  have hitemized := h.itemized s.complex
  have hle := h.le
  rw [finish_runs, ← hend]
  split
  · exact hitemized
  · next hstart =>
      have heq : s.start = s.i := by omega
      rw [Loop.pending, if_pos heq, append_nil] at hitemized
      split
      · have hgood : Good p ⟨s.start, 0, 0, false, s.span, false, false⟩ :=
          good_empty (heq.trans hend) rfl
        exact hitemized.append heq hgood
      · exact hitemized

/-- **What has gone wrong** is there in the end. -/
theorem finish_spoiled {s : Loop} (h : Loop.Spoiled p s) (hend : s.i = p.chars.length) :
    ∃ r ∈ (finish p s).2, ¬ Placed p r := by
  have hcut := h.cut (Nat.le_refl _) s.complex s rfl rfl rfl rfl
  obtain ⟨hle, -, hbad⟩ := h
  rw [finish_runs, ← hend]
  split
  · exact hcut
  · next hstart =>
      obtain ⟨r, hr, hplaced⟩ := hbad.resolve_right fun hright => hstart hright.1
      split
      · exact ⟨r, mem_append_left _ hr, hplaced⟩
      · exact ⟨r, hr, hplaced⟩

/-- **The runs of a text** are right if nothing happens that may not, and, if neighbouring bidi runs
differ in their levels, only then. -/
theorem itemized_iff (hp : Concatenates p) :
    (CleanTo p p.chars.length → ∃ flags runs, breakRuns p = .ok (flags, runs) ∧
      Itemized p p.chars.length runs) ∧
    (Maximal p → (∃ flags runs, breakRuns p = .ok (flags, runs) ∧ Itemized p p.chars.length runs) →
      CleanTo p p.chars.length) := by
  rcases Nat.eq_zero_or_pos p.chars.length with hzero | hpos
  · -- the empty text
    refine ⟨fun _ => ?_, fun _ _ => hzero ▸ cleanTo_zero p⟩
    have hrun : (begin p).run p p.chars.length = .ok (begin p) := by
      rw [hzero]
      rfl
    obtain ⟨flags, feature, heq⟩ := beginSpans_eq p
    have hbegin : begin p = beginSpans p := by
      rw [begin, show p.usedBidi = none by rw [Input.usedBidi, if_neg (by omega)]]
      rfl
    have hempty : Itemized p p.chars.length [⟨0, 0, 0, false, (beginSpans p).span, false, false⟩] := by
      refine ⟨⟨rfl, hzero.symm⟩, fun r hr => ?_⟩
      rw [List.mem_singleton.mp hr]
      exact good_empty hzero.symm rfl
    refine ⟨(finish p (begin p)).1, (finish p (begin p)).2, by rw [breakRuns, hrun]; rfl, ?_⟩
    rw [finish_runs, hbegin, heq, if_neg (by omega)]
    exact hempty
  · rcases (begin_exact hp hpos).run hp p.chars.length (Nat.le_add_left _ _) with
      ⟨s, hrun, hexact, hend⟩ | ⟨hclean, hbad⟩
    · refine ⟨fun _ => ⟨_, _, by rw [breakRuns, hrun]; rfl, finish_itemized hexact hend⟩, fun _ _ => ?_⟩
      rw [← hend]
      exact hexact.clean
    · refine ⟨fun h => absurd h hclean, fun hmaximal ⟨flags, runs, hruns, hitemized⟩ => ?_⟩
      obtain ⟨s, hrun, hfinish⟩ := map_eq_ok hruns
      obtain ⟨hspoiled, hend⟩ := hbad hmaximal s hrun
      obtain ⟨r, hr, hplaced⟩ := finish_spoiled hspoiled hend
      rw [hfinish] at hr
      exact absurd (hitemized.good r hr).placed hplaced

/-! ### Two texts -/

/-- Tables for texts without complex characters. -/
def plainScripts : Scripts where
  getScript _ := 0
  isComplexCharCode _ := false
  isIdeographic _ := false

def firstSpan : TextSpan := ⟨[0x61, tab, 0x62], some ⟨0, 0⟩⟩

def secondSpan : TextSpan := ⟨[0x63, 0xD802, 0xDC00, lineFeed], some ⟨1, 1⟩⟩

/-- A rich text of two spans, which is read from right to left behind its tab. -/
def spanned : Input where
  scripts := plainScripts
  chars := [0x61, tab, 0x62, 0x63, 0xD802, 0xDC00, lineFeed]
  spans := some [firstSpan, secondSpan]
  font := none
  bidi := ⟨[⟨2, 0⟩, ⟨5, 1⟩], true, by decide, rfl⟩
  flags := {}

theorem cleanTo_spanned : CleanTo spanned spanned.chars.length where
  spans k span hk hpiece := by
    rcases k with _ | _ | k
    · cases hk
    · cases hpiece
    · cases hpiece
  lines i hi hcrlf := by
    obtain ⟨hcr, -⟩ := hcrlf
    replace hi : i < 7 := hi
    interval_cases i <;> cases hcr
  pairs hcheck i hi hpair := by
    -- The only bidi run that begins later does so at the third character.
    have hlevels : ∀ b, 3 ≤ b → ¬ Boundary (levelLens spanned) b := by
      rintro b hb ⟨k, hpos, hk, rfl⟩
      replace hk : k < 2 := hk
      interval_cases k
      exact absurd hb (by decide)
    obtain ⟨high, low, hhigh, -, hhigh', -⟩ := hpair
    replace hi : i < 7 := hi
    interval_cases i <;> cases hhigh <;> cases hhigh'
    exact fun _ => ⟨hlevels 4 (by decide), hlevels 5 (by decide)⟩

theorem itemized_spanned :
    (∃ flags runs, breakRuns spanned = .ok (flags, runs) ∧
      Itemized spanned spanned.chars.length runs) ∧
      (breakRuns spanned).map (fun r => r.2.map fun r => (r.start, r.length, r.level))
        = .ok [(0, 1, 0), (1, 1, 0), (2, 1, 1), (3, 3, 1), (6, 1, 1), (7, 0, 0)] :=
  ⟨(itemized_iff fun _ h => by cases h; rfl).1 cleanTo_spanned, by decide +kernel⟩

/-- A letter, and a character of two halves that is read from right to left. -/
def mixed : Input where
  scripts := plainScripts
  chars := [0x61, 0xD802, 0xDC00]
  spans := none
  font := none
  bidi := ⟨[⟨1, 0⟩, ⟨2, 1⟩], true, by decide, rfl⟩
  flags := {}

theorem breakRuns_mixed : (breakRuns mixed).map Prod.snd
    = .ok [⟨0, 2, 0, false, none, false, false⟩, ⟨2, 1, 1, true, none, false, false⟩] := rfl

/-- The first run has one half of the pair, and the second run has the other. -/
theorem mixed_not_itemized : ¬ ∃ flags runs, breakRuns mixed = .ok (flags, runs) ∧
    Itemized mixed mixed.chars.length runs := by
  rintro ⟨flags, runs, hruns, hitemized⟩
  have hmap := breakRuns_mixed
  rw [hruns] at hmap
  obtain rfl := Except.ok.inj hmap
  obtain ⟨-, k, n, -, hwithin⟩ := (hitemized.good _ mem_cons_self).placed (by decide)
  exact not_within (show 0 < 1 by decide) (show 1 < 2 by decide)
    (show offset (levelLens mixed) 1 = 1 from rfl) hwithin

end JavaFX.GlyphLayout
