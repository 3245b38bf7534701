/-
A token depends on its own characters only.

Two lexers are compared, one of which has some text `w` more before it than the other, and
which are otherwise alike up to where they are in the input.  As long as the first has not
read into `w`, the two return the same tokens.  They are told apart by one thing: at the end
of its input the second sees the end where the first sees the first character of `w`.  That
character is a solidus here, which begins no token that goes on, so the difference does not
matter to a token that ends there.
-/
import JavaFX.Proofs.Css.CssLexer

namespace JavaFX.CssLexer

open Recognizer List

/-- The characters that are left. -/
def rest (s : CssLexer) : List CodeUnit := s.ch.toList ++ s.reader

/-- How many LF, CR and CRLF there are in a text. -/
def lineEnds : List CodeUnit → Nat
  | [] => 0
  | c :: text =>
    if c = unit '\n' ∨ (c = unit '\r' ∧ text.head? ≠ some (unit '\n')) then lineEnds text + 1
    else lineEnds text

theorem left_eq_length (s : CssLexer) : s.left = s.rest.length := by
  simp [left, rest, Nat.add_comm]

theorem rest_readChar (s : CssLexer) : s.readChar.rest = s.reader := by
  cases hreader : s.reader <;> simp [rest, readChar, hreader]

theorem rest_setReader (text : List CodeUnit) : (setReader text).rest = text := rest_readChar _

theorem rest_eq_nil_iff {s : CssLexer} (h : s.Drained) : s.rest = [] ↔ s.ch = none := by
  rw [← left_eq_zero_iff h, left_eq_length, length_eq_zero_iff]

theorem rest_of_ch {s : CssLexer} {c : CodeUnit} (h : s.ch = some c) : s.rest = c :: s.reader := by
  simp [rest, h]

theorem lineEnds_cons {c : CodeUnit} (h : nlChars c = false) (text : List CodeUnit) :
    lineEnds (c :: text) = lineEnds text := by
  simp only [nlChars, decide_eq_false_iff_not, not_or] at h
  simp [lineEnds, h]

/-! ### Lexers that are alike -/

/-- `s`, which reads `input`, has what `s'` has before it, and then `w`. -/
structure Alike (w input : List CodeUnit) (m : UnitsState) (s s' : CssLexer) : Prop where
  rest : s.rest = s'.rest ++ w
  drained : s.Drained
  drained' : s'.Drained
  text : s'.text = s.text
  currentState : s'.currentState = s.currentState
  unitsState : s.unitsState = m
  unitsState' : s'.unitsState = m
  lastc : s.lastc = s.ch
  suffix : s.rest <:+ input
  line : s.line + lineEnds s.rest = 1 + lineEnds input

/-- The line of a token is right: it and the line ends that are left, with its own, make up
those of the input. -/
def Counted (input : List CodeUnit) (r : Token × CssLexer) : Prop :=
  r.1 = .eofToken ∨ r.1.line + lineEnds r.2.rest + (if r.1.type = .nl then 1 else 0) = 1 + lineEnds input

/-- The two have returned the same token. -/
structure SameToken (w input : List CodeUnit) (m : UnitsState) (r r' : Token × CssLexer) : Prop where
  type : r'.1.type = r.1.type
  text : r'.1.text = r.1.text
  line : Counted input r
  alike : Alike w input m r.2 r'.2

/-- A text that begins with a solidus, if at all. -/
def StartsSolid (w : List CodeUnit) : Prop := ∀ c ∈ w.head?, c = unit '/'

variable {w input : List CodeUnit} {m : UnitsState} {s s' : CssLexer}

namespace Alike

section

variable (h : Alike w input m s s')
include h

theorem length_le : w.length ≤ s.left := by
  rw [left_eq_length, h.rest]
  simp

theorem ch_of_some {c : CodeUnit} (hch : s'.ch = some c) : s.ch = some c := by
  have hrest := h.rest
  rw [rest_of_ch hch] at hrest
  cases hch' : s.ch with
  | none =>
    rw [(rest_eq_nil_iff h.drained).mpr hch'] at hrest
    simp at hrest
  | some d =>
    rw [rest_of_ch hch'] at hrest
    exact congrArg some (List.cons.inj hrest).1

theorem ch_of_lt (hlt : w.length < s.left) : s'.ch = s.ch := by
  rw [left_eq_length, h.rest] at hlt
  cases hch : s'.ch with
  | none =>
    rw [(rest_eq_nil_iff h.drained').mpr hch] at hlt
    simp at hlt
  | some c => exact (h.ch_of_some hch).symm

/-- The two see the same, or they are where `w` begins. -/
theorem ch (hw : StartsSolid w) :
    s'.ch = s.ch ∨ (s.ch = some (unit '/') ∧ s'.ch = none ∧ s.left = w.length ∧ w ≠ []) := by
  rcases Nat.eq_or_lt_of_le h.length_le with heq | hlt
  · have hlength := congrArg length h.rest
    rw [← left_eq_length, length_append] at hlength
    have hnil : s'.rest = [] := List.length_eq_zero_iff.mp (by omega)
    have hrest := h.rest
    rw [hnil, nil_append] at hrest
    have hch' := (rest_eq_nil_iff h.drained').mp hnil
    cases hch : s.ch with
    | none => exact .inl hch'
    | some c =>
      rw [rest_of_ch hch] at hrest
      obtain rfl := hw c (by simp [← hrest])
      exact .inr ⟨rfl, hch', heq.symm, by simp [← hrest]⟩
  · exact .inl (h.ch_of_lt hlt)

theorem ch_of_ne (hw : StartsSolid w) (hne : s.ch ≠ some (unit '/')) :
    s'.ch = s.ch := (h.ch hw).resolve_right fun hat => hne hat.1

theorem ch_of_none (hch : s.ch = none) : s'.ch = none := by
  have hrest := h.rest
  rw [(rest_eq_nil_iff h.drained).mpr hch] at hrest
  exact (rest_eq_nil_iff h.drained').mp (List.append_eq_nil_iff.mp hrest.symm).1

theorem append (hch : s'.ch = s.ch) : Alike w input m s.append s'.append :=
  { h with text := by simp [CssLexer.append, h.text, hch] }

theorem setOffset (offset offset' : Int) :
    Alike w input m { s with offset } { s' with offset := offset' } := { h with }

theorem readChar (hch : s'.ch = s.ch) : Alike w input m s.readChar s'.readChar := by
  have hrest := h.rest
  refine ⟨?_, (Reads.readChar s).drained h.drained, (Reads.readChar s').drained h.drained', h.text, h.currentState,
    h.unitsState, h.unitsState', rfl, ?_, ?_⟩
  · rw [rest_readChar, rest_readChar]
    cases hs : s.ch with
    | none =>
      rw [hs] at hch
      rw [h.drained hs, h.drained' hch]
      rwa [(rest_eq_nil_iff h.drained).mpr hs, (rest_eq_nil_iff h.drained').mpr hch] at hrest
    | some c =>
      rw [rest_of_ch hs, rest_of_ch (hch.trans hs)] at hrest
      exact (List.cons.inj hrest).2
  · rw [rest_readChar]
    exact (suffix_append s.ch.toList s.reader).trans h.suffix
  · rw [rest_readChar, ← h.line]
    cases hs : s.ch with
    | none => simp [CssLexer.readChar, CssLexer.rest, h.lastc, hs]
    | some c =>
      simp only [rest_of_ch hs, lineEnds, CssLexer.readChar, h.lastc, hs, Option.some.injEq]
      split <;> push_cast <;> omega

end

end Alike

/-! ### One character of a scanner -/

section

variable {c : CodeUnit}

variable {recognize : Recognizer} {lastc : Option CodeUnit} {endQuote endq : CodeUnit}

theorem skipWhile_of_ch (h : s.ch = some c) :
    s.skipWhile recognize = if recognize c then s.readChar.skipWhile recognize else s := by
  rw [skipWhile]
  grind

theorem skipWhile_of_end (h : s.ch = none) : s.skipWhile recognize = s := by
  rw [skipWhile]
  grind

theorem skipComment_of_ch (h : s.ch = some c) : s.skipComment =
      if c = unit '*' ∧ s.readChar.ch = some (unit '/') then { s.readChar with offset := s.readChar.pos }.readChar
      else s.readChar.skipComment := by
  rw [skipComment]
  grind

theorem skipComment_of_end (h : s.ch = none) : s.skipComment = s := by
  rw [skipComment]
  grind

theorem skipToEOL_of_ch (h : s.ch = some c) : s.skipToEOL lastc =
      if s.readChar.ch = some (unit '\n') ∨
        (lastc = some (unit '\r') ∧ s.readChar.ch ≠ some (unit '\n')) then s.readChar
      else s.readChar.skipToEOL lastc := by
  rw [skipToEOL]
  grind

theorem skipToEOL_of_end (h : s.ch = none) : s.skipToEOL lastc = s := by
  rw [skipToEOL]
  grind

theorem consumeQuoted_of_ch (h : s.ch = some c) : s.consumeQuoted endQuote =
      if c = endQuote ∨ nlChars c then s
      else if c = unit '\\' then s.readChar.consumeEscape.consumeQuoted endQuote
      else s.append.readChar.consumeQuoted endQuote := by
  rw [consumeQuoted]
  grind

theorem consumeQuoted_of_end (h : s.ch = none) : s.consumeQuoted endQuote = s := by
  rw [consumeQuoted]
  grind

theorem consumeUnquoted_of_ch (h : (s.skipWhile wsChars).ch = some c) : s.consumeUnquoted =
      if c = unit ')' then (some .url, (s.skipWhile wsChars).readChar)
      else if c = unit '\\' then (s.skipWhile wsChars).readChar.consumeEscape.consumeUnquoted
      else if c = unit '\'' ∨ c = unit '"' ∨ c = unit '(' then (none, s.skipWhile wsChars)
      else (s.skipWhile wsChars).append.readChar.consumeUnquoted := by
  rw [consumeUnquoted]
  grind

theorem consumeUnquoted_of_end (h : (s.skipWhile wsChars).ch = none) :
    s.consumeUnquoted = (some .url, s.skipWhile wsChars) := by
  rw [consumeUnquoted]
  grind

theorem scanString_of_ch (h : s.readChar.ch = some c) :
    s.scanString endq = if c = endq then s.readChar.append else s.readChar.append.scanString endq := by
  rw [scanString]
  grind

theorem scanString_of_end (h : s.readChar.ch = none) : s.scanString endq = s.readChar := by
  rw [scanString]
  grind

theorem scanAfterBang_of_ch (h : s.ch = some c) : s.scanAfterBang =
      if c = unit '/' then
        if s.readChar.ch = some (unit '*') then s.readChar.skipComment.scanAfterBang
        else if s.readChar.ch = some (unit '/') then s.readChar.skipEOL.scanAfterBang
        else
          let s := s.readChar
          let text := s.text ++ [unit '/', s.ch.getD 0xFFFF]
          (⟨.invalid, text, s.line, s.offset⟩, { s with text := text, offset := s.pos })
      else if wsChars c then s.readChar.scanAfterBang
      else s.scanKeyword := by
  rw [scanAfterBang]
  grind

theorem scanAfterBang_of_end (h : s.ch = none) : s.scanAfterBang =
    (.eofToken, { s with token := some .eofToken }) := by
  rw [scanAfterBang]
  grind

theorem getToken_of_nextState {state : LexerState} (h : s.nextState = some (c, state)) :
    s.getToken = (s.enter c state).append.readChar.getToken := by
  rw [getToken]
  grind

theorem getToken_of_type (h : s.nextState = none) (htype : s.getType.1 ≠ .invalid ∨ s.currentState ≠ .init) :
    s.getToken = s.getType.2.endToken s.getType.1 := by
  rw [getToken]
  grind

theorem getType_of_init (h : s.currentState = .init) : s.getType = (.invalid, s) := by
  simp [getType, h]

theorem getToken_of_ch (h : s.nextState = none) (hinit : s.currentState = .init) (hch : s.ch = some c) : s.getToken =
      if c = unit '/' then
        if s.readChar.ch = some (unit '*') then
          if s.readChar.skipComment.ch ≠ none then s.readChar.skipComment.getToken
          else s.readChar.skipComment.endOfInput
        else if s.readChar.ch = some (unit '/') then
          if s.readChar.skipEOL.ch ≠ none then s.readChar.skipEOL.getToken
          else s.readChar.skipEOL.endOfInput
        else
          let s := s.readChar
          (⟨.solidus, units "/", s.line, s.offset⟩, { s with offset := s.pos })
      else s.scanSpecial c := by
  have htype := getType_of_init hinit
  rw [getToken]
  grind

theorem getToken_of_end (hinit : s.currentState = .init) (hch : s.ch = none) : s.getToken = s.endOfInput := by
  have htype := getType_of_init hinit
  have hnext : s.nextState = none := by simp [nextState, hch]
  rw [getToken]
  grind

theorem ch_scanString (endq : CodeUnit) (s : CssLexer) :
    (s.scanString endq).ch = none ∨ (s.scanString endq).ch = some endq := by
  fun_induction scanString endq s with
  | case1 s hend => exact .inl hend
  | case2 s hend => exact .inr hend
  | case3 s c hc hne ih => exact ih

theorem skipWhile_stops (recognize : Recognizer) (s : CssLexer) :
    ∀ c, (s.skipWhile recognize).ch = some c → recognize c = false := by
  fun_induction skipWhile recognize s with
  | case1 s c hch hrec ih => exact ih
  | case2 s c hch hrec => simp_all
  | case3 s hch => simp [hch]

theorem left_skipEOL_le (s : CssLexer) : s.skipEOL.left ≤ s.readChar.left := by
  cases hch : s.ch with
  | none =>
    rw [skipEOL, skipToEOL_of_end hch]
    rw [left_eq_length, left_eq_length, rest_readChar, rest, hch]
    simp
  | some c =>
    rw [skipEOL, skipToEOL_of_ch hch]
    split
    · exact Nat.le_refl _
    · exact (reads_skipToEOL _ _).left

end

/-! ### The scanners -/

namespace Alike

variable {c : CodeUnit}

variable {t : CssLexer}

theorem read (h : Alike w input m s s') (hch : s.ch = some c) (hreads : t.left ≤ s.readChar.left)
    (hle : w.length ≤ t.left) : s'.ch = some c ∧ Alike w input m s.readChar s'.readChar := by
  have hlt := left_readChar_lt hch
  have hsame := h.ch_of_lt (Nat.lt_of_le_of_lt (Nat.le_trans hle hreads) hlt)
  exact ⟨hsame.trans hch, h.readChar hsame⟩

theorem take (h : Alike w input m s s') (hch : s.ch = some c) (hreads : t.left ≤ s.append.readChar.left)
    (hle : w.length ≤ t.left) : s'.ch = some c ∧ Alike w input m s.append.readChar s'.append.readChar := by
  obtain ⟨hsame, -⟩ := h.read hch hreads hle
  have heq := hsame.trans hch.symm
  exact ⟨hsame, (h.append heq).readChar heq⟩

theorem skipWhile (recognize : Recognizer) (hw : StartsSolid w) (h : Alike w input m s s')
    (hle : w.length ≤ (s.skipWhile recognize).left) :
    Alike w input m (s.skipWhile recognize) (s'.skipWhile recognize) := by
  fun_induction CssLexer.skipWhile recognize s generalizing s' with
  | case1 s c hch hrec ih =>
    obtain ⟨hch', hread⟩ := h.read hch (reads_skipWhile _ _).left hle
    rw [skipWhile_of_ch hch', if_pos hrec]
    exact ih hread hle
  | case2 s c hch hrec =>
    rcases h.ch hw with hsame | ⟨-, hnone, -⟩
    · rwa [skipWhile_of_ch (hsame.trans hch), if_neg hrec]
    · rwa [skipWhile_of_end hnone]
  | case3 s hch => rwa [skipWhile_of_end (h.ch_of_none hch)]

theorem skipComment (h : Alike w input m s s') (hle : w.length ≤ s.skipComment.left) :
    Alike w input m s.skipComment s'.skipComment := by
  fun_induction CssLexer.skipComment s generalizing s' with
  | case1 s hch => rwa [skipComment_of_end (h.ch_of_none hch)]
  | case2 s hslash hch =>
    have hoffset := Reads.setOffset s.readChar s.readChar.pos
    obtain ⟨hch', hread⟩ := h.read hch (hoffset.trans (.readChar _)).left hle
    obtain ⟨hslash', hreads⟩ := (hread.setOffset s.readChar.pos s'.readChar.pos).read hslash (Nat.le_refl _) hle
    rw [skipComment_of_ch hch', if_pos ⟨rfl, hslash'⟩]
    exact hreads
  | case3 s hslash hch ih =>
    obtain ⟨hch', hread⟩ := h.read hch (reads_skipComment _).left hle
    rw [skipComment_of_ch hch', if_neg (fun hstar => hslash (hread.ch_of_some hstar.2))]
    exact ih hread hle
  | case4 s c hch hne ih =>
    obtain ⟨hch', hread⟩ := h.read hch (reads_skipComment _).left hle
    rw [skipComment_of_ch hch', if_neg (fun hstar => hne hstar.1)]
    exact ih hread hle

theorem skipToEOL (hw : StartsSolid w) {lastc : Option CodeUnit} (hlast : lastc = some (unit '/'))
    (h : Alike w input m s s')
    (hle : w.length ≤ (s.skipToEOL lastc).left) :
    Alike w input m (s.skipToEOL lastc) (s'.skipToEOL lastc) := by
  subst hlast
  fun_induction CssLexer.skipToEOL (some (unit '/')) s generalizing s' with
  | case1 s hch => rwa [skipToEOL_of_end (h.ch_of_none hch)]
  | case2 s c hch hend =>
    obtain ⟨hch', hread⟩ := h.read hch (Nat.le_refl _) hle
    have hnl := hend.resolve_right (fun hcr => absurd hcr.1 (by decide))
    have hnl' := (hread.ch_of_ne hw (by rw [hnl]; decide)).trans hnl
    rwa [skipToEOL_of_ch hch', if_pos (.inl hnl')]
  | case3 s c hch hgo ih =>
    obtain ⟨hch', hread⟩ := h.read hch (reads_skipToEOL _ _).left hle
    rw [skipToEOL_of_ch hch', if_neg]
    · exact ih hread hle
    · rintro (hnl | ⟨hcr, -⟩)
      · exact hgo (.inl (hread.ch_of_some hnl))
      · exact absurd hcr (by decide)

theorem skipEOL (hw : StartsSolid w) (h : Alike w input m s s') (hch : s.ch = some (unit '/'))
    (hle : w.length ≤ s.skipEOL.left) : s'.ch = some (unit '/') ∧ Alike w input m s.skipEOL s'.skipEOL := by
  obtain ⟨hch', -⟩ := h.read hch (left_skipEOL_le s) hle
  have heol := h.skipToEOL hw hch hle
  unfold CssLexer.skipEOL
  rw [hch'.trans hch.symm]
  exact ⟨hch, heol⟩

theorem recognizeAll (recognizers : List Recognizer) (h : Alike w input m s s')
    (hle : w.length ≤ (recognizeAll recognizers s).2.left) :
    (recognizeAll recognizers s').1 = (recognizeAll recognizers s).1 ∧
      Alike w input m (recognizeAll recognizers s).2 (recognizeAll recognizers s').2 := by
  induction recognizers generalizing s s' with
  | nil => exact ⟨rfl, h⟩
  | cons recognize recognizers ih =>
    cases hch : s.ch with
    | none =>
      have hch' := h.ch_of_none hch
      have heq := hch'.trans hch.symm
      simp only [CssLexer.recognizeAll, hch, hch', Option.any_none, Bool.false_eq_true, if_false, true_and]
      exact (h.append heq).readChar heq
    | some c =>
      have hreads : (CssLexer.recognizeAll (recognize :: recognizers) s).2.left ≤ s.append.readChar.left := by
        unfold CssLexer.recognizeAll
        split
        · exact (reads_recognizeAll _ _).left
        · exact Nat.le_refl _
      obtain ⟨hch', htake⟩ := h.take hch hreads hle
      by_cases hrec : recognize c
      · simp only [CssLexer.recognizeAll, hch, hch', Option.any_some, hrec] at hle ⊢
        exact ih htake hle
      · simp only [CssLexer.recognizeAll, hch, hch', Option.any_some, hrec]
        exact ⟨rfl, htake⟩

theorem consumeEscape (hw : StartsSolid w) (h : Alike w input m s s') (hle : w.length ≤ s.consumeEscape.left) :
    Alike w input m s.consumeEscape s'.consumeEscape := by
  cases hch : s.ch with
  | none => simpa only [CssLexer.consumeEscape, hch, h.ch_of_none hch] using h
  | some c =>
    by_cases hnl : nlChars c
    · have hne : s.ch ≠ some (unit '/') := by
        rintro hslash
        obtain rfl := Option.some.inj (hch.symm.trans hslash)
        exact absurd hnl (by decide)
      have hch' := (h.ch_of_ne hw hne).trans hch
      simp only [CssLexer.consumeEscape, hch, hch', hnl] at hle ⊢
      exact h.skipWhile _ hw hle
    · simp only [CssLexer.consumeEscape, hch, hnl] at hle ⊢
      obtain ⟨hch', htake⟩ := h.take hch (Nat.le_refl _) hle
      simpa only [hch', hnl, Bool.false_eq_true, if_false] using htake

theorem consumeQuoted {endQuote : CodeUnit} (hq : endQuote ≠ unit '/') (hw : StartsSolid w) (h : Alike w input m s s')
    (hle : w.length ≤ (s.consumeQuoted endQuote).left) :
    Alike w input m (s.consumeQuoted endQuote) (s'.consumeQuoted endQuote) := by
  fun_induction CssLexer.consumeQuoted endQuote s generalizing s' with
  | case1 s hch => rwa [consumeQuoted_of_end (h.ch_of_none hch)]
  | case2 s c hch hend =>
    have hne : s.ch ≠ some (unit '/') := by
      rintro hslash
      obtain rfl := Option.some.inj (hch.symm.trans hslash)
      rcases hend with rfl | hnl
      · exact hq rfl
      · exact absurd hnl (by decide)
    rwa [consumeQuoted_of_ch ((h.ch_of_ne hw hne).trans hch), if_pos hend]
  | case3 s hch hend ih =>
    have hreads := (reads_consumeEscape s.readChar).trans (reads_consumeQuoted endQuote _)
    obtain ⟨hch', hread⟩ := h.read hch hreads.left hle
    rw [consumeQuoted_of_ch hch', if_neg hend]
    have hescape := Nat.le_trans hle (reads_consumeQuoted endQuote s.readChar.consumeEscape).left
    exact ih (hread.consumeEscape hw hescape) hle
  | case4 s c hch hend hescape ih =>
    obtain ⟨hch', htake⟩ := h.take hch (reads_consumeQuoted endQuote _).left hle
    rw [consumeQuoted_of_ch hch', if_neg hend, if_neg hescape]
    exact ih htake hle

/-- Of a url that is bad the lexer has not come to `w` yet. -/
def Room (w : List CodeUnit) (r : Option TokenType × CssLexer) : Prop :=
  w.length ≤ r.2.left ∧ (r.1 = none → r.2.ch = some (unit '/') → r.2.left ≠ w.length)

section

variable (hw : StartsSolid w) (h : Alike w input m s s')
include hw h

theorem consumeUnquoted (hle : w.length ≤ s.consumeUnquoted.2.left) :
    s'.consumeUnquoted.1 = s.consumeUnquoted.1 ∧ Alike w input m s.consumeUnquoted.2 s'.consumeUnquoted.2 := by
  fun_induction CssLexer.consumeUnquoted s generalizing s' with
  | case1 s hch =>
    have hskip := h.skipWhile wsChars hw hle
    rw [consumeUnquoted_of_end (hskip.ch_of_none hch)]
    exact ⟨rfl, hskip⟩
  | case2 s hch =>
    have hskip := h.skipWhile wsChars hw (Nat.le_trans hle (Reads.readChar _).left)
    obtain ⟨hch', hread⟩ := hskip.read hch (Nat.le_refl _) hle
    rw [consumeUnquoted_of_ch hch']
    exact ⟨rfl, hread⟩
  | case3 s hch hne ih =>
    have hrest := (findsUrl_consumeUnquoted (s.skipWhile wsChars).readChar.consumeEscape).1
    have hreads := (reads_consumeEscape (s.skipWhile wsChars).readChar).trans hrest
    have hskip := h.skipWhile wsChars hw (Nat.le_trans hle ((Reads.readChar _).trans hreads).left)
    obtain ⟨hch', hread⟩ := hskip.read hch hreads.left hle
    rw [consumeUnquoted_of_ch hch']
    exact ih (hread.consumeEscape hw (Nat.le_trans hle hrest.left)) hle
  | case4 s c hch hparen hescape hbad =>
    have hskip := h.skipWhile wsChars hw hle
    have hne : (s.skipWhile wsChars).ch ≠ some (unit '/') := by
      rintro hslash
      obtain rfl := Option.some.inj (hch.symm.trans hslash)
      exact absurd hbad (by decide)
    rw [consumeUnquoted_of_ch ((hskip.ch_of_ne hw hne).trans hch), if_neg hparen, if_neg hescape, if_pos hbad]
    exact ⟨rfl, hskip⟩
  | case5 s c hch hparen hescape hgood ih =>
    have hrest := (findsUrl_consumeUnquoted (s.skipWhile wsChars).append.readChar).1
    have hreads := ((Reads.append (s.skipWhile wsChars)).trans (.readChar _)).trans hrest
    have hskip := h.skipWhile wsChars hw (Nat.le_trans hle hreads.left)
    obtain ⟨hch', htake⟩ := hskip.take hch hrest.left hle
    rw [consumeUnquoted_of_ch hch', if_neg hparen, if_neg hescape, if_neg hgood]
    exact ih htake hle

theorem closeUrl (hroom : Room w s.closeUrl) :
    s'.closeUrl.1 = s.closeUrl.1 ∧ Alike w input m s.closeUrl.2 s'.closeUrl.2 := by
  have hskip := h.skipWhile wsChars hw (Nat.le_trans hroom.1 (by
    unfold CssLexer.closeUrl
    simp only
    split
    · exact (Reads.readChar _).left
    · split <;> exact Nat.le_refl _))
  unfold CssLexer.closeUrl at hroom ⊢
  rcases hskip.ch hw with hsame | ⟨hslash, -, hleft, -⟩
  · simp only [hsame]
    split
    · exact ⟨rfl, hskip.readChar hsame⟩
    · split <;> exact ⟨rfl, hskip⟩
  · have hparen : some (unit '/') ≠ some (unit ')') := by decide
    simp only [hslash] at hroom
    exact absurd hleft (hroom.2 rfl hslash)

theorem consumeUrlBody (hch : s.ch = some c) (hroom : Room w (s.consumeUrlBody c)) :
    s'.ch = some c ∧ (s'.consumeUrlBody c).1 = (s.consumeUrlBody c).1 ∧
      Alike w input m (s.consumeUrlBody c).2 (s'.consumeUrlBody c).2 := by
  unfold CssLexer.consumeUrlBody at hroom ⊢
  by_cases hquote : c = unit '\'' ∨ c = unit '"'
  · have hslash : c ≠ unit '/' := by rcases hquote with rfl | rfl <;> decide
    simp only [hquote] at hroom ⊢
    have hreads := reads_consumeQuoted c s.readChar
    by_cases hend : (s.readChar.consumeQuoted c).ch = some c
    · simp only [hend] at hroom ⊢
      have hclose := (Reads.readChar (s.readChar.consumeQuoted c)).trans (findsUrl_closeUrl _).1
      obtain ⟨hch', hread⟩ := h.read hch (hreads.trans hclose).left hroom.1
      have hquoted := hread.consumeQuoted hslash hw (Nat.le_trans hroom.1 hclose.left)
      obtain ⟨hend', hnext⟩ := hquoted.read hend (findsUrl_closeUrl _).1.left hroom.1
      simp only [hend']
      exact ⟨hch', hnext.closeUrl hw hroom⟩
    · simp only [hend] at hroom ⊢
      obtain ⟨hch', hread⟩ := h.read hch hreads.left hroom.1
      have hquoted := hread.consumeQuoted hslash hw hroom.1
      rw [if_neg (fun hend' => hend (hquoted.ch_of_some hend'))]
      exact ⟨hch', rfl, hquoted⟩
  · simp only [hquote] at hroom ⊢
    obtain ⟨hch', htake⟩ := h.take hch (findsUrl_consumeUnquoted _).1.left hroom.1
    exact ⟨hch', htake.consumeUnquoted hw hroom.1⟩

theorem consumeBadUrl (hle : w.length ≤ s.consumeBadUrl.2.left) :
    s'.consumeBadUrl.1 = s.consumeBadUrl.1 ∧ Alike w input m s.consumeBadUrl.2 s'.consumeBadUrl.2 := by
  unfold CssLexer.consumeBadUrl at hle ⊢
  by_cases hend : (s.skipWhile (· ≠ unit ')')).ch = none
  · simp only [hend] at hle ⊢
    have hskip := h.skipWhile _ hw hle
    simpa only [hskip.ch_of_none hend, if_true, true_and] using hskip
  · simp only [hend] at hle ⊢
    obtain ⟨d, hd⟩ := Option.ne_none_iff_exists'.mp hend
    have hskip := h.skipWhile _ hw (Nat.le_trans hle (Reads.readChar _).left)
    obtain ⟨hd', hread⟩ := hskip.read hd (Nat.le_refl _) hle
    simpa only [hd', reduceCtorEq, if_false, true_and] using hread

end

theorem room_of_bad (hle : w.length ≤ s.consumeBadUrl.2.left) : Room w (none, s) := by
  have hreads := (finds_consumeBadUrl s).reads
  refine ⟨Nat.le_trans hle hreads.left, fun _ hslash hleft => ?_⟩
  have hread : s.skipWhile (· ≠ unit ')') = s.readChar.skipWhile (· ≠ unit ')') := by
    rw [skipWhile_of_ch hslash, if_pos (by decide)]
  have hbad : s.consumeBadUrl = s.readChar.consumeBadUrl := by
    unfold CssLexer.consumeBadUrl
    rw [hread]
  have hlt := left_readChar_lt hslash
  have hrest := (finds_consumeBadUrl s.readChar).reads.left
  rw [hbad] at hle
  simp only at hlt hleft
  omega

theorem consumeUrl (hw : StartsSolid w) (h : Alike w input m s s') (hle : w.length ≤ s.consumeUrl.2.left) :
    s'.consumeUrl.1 = s.consumeUrl.1 ∧ Alike w input m s.consumeUrl.2 s'.consumeUrl.2 := by
  have hclear : Alike w input m { s with text := [] } { s' with text := [] } := { h with text := rfl }
  unfold CssLexer.consumeUrl at hle ⊢
  have hskips := hclear.skipWhile wsChars hw
  generalize { s with text := [] }.skipWhile wsChars = t at hle hskips ⊢
  generalize { s' with text := [] }.skipWhile wsChars = t' at hskips ⊢
  cases hch : t.ch with
  | none =>
    simp only [hch] at hle ⊢
    have hskip := hskips hle
    simpa only [hskip.ch_of_none hch, true_and] using hskip
  | some c =>
    simp only [hch] at hle ⊢
    have hbody := findsUrl_consumeUrlBody c t
    cases hfound : t.consumeUrlBody c with
    | mk found t₁ =>
    rw [hfound] at hbody
    have hroom : Room w (found, t₁) := by
      cases found with
      | none =>
        simp only [hfound] at hle
        exact room_of_bad hle
      | some type =>
        simp only [hfound] at hle
        exact ⟨hle, by simp⟩
    have hskip := hskips (Nat.le_trans hroom.1 hbody.1.left)
    obtain ⟨hch', htype, hnext⟩ := hskip.consumeUrlBody hw hch (hfound ▸ hroom)
    rw [hfound] at htype hnext
    cases hfound' : t'.consumeUrlBody c with
    | mk found' t₁' =>
    rw [hfound'] at htype hnext
    obtain rfl : found' = found := htype
    simp only [hch', hfound', hfound] at hle ⊢
    cases found' with
    | none => exact hnext.consumeBadUrl hw hle
    | some type => exact ⟨rfl, hnext⟩

theorem getType (hw : StartsSolid w) (h : Alike w input m s s') (hle : w.length ≤ s.getType.2.left) :
    s'.getType.1 = s.getType.1 ∧
      Alike w input (if s.currentState = .units then {} else m) s.getType.2 s'.getType.2 := by
  have hstate := h.currentState
  cases hs : s.currentState
  case lparen =>
    simp only [CssLexer.getType, hs, hstate.trans hs, h.text] at hle ⊢
    split
    · next hurl =>
      rw [if_pos hurl] at hle
      exact h.consumeUrl hw hle
    · exact ⟨rfl, h⟩
  case units =>
    simp only [CssLexer.getType, hs, hstate.trans hs, h.unitsState, h.unitsState', true_and]
    exact { h with unitsState := rfl, unitsState' := rfl, currentState := rfl }
  all_goals
    simp only [CssLexer.getType, hs, hstate.trans hs, true_and]
    exact h

theorem scanString {endq : CodeUnit} (hq : endq ≠ unit '/') (hw : StartsSolid w) (h : Alike w input m s s')
    (hch : s.ch ≠ none) (hle : w.length ≤ (s.scanString endq).left) :
    s'.ch = s.ch ∧ Alike w input m (s.scanString endq) (s'.scanString endq) := by
  obtain ⟨d, hd⟩ := Option.ne_none_iff_exists'.mp hch
  fun_induction CssLexer.scanString endq s generalizing s' d with
  | case1 s hend =>
    obtain ⟨hd', hread⟩ := h.read hd (Nat.le_refl _) hle
    rw [scanString_of_end (hread.ch_of_none hend)]
    exact ⟨hd'.trans hd.symm, hread⟩
  | case2 s hend =>
    obtain ⟨hd', hread⟩ := h.read hd (Nat.le_refl _) hle
    have hend' := (hread.ch_of_ne hw (by rw [hend]; simpa using hq)).trans hend
    rw [scanString_of_ch hend', if_pos rfl]
    exact ⟨hd'.trans hd.symm, hread.append (hend'.trans hend.symm)⟩
  | case3 s c hc hne ih =>
    have hreads := (Reads.append s.readChar).trans (reads_scanString endq _)
    obtain ⟨hd', hread⟩ := h.read hd hreads.left hle
    have hlt := left_scanString_lt (s := s.readChar.append) hc endq
    have hsame := hread.ch_of_lt (Nat.lt_of_le_of_lt hle hlt)
    rw [scanString_of_ch (hsame.trans hc), if_neg hne]
    exact ⟨hd'.trans hd.symm, (ih (hread.append hsame) (by simp [CssLexer.append, hc]) hle c hc).2⟩

end Alike

/-! ### Tokens -/

namespace SameToken

theorem of_alike (h : Alike w input m s s') {type : TokenType} {text text' : List CodeUnit} {offset offset' : Int}
    (hnl : type ≠ .nl) (htext : text' = text) :
    SameToken w input m (⟨type, text, s.line, offset⟩, s) (⟨type, text', s'.line, offset'⟩, s') :=
  ⟨rfl, htext, .inr (by simp [hnl, h.line]), h⟩

theorem of_end (h : Alike w input m s s') (token token' : Option Token) :
    SameToken w input m (.eofToken, { s with token }) (.eofToken, { s' with token := token' }) :=
  ⟨rfl, rfl, .inl rfl, { h with }⟩

theorem setOffset {r r' : Token × CssLexer} (h : SameToken w input m r r') (offset offset' : Int) :
    SameToken w input m (r.1, { r.2 with offset }) (r'.1, { r'.2 with offset := offset' }) :=
  { h with alike := h.alike.setOffset offset offset' }

end SameToken

theorem lineEnds_readChar {c : CodeUnit} (hch : s.ch = some c) (hnl : nlChars c = false) :
    lineEnds s.readChar.rest = lineEnds s.rest := by
  rw [rest_readChar, rest_of_ch hch, lineEnds_cons hnl]

theorem sameToken_scanKeyword (hw : StartsSolid w) (h : Alike w input m s s')
    (hle : w.length ≤ s.scanKeyword.2.left) :
    SameToken w input m s.scanKeyword s'.scanKeyword := by
  have hkeyword := h.recognizeAll importantSym
  unfold scanKeyword at hle ⊢
  generalize recognizeAll importantSym s = r at hle hkeyword ⊢
  generalize recognizeAll importantSym s' = r' at hkeyword ⊢
  obtain ⟨accepted, t⟩ := r
  obtain ⟨accepted', t'⟩ := r'
  cases accepted with
  | true =>
    obtain ⟨rfl, halike⟩ := hkeyword hle
    exact (SameToken.of_alike halike (by simp) rfl).setOffset _ _
  | false =>
    simp only [Bool.false_eq_true] at hle ⊢
    have hreads := reads_skipWhile (fun c => c ≠ unit ';' ∧ c ≠ unit '}') t
    have hstops := skipWhile_stops (fun c => c ≠ unit ';' ∧ c ≠ unit '}') t
    have hskips := fun halike : Alike w input m t t' => halike.skipWhile (fun c => c ≠ unit ';' ∧ c ≠ unit '}') hw
    generalize t.skipWhile (fun c => c ≠ unit ';' ∧ c ≠ unit '}') = t₁ at hle hreads hstops hskips ⊢
    have hleft : w.length ≤ t₁.left := by
      by_cases hend : t₁.ch = none
      · simpa only [hend, ne_eq, not_true_eq_false, if_false] using hle
      · simp only [hend, ne_eq] at hle
        exact hle
    obtain ⟨rfl, halike⟩ := hkeyword (Nat.le_trans hleft hreads.left)
    have hskip := hskips halike hleft
    have hsame := hskip.ch_of_ne hw (fun hslash => absurd (hstops _ hslash) (by decide))
    simp only [Bool.false_eq_true, if_false]
    by_cases hend : t₁.ch = none
    · rw [if_neg (not_not.mpr hend), if_neg (not_not.mpr (hsame.trans hend))]
      exact SameToken.of_end hskip _ _
    · rw [if_pos hend, if_pos (hsame ▸ hend)]
      exact (SameToken.of_alike hskip (by simp) hskip.text).setOffset _ _

theorem sameToken_scanAfterBang (hw : StartsSolid w) (h : Alike w input m s s')
    (hle : w.length ≤ s.scanAfterBang.2.left) :
    SameToken w input m s.scanAfterBang s'.scanAfterBang := by
  fun_induction scanAfterBang s generalizing s' with
  | case1 s hch =>
    rw [scanAfterBang_of_end (h.ch_of_none hch)]
    exact .of_end h _ _
  | case2 s hstar hch ih =>
    have hafter := (returns_scanAfterBang s.readChar.skipComment).left
    obtain ⟨hch', hread⟩ := h.read hch (Nat.le_trans hafter (reads_skipComment s.readChar).left) hle
    have hstar' := (hread.ch_of_ne hw (by rw [hstar]; decide)).trans hstar
    rw [scanAfterBang_of_ch hch', if_pos rfl, if_pos hstar']
    exact ih (hread.skipComment (Nat.le_trans hle hafter)) hle
  | case3 s hstar hslash hch ih =>
    have hafter := (returns_scanAfterBang s.readChar.skipEOL).left
    obtain ⟨hch', hread⟩ := h.read hch (Nat.le_trans hafter (reads_skipEOL s.readChar).left) hle
    obtain ⟨hslash', heol⟩ := hread.skipEOL hw hslash (Nat.le_trans hle hafter)
    rw [scanAfterBang_of_ch hch', if_pos rfl, hslash', if_neg (by decide), if_pos rfl]
    exact ih heol hle
  | case4 s hstar hslash t text =>
    rename_i hch
    obtain ⟨hch', hread⟩ := h.read hch (Nat.le_refl _) hle
    have hsame := hread.ch_of_ne hw hslash
    have htext : s'.readChar.text ++ [unit '/', s'.readChar.ch.getD 0xFFFF] = text := by
      simp only [hread.text, hsame, text, t]
    rw [scanAfterBang_of_ch hch', if_pos rfl, if_neg (hsame ▸ hstar), if_neg (hsame ▸ hslash)]
    exact ⟨rfl, htext, .inr (by simpa [rest] using hread.line), { hread with text := htext }⟩
  | case5 s c hch hslash hws ih =>
    obtain ⟨hch', hread⟩ := h.read hch (returns_scanAfterBang s.readChar).left hle
    rw [scanAfterBang_of_ch hch', if_neg hslash, if_pos hws]
    exact ih hread hle
  | case6 s c hch hslash hws =>
    have hch' := (h.ch_of_ne hw (by rw [hch]; simpa using hslash)).trans hch
    rw [scanAfterBang_of_ch hch', if_neg hslash, if_neg hws]
    exact sameToken_scanKeyword hw h hle

theorem sameToken_last {c : CodeUnit} (h : Alike w input m s s') (hch : s.ch = some c) (hch' : s'.ch = some c)
    (hnl : nlChars c = false) {type : TokenType} {text text' : List CodeUnit} {offset offset' : Int}
    (htype : type ≠ .nl) (htext : text' = text) :
    SameToken w input m (⟨type, text, s.line, offset⟩, s.readChar)
      (⟨type, text', s'.line, offset'⟩, s'.readChar) := by
  refine ⟨rfl, htext, .inr ?_, h.readChar (hch'.trans hch.symm)⟩
  simp only [lineEnds_readChar hch hnl, htype, if_false, Int.add_zero]
  exact h.line

theorem sameToken_string {c : CodeUnit} (hquote : c = unit '"' ∨ c = unit '\'') (hw : StartsSolid w)
    (h : Alike w input m s s') (hch : s.ch = some c) (hle : w.length ≤ (s.scanSpecial c).2.left) :
    SameToken w input m (s.scanSpecial c) (s'.scanSpecial c) := by
  have hslash : c ≠ unit '/' := by rcases hquote with rfl | rfl <;> decide
  have hnl : nlChars c = false := by rcases hquote with rfl | rfl <;> decide
  have hch' := h.ch_of_ne hw (by rw [hch]; simpa using hslash)
  unfold scanSpecial at hle ⊢
  simp only [hquote, if_true] at hle ⊢
  have hends := ch_scanString c s.append
  have hstrings := (h.append hch').scanString hslash hw (by simp [append, hch])
  generalize s.append.scanString c = t at hle hends hstrings ⊢
  generalize s'.append.scanString c = t' at hstrings ⊢
  have hleft : w.length ≤ t.left := by
    split at hle
    · exact Nat.le_trans hle (Reads.readChar _).left
    · exact hle
  have halike := (hstrings hleft).2
  have hoffset := halike.setOffset t.pos t'.pos
  rcases hends with hend | hend
  · have hend' := halike.ch_of_none hend
    rw [if_neg (not_not.mpr hend), if_neg (not_not.mpr hend'), if_neg (not_not.mpr hend), if_neg (not_not.mpr hend')]
    exact .of_alike hoffset (by simp) halike.text
  · have hend' := (halike.ch_of_ne hw (by rw [hend]; simpa using hslash)).trans hend
    have hsome : ∀ {ch : Option CodeUnit}, ch = some c → ch ≠ none := fun heq => by simp [heq]
    rw [if_pos (hsome hend), if_pos (hsome hend'), if_pos (hsome hend), if_pos (hsome hend')]
    exact sameToken_last hoffset hend hend' hnl (by simp) halike.text

theorem sameToken_cr (hw : StartsSolid w) (h : Alike w input m s s') (hch : s.ch = some (unit '\r')) :
    SameToken w input m (s.scanSpecial (unit '\r')) (s'.scanSpecial (unit '\r')) := by
  have hch' := h.ch_of_ne hw (by rw [hch]; decide)
  have hread := h.readChar hch'
  have hquote : ¬ (unit '\r' = unit '"' ∨ unit '\r' = unit '\'') := by decide
  have hline := h.line
  rw [rest_of_ch hch] at hline
  unfold scanSpecial
  simp only [hquote, if_false]
  by_cases hlf : s.readChar.ch = some (unit '\n')
  · have hlf' := (hread.ch_of_ne hw (by rw [hlf]; decide)).trans hlf
    rw [if_pos hlf, if_pos hlf']
    refine ⟨rfl, rfl, .inr ?_, hread.readChar (hlf'.trans hlf.symm)⟩
    have hcount := hread.line
    rw [rest_of_ch hlf] at hcount
    simp only [lineEnds, true_or, if_true] at hcount
    simp only [rest_readChar, if_true]
    omega
  · rw [if_neg hlf, if_neg (fun hlf' => hlf (hread.ch_of_some hlf'))]
    refine ⟨rfl, rfl, .inr ?_, { hread with }⟩
    have hhead : s.reader.head? ≠ some (unit '\n') := hlf
    simp only [lineEnds, hhead, ne_eq, not_false_eq_true, and_true, or_true, if_true] at hline
    have hrest : ∀ token, rest { s.readChar with token } = s.reader := fun _ => rest_readChar s
    simp only [hrest, if_true]
    omega

theorem singleType_ne_nl (c : CodeUnit) : singleType c ≠ .nl := by
  unfold singleType
  cases hfind : singles.find? fun entry => unit entry.1 = c with
  | none => simp
  | some entry =>
    have hall : ∀ entry ∈ singles, entry.2 ≠ .nl := by decide
    exact hall entry (mem_of_find?_eq_some hfind)

theorem sameToken_scanSpecial {c : CodeUnit} (hw : StartsSolid w) (h : Alike w input m s s') (hch : s.ch = some c)
    (hslash : c ≠ unit '/') (hle : w.length ≤ (s.scanSpecial c).2.left) :
    SameToken w input m (s.scanSpecial c) (s'.scanSpecial c) := by
  have hch' := h.ch_of_ne hw (by rw [hch]; simpa using hslash)
  by_cases hquote : c = unit '"' ∨ c = unit '\''
  · exact sameToken_string hquote hw h hch hle
  by_cases hcr : c = unit '\r'
  · subst hcr
    exact sameToken_cr hw h hch
  unfold scanSpecial at hle ⊢
  simp only [hquote, hcr, if_false] at hle ⊢
  have hread := h.readChar hch'
  by_cases hlf : c = unit '\n'
  · subst hlf
    refine ⟨rfl, rfl, .inr ?_, hread⟩
    have hline := h.line
    rw [rest_of_ch hch] at hline
    simp only [lineEnds, true_or, if_true] at hline
    simp only [rest_readChar, if_true]
    omega
  simp only [hlf] at hle ⊢
  by_cases hbang : c = unit '!'
  · simp only [hbang] at hle ⊢
    exact sameToken_scanAfterBang hw ((h.append hch').readChar hch') hle
  · simp only [hbang]
    have hnl : nlChars c = false := by simp [nlChars, hcr, hlf]
    exact sameToken_last (h.setOffset s.pos s'.pos) hch (hch'.trans hch) hnl (singleType_ne_nl c) rfl

/-- What a state finds is neither white space nor a semicolon. -/
def Wordlike (type : TokenType) : Prop := type ≠ .nl ∧ type ≠ .ws ∧ type ≠ .semi

theorem wordlike_consumeUrl (s : CssLexer) : Wordlike s.consumeUrl.1 := by
  have hbad : ∀ t : CssLexer, Wordlike t.consumeBadUrl.1 := by
    intro t
    unfold consumeBadUrl
    simp only
    split <;> simp [Wordlike]
  unfold consumeUrl
  simp only
  split
  · simp [Wordlike]
  · next c _ =>
    have hbody := findsUrl_consumeUrlBody c ({ s with text := [] }.skipWhile wsChars)
    split
    · next type t hfound =>
      rw [hfound] at hbody
      obtain rfl : type = .url := Option.some.inj (hbody.2.resolve_left (by simp))
      simp [Wordlike]
    · exact hbad _

theorem wordlike_getType (s : CssLexer) : Wordlike s.getType.1 := by
  unfold getType
  split
  case h_5 =>
    split
    · exact wordlike_consumeUrl s
    · simp [Wordlike]
  case h_8 =>
    unfold UnitsState.getType
    split <;> simp [Wordlike]
  all_goals simp [Wordlike]

theorem init_of_type {s : CssLexer} (h : ¬ (s.getType.1 ≠ .invalid ∨ s.currentState ≠ .init)) :
    s.currentState = .init :=
  not_not.mp (not_or.mp h).2

namespace Alike

theorem enter (h : Alike w input m s s') (c : CodeUnit) (state : LexerState) :
    Alike w input (if state = .units then m.accept c else m) (s.enter c state) (s'.enter c state) :=
  { h with
    currentState := rfl
    unitsState := by simp [CssLexer.enter, h.unitsState]
    unitsState' := by simp [CssLexer.enter, h.unitsState'] }

theorem nextState (h : Alike w input m s s') (hch : s'.ch = s.ch) : s'.nextState = s.nextState := by
  simp [CssLexer.nextState, hch, h.currentState]

theorem nextState_of_none (h : Alike w input m s s') (hw : StartsSolid w) (hnext : s.nextState = none) :
    s'.nextState = none := by
  rcases h.ch hw with hsame | ⟨-, hnone, -⟩
  · rw [h.nextState hsame, hnext]
  · simp [CssLexer.nextState, hnone]

end Alike

theorem units_of_nextState {c : CodeUnit} {state : LexerState} (h : s.nextState = some (c, state))
    (hunits : s.currentState = .units) : state = .units := by
  obtain ⟨c', hch, hfind⟩ := Option.bind_eq_some_iff.mp h
  obtain ⟨state', hstate, heq⟩ := Option.map_eq_some_iff.mp hfind
  have hmem := mem_of_find?_eq_some hstate
  rw [hunits] at hmem
  rw [← (Prod.mk.inj heq).2]
  exact List.mem_singleton.mp hmem

theorem sameToken_getToken (hw : StartsSolid w) (h : Alike w input m s s') (hm : s.currentState ≠ .units → m = {})
    (hle : w.length ≤ s.getToken.2.left) : SameToken w input {} s.getToken s'.getToken := by
  fun_induction getToken s generalizing s' m with
  | case1 s c state hnext ih =>
    have hreads := (getsToken_getToken (s.enter c state).append.readChar).returns.left
    have hch := ch_of_nextState hnext
    obtain ⟨hch', htake⟩ := (h.enter c state).take hch hreads hle
    have hsame : s'.ch = s.ch := hch'.trans hch.symm
    rw [getToken_of_nextState ((h.nextState hsame).trans hnext)]
    refine ih htake (fun hne : state ≠ .units => ?_) hle
    rw [if_neg hne]
    exact hm (fun hunits => hne (units_of_nextState hnext hunits))
  | case2 s hnext htype =>
    obtain ⟨htype', halike⟩ := h.getType hw hle
    have hreset : (if s.currentState = .units then {} else m) = {} := by
      split
      · rfl
      · next hne => exact hm hne
    rw [hreset] at halike
    rw [getToken_of_type (h.nextState_of_none hw hnext) (by rwa [htype', h.currentState]), htype']
    exact (SameToken.of_alike halike (wordlike_getType s).1 halike.text).setOffset _ _
  | case3 s hnext htype hch =>
    obtain rfl := hm (by simp [init_of_type htype])
    have hinit' := h.currentState.trans (init_of_type htype)
    rw [getToken_of_end hinit' (h.ch_of_none hch)]
    exact .of_end h _ _
  | case4 s hnext htype hopen hmore hch ih =>
    obtain rfl := hm (by simp [init_of_type htype])
    have hinit' := h.currentState.trans (init_of_type htype)
    have hafter := (getsToken_getToken s.readChar.skipComment).returns.left
    obtain ⟨hch', hread⟩ := h.read hch (Nat.le_trans hafter (reads_skipComment s.readChar).left) hle
    have hopen' := (hread.ch_of_ne hw (by rw [hopen]; decide)).trans hopen
    have hcomment := hread.skipComment (Nat.le_trans hle hafter)
    have hinit := (reads_skipComment s.readChar).currentState.trans (init_of_type htype : s.currentState = .init)
    have hlt := (getsToken_getToken _).consumes hinit hmore
    have hsame := hcomment.ch_of_lt (Nat.lt_of_le_of_lt hle hlt)
    rw [getToken_of_ch (h.nextState_of_none hw hnext) hinit' hch', if_pos rfl, if_pos hopen', if_pos (hsame ▸ hmore)]
    exact ih hcomment (fun _ => rfl) hle
  | case5 s hnext htype hopen hend hch =>
    obtain rfl := hm (by simp [init_of_type htype])
    have hinit' := h.currentState.trans (init_of_type htype)
    obtain ⟨hch', hread⟩ := h.read hch (reads_skipComment s.readChar).left hle
    have hopen' := (hread.ch_of_ne hw (by rw [hopen]; decide)).trans hopen
    have hcomment := hread.skipComment hle
    have hend' := hcomment.ch_of_none (not_not.mp hend)
    rw [getToken_of_ch (h.nextState_of_none hw hnext) hinit' hch', if_pos hopen', if_neg (not_not.mpr hend')]
    exact .of_end hcomment _ _
  | case6 s hnext htype hopen hline hmore hch ih =>
    obtain rfl := hm (by simp [init_of_type htype])
    have hinit' := h.currentState.trans (init_of_type htype)
    have hafter := (getsToken_getToken s.readChar.skipEOL).returns.left
    obtain ⟨hch', hread⟩ := h.read hch (Nat.le_trans hafter (reads_skipEOL s.readChar).left) hle
    obtain ⟨hline', heol⟩ := hread.skipEOL hw hline (Nat.le_trans hle hafter)
    have hinit := (reads_skipEOL s.readChar).currentState.trans (init_of_type htype : s.currentState = .init)
    have hlt := (getsToken_getToken _).consumes hinit hmore
    have hsame := heol.ch_of_lt (Nat.lt_of_le_of_lt hle hlt)
    rw [getToken_of_ch (h.nextState_of_none hw hnext) hinit' hch', if_pos rfl, hline', if_neg (by decide),
      if_pos rfl, if_pos (hsame ▸ hmore)]
    exact ih heol (fun _ => rfl) hle
  | case7 s hnext htype hopen hline hend hch =>
    obtain rfl := hm (by simp [init_of_type htype])
    have hinit' := h.currentState.trans (init_of_type htype)
    obtain ⟨hch', hread⟩ := h.read hch (reads_skipEOL s.readChar).left hle
    obtain ⟨hline', heol⟩ := hread.skipEOL hw hline hle
    have hend' := heol.ch_of_none (not_not.mp hend)
    rw [getToken_of_ch (h.nextState_of_none hw hnext) hinit' hch', if_pos rfl, hline', if_neg (not_not.mpr hend')]
    exact .of_end heol _ _
  | case8 s hnext htype hopen hline t =>
    rename_i hch
    obtain rfl := hm (by simp [init_of_type htype])
    have hinit' := h.currentState.trans (init_of_type htype)
    obtain ⟨hch', hread⟩ := h.read hch (Nat.le_refl _) hle
    have hsame := hread.ch_of_ne hw hline
    rw [getToken_of_ch (h.nextState_of_none hw hnext) hinit' hch', if_pos rfl, if_neg (hsame ▸ hopen),
      if_neg (hsame ▸ hline)]
    exact (SameToken.of_alike hread (by simp) rfl).setOffset t.pos s'.readChar.pos
  | case9 s hnext htype c hch =>
    rename_i hslash
    obtain rfl := hm (by simp [init_of_type htype])
    have hinit' := h.currentState.trans (init_of_type htype)
    have hch' := (h.ch_of_ne hw (by rw [hch]; simpa using hslash)).trans hch
    rw [getToken_of_ch (h.nextState_of_none hw hnext) hinit' hch', if_neg hslash]
    exact sameToken_scanSpecial hw h hch hslash hle

theorem sameToken_getUnskipped (hw : StartsSolid w) (h : Alike w input {} s s')
    (hle : w.length ≤ s.getUnskipped.2.left) : SameToken w input {} s.getUnskipped s'.getUnskipped := by
  fun_induction getUnskipped s generalizing s' with
  | case1 s hskip ih =>
    have htoken := sameToken_getToken hw h (fun _ => rfl) (Nat.le_trans hle (getUnskipped_spec _).returns.left)
    have hskip' : Token.skipToken.equals s'.getToken.1 = true := by
      simpa only [Token.equals, htoken.type, htoken.text] using hskip
    rw [getUnskipped.eq_def s', if_pos hskip']
    exact ih htoken.alike hle
  | case2 s hskip =>
    have htoken := sameToken_getToken hw h (fun _ => rfl) hle
    have hskip' : ¬ Token.skipToken.equals s'.getToken.1 = true := by
      simpa only [Token.equals, htoken.type, htoken.text] using hskip
    rwa [getUnskipped.eq_def s', if_neg hskip']

theorem Ready.token_eq_none (h : s.Ready) (hch : s.ch ≠ none) : s.token = none :=
  h.token.resolve_right fun hend => hch hend.2

theorem nextToken_of_ch (h : s.Ready) (hch : s.ch ≠ none) :
    s.nextToken = (s.getUnskipped.1, { s.getUnskipped.2 with text := [], currentState := .init }) := by
  simp [nextToken, h.token_eq_none hch]

theorem nextToken_of_end (h : s.Ready) (hch : s.ch = none) :
    s.nextToken = (.eofToken, { s with token := some .eofToken, text := [], currentState := .init }) := by
  rcases h.token with hnone | ⟨heof, -⟩
  · have hget : s.getUnskipped = s.endOfInput := by
      rw [getUnskipped, getToken_of_end h.currentState hch]
      simp [endOfInput, Token.equals, Token.skipToken, Token.eofToken]
    simp only [nextToken, hnone, hget, endOfInput]
  · simp only [nextToken, heof, Token.eofToken, ne_eq, not_true_eq_false, if_false]

theorem sameToken_nextToken (hw : StartsSolid w) (h : Alike w input {} s s') (hs : s.Ready) (hs' : s'.Ready)
    (hle : w.length ≤ s.nextToken.2.left) : SameToken w input {} s.nextToken s'.nextToken := by
  by_cases hch : s.ch = none
  · rw [nextToken_of_end hs hch, nextToken_of_end hs' (h.ch_of_none hch)]
    exact ⟨rfl, rfl, .inl rfl, { h with text := rfl, currentState := rfl }⟩
  · have hleft := mt (left_eq_zero_iff hs.drained).mp hch
    have hlt := Nat.lt_of_le_of_lt hle ((nextToken_advances hs).consumes hleft)
    have hch' : s'.ch ≠ none := h.ch_of_lt hlt ▸ hch
    rw [nextToken_of_ch hs hch] at hle ⊢
    rw [nextToken_of_ch hs' hch']
    have hnext := sameToken_getUnskipped hw h hle
    exact { hnext with alike := { hnext.alike with text := rfl, currentState := rfl } }

end JavaFX.CssLexer
