/-
The lexer leaves comments out.

What a text is made of are the tokens that the lexer returns for it, up to the end of the
input and without white space.  A comment that stands where the lexer looks for a token
leaves them alone, but for two things.

  * The star that opens a block comment also counts as the one before the solidus that closes
    it, so `/*/` is a whole comment to the lexer, and what follows it in the comment is read
    as if it were not.  This does no harm if a comment begins there again.
  * A line comment ends at a line feed only.  What follows a carriage return is left out, too.
-/
import JavaFX.Proofs.Css.Lexemes
import Mathlib.Data.List.TakeWhile

namespace JavaFX.CssLexer

open Recognizer List

variable {s : CssLexer}

/-! ### What a text is made of -/

/-- The tokens up to the end of the input. -/
def tokensFrom (s : CssLexer) (h : s.Ready) : List Token :=
  if s.nextToken.1.type = .eof then []
  else s.nextToken.1 :: tokensFrom s.nextToken.2 (nextToken_advances h).ready
termination_by s.left
decreasing_by
  rename_i heof
  exact (nextToken_advances h).consumes (fun hzero => heof ((nextToken_advances h).atEnd hzero))

/-- White space that is a token. -/
def isBlank (tok : Token) : Bool := tok.type = .ws ∨ tok.type = .nl

/-- The type and the text of each token that is not white space. -/
def lexemes (s : CssLexer) (h : s.Ready) : List (TokenType × List CodeUnit) :=
  ((tokensFrom s h).filter fun tok => !isBlank tok).map fun tok => (tok.type, tok.text)

def lexemesOf (text : List CodeUnit) : List (TokenType × List CodeUnit) :=
  lexemes (setReader text) (ready_setReader text)

/-- Where the lexer looks for a token: at the beginning, after a token and after a comment. -/
inductive Starts (input : List CodeUnit) : CssLexer → Prop
  | reader : Starts input (setReader input)
  | token {s : CssLexer} : Starts input s → Starts input s.nextToken.2
  | block {s : CssLexer} : Starts input s → s.ch = some (unit '/') → s.readChar.ch = some (unit '*') →
      Starts input s.readChar.skipComment
  | line {s : CssLexer} : Starts input s → s.ch = some (unit '/') → s.readChar.ch = some (unit '/') →
      Starts input s.readChar.skipEOL

/-- The comment `c` stands between two tokens of a text. -/
def Placed (u c v : List CodeUnit) : Prop := ∃ s, Starts (u ++ c ++ v) s ∧ s.rest = c ++ v

/-! ### Comments -/

/-- The end of a line, or of the input. -/
inductive LineEnd
  | lf | cr | crlf | endOfInput
deriving DecidableEq

/-- The text `v` begins with the end of a line. -/
def LineEnd.Begins (e : LineEnd) (v : List CodeUnit) : Prop :=
  match e with
  | .lf => v.head? = some (unit '\n')
  | .cr => v.head? = some (unit '\r') ∧ v.tail.head? ≠ some (unit '\n')
  | .crlf => v.head? = some (unit '\r') ∧ v.tail.head? = some (unit '\n')
  | .endOfInput => v = []

/-- A comment.  That of a block ends where it is first closed, after its opening, and that of a
line goes up to the end of the line, which is not its own. -/
inductive Comment
  | block (body : List CodeUnit) (first : ¬ units "*/" <:+: body ++ units "*")
  | line (body : List CodeUnit) (single : ∀ c ∈ body, nlChars c = false) (lineEnd : LineEnd)

namespace Comment

def text : Comment → List CodeUnit
  | block body _ => units "/*" ++ body ++ units "*/"
  | line body _ _ => units "//" ++ body

/-- The text `v` can follow. -/
def Before (c : Comment) (v : List CodeUnit) : Prop :=
  match c with
  | block _ _ => True
  | line _ _ lineEnd => lineEnd.Begins v

/-- After white space and lines that are comments, a block comment begins. -/
inductive Reopens : List CodeUnit → Prop
  | block (text : List CodeUnit) : Reopens (unit '/' :: unit '*' :: text)
  | space {c : CodeUnit} {text : List CodeUnit} : wsChars c = true → Reopens text → Reopens (c :: text)
  | line {comment text : List CodeUnit} : unit '\n' ∉ comment → Reopens text →
      Reopens (unit '/' :: unit '/' :: (comment ++ unit '\n' :: text))

/-- The comment is not closed by its opening, or is opened again; its line does not end with a
carriage return alone. -/
def Clean : Comment → Prop
  | block body _ => body.head? = some (unit '/') → Reopens (body.tail ++ units "*/")
  | line _ _ lineEnd => lineEnd ≠ .cr

end Comment

/-- All lines of a text are counted once: the tokens say how many line ends there are up to
where they end, a new line in front of its own. -/
def LinesCounted (text : List CodeUnit) : Prop :=
  ∀ n, (after text (n + 1)).rest <:+ text ∧ Counted text (after text n).nextToken

/-! ### Lexers that look for a token -/

/-- The lexer looks for a token. -/
structure Fresh (input : List CodeUnit) (s : CssLexer) : Prop where
  ready : s.Ready
  text : s.text = []
  alike : Alike [] input {} s s

theorem startsSolid_nil : StartsSolid [] := by simp [StartsSolid]

theorem fresh_setReader (input : List CodeUnit) : Fresh input (setReader input) := by
  have hready := ready_setReader input
  refine ⟨hready, rfl, by simp, hready.drained, hready.drained, rfl, rfl, rfl, rfl, rfl, ?_, ?_⟩
  · simp only [rest_setReader, suffix_refl]
  · rw [rest_setReader]
    simp [setReader, readChar]

variable {input : List CodeUnit}

/-- A lexer can be compared with one that begins there. -/
theorem Fresh.alike_setReader (h : Fresh input s) : Alike [] input {} s (setReader s.rest) :=
  { h.alike with
    rest := by simp [rest_setReader]
    drained' := (ready_setReader s.rest).drained
    text := h.text.symm
    currentState := h.ready.currentState.symm
    unitsState' := rfl }

theorem Fresh.sameToken (h : Fresh input s) : SameToken [] input {} s.nextToken s.nextToken :=
  sameToken_nextToken startsSolid_nil h.alike h.ready h.ready (Nat.zero_le _)

theorem Fresh.nextToken (h : Fresh input s) : Fresh input s.nextToken.2 :=
  ⟨(nextToken_advances h.ready).ready, rfl, h.sameToken.alike⟩

theorem text_skipComment (s : CssLexer) : s.skipComment.text = s.text := by
  fun_induction CssLexer.skipComment s with
  | case1 s hch => rfl
  | case2 s hslash hch => rfl
  | case3 s hslash hch ih => exact ih
  | case4 s c hch hne ih => exact ih

theorem text_skipToEOL (lastc : Option CodeUnit) (s : CssLexer) : (s.skipToEOL lastc).text = s.text := by
  fun_induction CssLexer.skipToEOL lastc s with
  | case1 s hch => rfl
  | case2 s c hch hend => rfl
  | case3 s c hch hgo ih => exact ih

/-- A comment has been read from a state in which the lexer looks for a token. -/
theorem Fresh.of_reads {s' : CssLexer} (h : Fresh input s) (hch : s.ch ≠ none) (hreads : Reads s s')
    (htext : s'.text = s.text) (halike : Alike [] input {} s' s') : Fresh input s' :=
  ⟨⟨hreads.drained h.ready.drained, hreads.currentState.trans h.ready.currentState,
    .inl (hreads.token.trans (h.ready.token_eq_none hch))⟩, htext.trans h.text, halike⟩

theorem Fresh.skipComment (h : Fresh input s) (hch : s.ch = some (unit '/')) :
    Fresh input s.readChar.skipComment := by
  refine h.of_reads (by simp [hch]) ((Reads.readChar s).trans (reads_skipComment _)) (text_skipComment _) ?_
  exact (h.alike.readChar rfl).skipComment (Nat.zero_le _)

theorem Fresh.skipEOL (h : Fresh input s) (hch : s.ch = some (unit '/')) (hline : s.readChar.ch = some (unit '/')) :
    Fresh input s.readChar.skipEOL := by
  refine h.of_reads (by simp [hch]) ((Reads.readChar s).trans (reads_skipEOL _)) (text_skipToEOL _ _) ?_
  exact ((h.alike.readChar rfl).skipEOL startsSolid_nil hline (Nat.zero_le _)).2

theorem Starts.fresh {s : CssLexer} (h : Starts input s) : Fresh input s := by
  induction h with
  | reader => exact fresh_setReader input
  | token _ ih => exact ih.nextToken
  | block _ hch _ ih => exact ih.skipComment hch
  | line _ hch hline ih => exact ih.skipEOL hch hline

theorem starts_after (input : List CodeUnit) (n : Nat) : Starts input (after input n) := by
  induction n with
  | zero => exact .reader
  | succ n ih => exact .token ih

theorem linesCounted (text : List CodeUnit) : LinesCounted text := by
  intro n
  have hfresh := (starts_after text n).fresh
  exact ⟨hfresh.nextToken.alike.suffix, hfresh.sameToken.line⟩

/-! ### The lexemes of a text -/

/-- What a token adds to them. -/
def lexemesOfToken (tok : Token) : List (TokenType × List CodeUnit) :=
  if isBlank tok then [] else [(tok.type, tok.text)]

theorem lexemes_eq (h : s.Ready) : lexemes s h =
      if s.nextToken.1.type = .eof then []
      else lexemesOfToken s.nextToken.1 ++ lexemes s.nextToken.2 (nextToken_advances h).ready := by
  unfold lexemes
  rw [tokensFrom]
  split
  · rfl
  · cases hblank : isBlank s.nextToken.1 <;> simp [lexemesOfToken, hblank]

theorem lexemes_of_end (h : s.Ready) (hch : s.ch = none) : lexemes s h = [] := by
  rw [lexemes_eq, if_pos (by rw [nextToken_of_end h hch]; rfl)]

theorem lexemes_congr {s' : CssLexer} (h : s.Ready) (h' : s'.Ready) (heq : s'.nextToken = s.nextToken) :
    lexemes s' h' = lexemes s h := by
  have hrest : lexemes s'.nextToken.2 (nextToken_advances h').ready =
      lexemes s.nextToken.2 (nextToken_advances h).ready := by congr 1; rw [heq]
  rw [lexemes_eq h', lexemes_eq h, hrest, heq]

theorem lexemes_of_alike {s s' : CssLexer} (h : Alike [] input {} s s') (hs : s.Ready) (hs' : s'.Ready) :
    lexemes s' hs' = lexemes s hs := by
  have hnext := sameToken_nextToken startsSolid_nil h hs hs' (Nat.zero_le _)
  have htok : lexemesOfToken s'.nextToken.1 = lexemesOfToken s.nextToken.1 := by
    simp [lexemesOfToken, isBlank, hnext.type, hnext.text]
  rw [lexemes_eq hs', lexemes_eq hs, hnext.type, htok]
  split
  · rfl
  · next heof =>
    have hlt := (nextToken_advances hs).consumes (fun hzero => heof ((nextToken_advances hs).atEnd hzero))
    rw [lexemes_of_alike hnext.alike (nextToken_advances hs).ready (nextToken_advances hs').ready]
termination_by s.left

/-- The tokens of a lexer are those of the text it has left. -/
theorem Fresh.lexemes_eq (h : Fresh input s) : lexemes s h.ready = lexemesOf s.rest :=
  (lexemes_of_alike h.alike_setReader h.ready (ready_setReader s.rest)).symm

theorem lexemes_of_getToken {s s' : CssLexer} (h : s.Ready) (h' : s'.Ready) (hch : s.ch ≠ none)
    (hget : s.getToken = if s'.ch ≠ none then s'.getToken else s'.endOfInput) : lexemes s h = lexemes s' h' := by
  by_cases hend : s'.ch = none
  · rw [if_neg (not_not.mpr hend)] at hget
    have hunskipped : s.getUnskipped = s'.endOfInput := by
      rw [getUnskipped, hget]
      simp [endOfInput, Token.equals, Token.skipToken, Token.eofToken]
    rw [lexemes_of_end h' hend, lexemes_eq, if_pos]
    rw [nextToken_of_ch h hch, hunskipped]
    rfl
  · rw [if_pos hend] at hget
    refine lexemes_congr h' h ?_
    rw [nextToken_of_ch h hch, nextToken_of_ch h' hend, getUnskipped.eq_def s, getUnskipped.eq_def s', hget]

theorem nextState_solidus (hinit : s.currentState = .init) (hch : s.ch = some (unit '/')) : s.nextState = none := by
  have hfind : (LexerState.init.reachableStates.find? (·.recognizer (unit '/'))) = none := by decide
  simp [nextState, hch, hinit, hfind]

theorem Fresh.lexemes_skipComment (h : Fresh input s) (hch : s.ch = some (unit '/'))
    (hopen : s.readChar.ch = some (unit '*')) :
    lexemes s h.ready = lexemes s.readChar.skipComment (h.skipComment hch).ready := by
  refine lexemes_of_getToken _ _ (by simp [hch]) ?_
  have hinit := h.ready.currentState
  rw [getToken_of_ch (nextState_solidus hinit hch) hinit hch, if_pos rfl, if_pos hopen]

theorem Fresh.lexemes_skipEOL (h : Fresh input s) (hch : s.ch = some (unit '/'))
    (hline : s.readChar.ch = some (unit '/')) :
    lexemes s h.ready = lexemes s.readChar.skipEOL (h.skipEOL hch hline).ready := by
  refine lexemes_of_getToken _ _ (by simp [hch]) ?_
  have hinit := h.ready.currentState
  rw [getToken_of_ch (nextState_solidus hinit hch) hinit hch, if_pos rfl, hline, if_neg (by decide), if_pos rfl]

/-! ### The text before a comment -/

/-- A lexer before `w`, the one that reads the text without `w`, and what both have found. -/
structure Keeps (u w : List CodeUnit) (s s' : CssLexer) (found : List (TokenType × List CodeUnit)) : Prop where
  alike : Alike w (u ++ w) {} s s'
  fresh : Fresh (u ++ w) s
  fresh' : Fresh u s'
  whole : lexemesOf (u ++ w) = found ++ lexemes s fresh.ready
  before : lexemesOf u = found ++ lexemes s' fresh'.ready

variable {u w : List CodeUnit} {found : List (TokenType × List CodeUnit)}

theorem keeps_setReader (u w : List CodeUnit) : Keeps u w (setReader (u ++ w)) (setReader u) [] :=
  ⟨{ (fresh_setReader (u ++ w)).alike with
      rest := by rw [rest_setReader, rest_setReader]
      drained' := (ready_setReader u).drained
      text := rfl
      currentState := rfl
      unitsState' := rfl },
    fresh_setReader _, fresh_setReader _, rfl, rfl⟩

theorem Keeps.nextToken {s s' : CssLexer} (h : Keeps u w s s' found) (hw : StartsSolid w) (hne : w ≠ [])
    (hle : w.length ≤ s.nextToken.2.left) :
    Keeps u w s.nextToken.2 s'.nextToken.2 (found ++ lexemesOfToken s.nextToken.1) := by
  have hnext := sameToken_nextToken hw h.alike h.fresh.ready h.fresh'.ready hle
  have hnot : s.nextToken.1.type ≠ .eof := by
    intro heof
    rw [(nextToken_advances h.fresh.ready).eof heof, Nat.le_zero, length_eq_zero_iff] at hle
    exact hne hle
  have htok : lexemesOfToken s'.nextToken.1 = lexemesOfToken s.nextToken.1 := by
    simp [lexemesOfToken, isBlank, hnext.type, hnext.text]
  refine ⟨hnext.alike, h.fresh.nextToken, h.fresh'.nextToken, ?_, ?_⟩
  · rw [h.whole, lexemes_eq, if_neg hnot, append_assoc]
  · rw [h.before, lexemes_eq, hnext.type, if_neg hnot, htok, append_assoc]

theorem Keeps.skipComment {s s' : CssLexer} (h : Keeps u w s s' found) (hw : StartsSolid w)
    (hch : s.ch = some (unit '/')) (hopen : s.readChar.ch = some (unit '*'))
    (hle : w.length ≤ s.readChar.skipComment.left) :
    Keeps u w s.readChar.skipComment s'.readChar.skipComment found := by
  obtain ⟨hch', hread⟩ := h.alike.read hch (reads_skipComment _).left hle
  have hopen' := (hread.ch_of_ne hw (by rw [hopen]; decide)).trans hopen
  refine ⟨hread.skipComment hle, h.fresh.skipComment hch, h.fresh'.skipComment hch', ?_, ?_⟩
  · rw [h.whole, h.fresh.lexemes_skipComment hch hopen]
  · rw [h.before, h.fresh'.lexemes_skipComment hch' hopen']

theorem Keeps.skipEOL {s s' : CssLexer} (h : Keeps u w s s' found) (hw : StartsSolid w)
    (hch : s.ch = some (unit '/')) (hline : s.readChar.ch = some (unit '/'))
    (hle : w.length ≤ s.readChar.skipEOL.left) : Keeps u w s.readChar.skipEOL s'.readChar.skipEOL found := by
  obtain ⟨hch', hread⟩ := h.alike.read hch (reads_skipEOL _).left hle
  obtain ⟨hline', heol⟩ := hread.skipEOL hw hline hle
  refine ⟨heol, h.fresh.skipEOL hch hline, h.fresh'.skipEOL hch' hline', ?_, ?_⟩
  · rw [h.whole, h.fresh.lexemes_skipEOL hch hline]
  · rw [h.before, h.fresh'.lexemes_skipEOL hch' hline']

theorem keeps_of_starts {s : CssLexer} (hw : StartsSolid w) (hne : w ≠ []) (h : Starts (u ++ w) s)
    (hle : w.length ≤ s.left) : ∃ s' found, Keeps u w s s' found := by
  induction h with
  | reader => exact ⟨_, _, keeps_setReader u w⟩
  | token hs ih =>
    obtain ⟨s', found, hkeeps⟩ := ih (Nat.le_trans hle (nextToken_advances hs.fresh.ready).left)
    exact ⟨_, _, hkeeps.nextToken hw hne hle⟩
  | block hs hch hopen ih =>
    obtain ⟨s', found, hkeeps⟩ := ih (Nat.le_trans hle ((Reads.readChar _).trans (reads_skipComment _)).left)
    exact ⟨_, _, hkeeps.skipComment hw hch hopen hle⟩
  | line hs hch hline ih =>
    obtain ⟨s', found, hkeeps⟩ := ih (Nat.le_trans hle ((Reads.readChar _).trans (reads_skipEOL _)).left)
    exact ⟨_, _, hkeeps.skipEOL hw hch hline hle⟩

/-- The tokens of a text are those up to a comment in it and those from the comment on. -/
theorem lexemesOf_placed {u c v : List CodeUnit} (hw : StartsSolid c) (hne : c ≠ []) (h : Placed u c v) :
    lexemesOf (u ++ c ++ v) = lexemesOf u ++ lexemesOf (c ++ v) := by
  obtain ⟨s, hs, hrest⟩ := h
  rw [append_assoc] at hs ⊢
  have hsolid : StartsSolid (c ++ v) := by
    intro d hd
    rw [head?_append_of_ne_nil c hne] at hd
    exact hw d hd
  obtain ⟨s', found, hkeeps⟩ := keeps_of_starts hsolid (by simp [hne]) hs (by rw [left_eq_length, hrest])
  have hnil : s'.rest = [] := by
    have := hkeeps.alike.rest
    rw [hrest] at this
    exact List.self_eq_append_left.mp this
  have hend := (rest_eq_nil_iff hkeeps.fresh'.ready.drained).mp hnil
  rw [hkeeps.whole, hkeeps.before, lexemes_of_end _ hend, hkeeps.fresh.lexemes_eq, hrest, append_nil]

/-! ### What is left after a comment -/

/-- What follows the first `*/` of a text. -/
def afterClose : List CodeUnit → List CodeUnit
  | [] => []
  | c :: text => if c = unit '*' ∧ text.head? = some (unit '/') then text.tail else afterClose text

theorem afterClose_cons {c : CodeUnit} {text : List CodeUnit} (h : ¬ (c = unit '*' ∧ text.head? = some (unit '/'))) :
    afterClose (c :: text) = afterClose text := by
  rw [afterClose, if_neg h]

theorem rest_skipComment (h : s.Drained) : s.skipComment.rest = afterClose s.rest := by
  fun_induction CssLexer.skipComment s with
  | case1 s hch =>
    rw [(rest_eq_nil_iff h).mpr hch]
    rfl
  | case2 s hslash hch =>
    rw [rest_of_ch hch, afterClose, if_pos ⟨rfl, hslash⟩]
    exact rest_readChar _
  | case3 s hslash hch ih =>
    rw [ih ((Reads.readChar s).drained h), rest_readChar, rest_of_ch hch, afterClose_cons]
    exact fun hclose => hslash hclose.2
  | case4 s c hch hne ih =>
    rw [ih ((Reads.readChar s).drained h), rest_readChar, rest_of_ch hch, afterClose_cons]
    exact fun hclose => hne hclose.1

theorem rest_skipToEOL (h : s.Drained) :
    (s.skipToEOL (some (unit '/'))).rest = s.rest.tail.dropWhile (· ≠ unit '\n') := by
  fun_induction CssLexer.skipToEOL (some (unit '/')) s with
  | case1 s hch =>
    rw [(rest_eq_nil_iff h).mpr hch]
    rfl
  | case2 s c hch hend =>
    have hnl : s.readChar.ch = some (unit '\n') := hend.resolve_right (fun hcr => absurd hcr.1 (by decide))
    have hrest := rest_of_ch hnl
    rw [rest_readChar] at hrest
    rw [rest_readChar, rest_of_ch hch, hrest]
    simp
  | case3 s c hch hgo ih =>
    rw [ih ((Reads.readChar s).drained h), rest_readChar, rest_of_ch hch]
    cases hreader : s.reader with
    | nil => rfl
    | cons d reader =>
      have hne : d ≠ unit '\n' := fun hnl => hgo (.inl (by simp [readChar, hreader, hnl]))
      simp [hne]

/-- The text is closed at its end, and not before. -/
def Closes (text : List CodeUnit) : Prop := ∀ v, afterClose (text ++ v) = v

theorem not_closes_nil : ¬ Closes [] := by
  intro h
  have := h [0]
  simp [afterClose] at this

theorem Closes.tail {c : CodeUnit} {text : List CodeUnit} (h : Closes (c :: text)) (hne : text ≠ [unit '/']) :
    Closes text := by
  intro v
  have hv := h v
  by_cases hclose : c = unit '*' ∧ (text ++ v).head? = some (unit '/')
  · rw [cons_append, afterClose, if_pos hclose] at hv
    have hlength := congrArg length hv
    cases text with
    | nil =>
      cases v with
      | nil => simp at hclose
      | cons d v => simp at hlength
    | cons d text =>
      obtain rfl : d = unit '/' := by simpa using hclose.2
      obtain rfl : text = [] := by simpa using hlength
      exact absurd rfl hne
  · rwa [cons_append, afterClose_cons hclose] at hv

theorem Closes.of_append (front : List CodeUnit) {text : List CodeUnit} (h : Closes (front ++ text))
    (hnil : text ≠ [])
    (hne : text ≠ [unit '/']) : Closes text := by
  induction front with
  | nil => exact h
  | cons c front ih =>
    refine ih (h.tail ?_)
    cases front with
    | nil => exact hne
    | cons d front => simp [hnil]

theorem closes_of_first {body : List CodeUnit} (h : ¬ units "*/" <:+: body ++ units "*") :
    Closes (body ++ units "*/") := by
  induction body with
  | nil => exact fun v => rfl
  | cons c body ih =>
    intro v
    have hbody := ih (fun hin => h (hin.trans (suffix_cons c _).isInfix)) v
    rw [cons_append, cons_append, afterClose_cons]
    · exact hbody
    · intro hclose
      obtain ⟨rfl, hslash⟩ := hclose
      apply h
      cases body with
      | nil =>
        have hstar : some (unit '*') = some (unit '/') := hslash
        exact absurd hstar (by decide)
      | cons d body =>
        obtain rfl : d = unit '/' := by simpa using hslash
        exact (prefix_append (units "*/") (body ++ units "*")).isInfix

/-! ### Texts that begin with what is left out -/

theorem lexemesOf_eq (text : List CodeUnit) : lexemesOf text =
      if (setReader text).nextToken.1.type = .eof then []
      else lexemesOfToken (setReader text).nextToken.1 ++ lexemesOf (setReader text).nextToken.2.rest := by
  rw [lexemesOf, lexemes_eq, (fresh_setReader text).nextToken.lexemes_eq]

theorem ch_setReader (c : CodeUnit) (text : List CodeUnit) : (setReader (c :: text)).ch = some c := rfl

section

variable (text : List CodeUnit)
include text

theorem lexemesOf_block : lexemesOf (unit '/' :: unit '*' :: text) = lexemesOf (afterClose (unit '*' :: text)) := by
  have hfresh := fresh_setReader (unit '/' :: unit '*' :: text)
  rw [lexemesOf, hfresh.lexemes_skipComment rfl rfl, (hfresh.skipComment rfl).lexemes_eq,
    rest_skipComment ((Reads.readChar _).drained hfresh.ready.drained)]
  rfl

theorem lexemesOf_line : lexemesOf (unit '/' :: unit '/' :: text) = lexemesOf (text.dropWhile (· ≠ unit '\n')) := by
  have hfresh := fresh_setReader (unit '/' :: unit '/' :: text)
  rw [lexemesOf, hfresh.lexemes_skipEOL rfl rfl, (hfresh.skipEOL rfl rfl).lexemes_eq]
  congr 1
  exact rest_skipToEOL ((Reads.readChar _).drained hfresh.ready.drained)

/-- The next token begins with a character that no state begins with. -/
theorem nextToken_special {c : CodeUnit}
    (hnext : LexerState.init.reachableStates.find? (·.recognizer c) = none) (hslash : c ≠ unit '/')
    (hskip : ((setReader (c :: text)).scanSpecial c).1.type ≠ .skip) :
    (setReader (c :: text)).nextToken.1 = ((setReader (c :: text)).scanSpecial c).1 ∧
      (setReader (c :: text)).nextToken.2.rest = ((setReader (c :: text)).scanSpecial c).2.rest := by
  have hready := ready_setReader (c :: text)
  have hget : (setReader (c :: text)).getToken = (setReader (c :: text)).scanSpecial c := by
    rw [getToken_of_ch (by simp [nextState, ch_setReader, hready.currentState, hnext]) rfl rfl, if_neg hslash]
  have hequals : ¬ Token.skipToken.equals ((setReader (c :: text)).scanSpecial c).1 = true := by
    simp only [Token.equals, decide_eq_true_eq]
    exact fun heq => hskip heq.1.symm
  have hunskipped : (setReader (c :: text)).getUnskipped = (setReader (c :: text)).scanSpecial c := by
    rw [getUnskipped, hget, if_neg hequals]
  rw [nextToken_of_ch hready (by simp [ch_setReader]), hunskipped]
  exact ⟨rfl, rfl⟩

theorem lexemesOf_blank {c : CodeUnit}
    (hnext : LexerState.init.reachableStates.find? (·.recognizer c) = none) (hslash : c ≠ unit '/')
    (hblank : ((setReader (c :: text)).scanSpecial c).1.type = .ws ∨
      ((setReader (c :: text)).scanSpecial c).1.type = .nl) :
    lexemesOf (c :: text) = lexemesOf ((setReader (c :: text)).scanSpecial c).2.rest := by
  have hne : ((setReader (c :: text)).scanSpecial c).1.type ≠ .skip ∧
      ((setReader (c :: text)).scanSpecial c).1.type ≠ .eof := by
    rcases hblank with h | h <;> simp [h]
  obtain ⟨htok, hrest⟩ := nextToken_special text hnext hslash hne.1
  rw [lexemesOf_eq, htok, if_neg hne.2, hrest, lexemesOfToken, if_pos (by simpa [isBlank] using hblank)]
  rfl

theorem lexemesOf_lf : lexemesOf (unit '\n' :: text) = lexemesOf text := by
  rw [lexemesOf_blank text (by decide) (by decide) (.inr rfl)]
  exact congrArg lexemesOf (rest_readChar _)

theorem lexemesOf_cr : lexemesOf (unit '\r' :: text) = lexemesOf text := by
  have htype : ((setReader (unit '\r' :: text)).scanSpecial (unit '\r')).1.type = .nl := by
    unfold scanSpecial
    rw [if_neg (by decide), if_pos rfl]
    simp only
    split <;> rfl
  have hrest : ((setReader (unit '\r' :: text)).scanSpecial (unit '\r')).2.rest =
      if text.head? = some (unit '\n') then text.tail else text := by
    unfold scanSpecial
    rw [if_neg (by decide), if_pos rfl]
    have hhead : (setReader (unit '\r' :: text)).readChar.ch = text.head? := rfl
    simp only [hhead]
    split
    · exact rest_readChar _
    · exact rest_readChar (setReader (unit '\r' :: text))
  rw [lexemesOf_blank text (by decide) (by decide) (.inr htype), hrest]
  split
  · next hlf =>
    obtain ⟨rest, rfl⟩ := List.head?_eq_some_iff.mp hlf
    exact (lexemesOf_lf rest).symm
  · rfl

end

theorem lexemesOf_space {c : CodeUnit} (h : wsChars c = true) (text : List CodeUnit) :
    lexemesOf (c :: text) = lexemesOf text := by
  have hsingle : ∀ d ∈ [' ', '\t', '\x0c'], lexemesOf (unit d :: text) = lexemesOf text := by
    intro d hd
    simp only [mem_cons, not_mem_nil, or_false] at hd
    rcases hd with rfl | rfl | rfl
    all_goals
      rw [lexemesOf_blank text (by decide) (by decide) (.inl rfl)]
      exact congrArg lexemesOf (rest_readChar _)
  simp only [wsChars, decide_eq_true_eq] at h
  rcases h with rfl | rfl | rfl | rfl | rfl
  · exact hsingle ' ' (by simp)
  · exact hsingle '\t' (by simp)
  · exact lexemesOf_cr text
  · exact lexemesOf_lf text
  · exact hsingle '\x0c' (by simp)

/-! ### Comments that are opened again -/

theorem dropWhile_line {comment : List CodeUnit} (h : unit '\n' ∉ comment) (text : List CodeUnit) :
    (comment ++ unit '\n' :: text).dropWhile (· ≠ unit '\n') = unit '\n' :: text := by
  induction comment with
  | nil => simp
  | cons c comment ih =>
    rw [mem_cons, not_or] at h
    simpa [Ne.symm h.1] using ih h.2

/-- What is opened again is closed where the comment ends. -/
theorem Comment.Reopens.lexemesOf_append {text : List CodeUnit} (h : Comment.Reopens text) (hcloses : Closes text)
    (v : List CodeUnit) : lexemesOf (text ++ v) = lexemesOf v := by
  induction h with
  | block text =>
    have hopened := hcloses v
    rw [cons_append, cons_append, lexemesOf_block]
    exact congrArg lexemesOf hopened
  | @space c text hspace _ ih =>
    have hstar : c ≠ unit '*' := by
      rintro rfl
      exact absurd hspace (by decide)
    rw [cons_append, lexemesOf_space hspace]
    refine ih (fun v => ?_)
    have hv := hcloses v
    rwa [cons_append, afterClose_cons (fun hclose => hstar hclose.1)] at hv
  | @line comment text hline _ ih =>
    have hlast : Closes (unit '\n' :: text) := by
      refine Closes.of_append (unit '/' :: unit '/' :: comment) hcloses (by simp) ?_
      exact fun heq => absurd (List.cons.inj heq).1 (by decide)
    rw [cons_append, cons_append, append_assoc, lexemesOf_line, cons_append, dropWhile_line hline, lexemesOf_lf]
    refine ih (fun v => ?_)
    have hv := hlast v
    rwa [cons_append] at hv

/-! ### Texts that begin with a token -/

theorem ne_init_of_reachable (state state' : LexerState) (h : state' ∈ state.reachableStates) : state' ≠ .init := by
  rintro rfl
  cases state <;> simp [LexerState.reachableStates] at h

theorem getToken_of_state (h : s.currentState ≠ .init) : ∃ t : CssLexer, s.getToken.1.type = t.getType.1 := by
  fun_induction getToken s with
  | case1 s c state hnext ih =>
    obtain ⟨c', -, hfind⟩ := Option.bind_eq_some_iff.mp hnext
    obtain ⟨state', hstate, heq⟩ := Option.map_eq_some_iff.mp hfind
    have hmem := mem_of_find?_eq_some hstate
    rw [(Prod.mk.inj heq).2] at hmem
    exact ih (ne_init_of_reachable _ _ hmem)
  | case2 s hnext htype => exact ⟨s, rfl⟩
  | case3 s hnext htype hch => exact absurd (init_of_type htype) h
  | case4 s hnext htype => exact absurd (init_of_type htype) h
  | case5 s hnext htype => exact absurd (init_of_type htype) h
  | case6 s hnext htype => exact absurd (init_of_type htype) h
  | case7 s hnext htype => exact absurd (init_of_type htype) h
  | case8 s hnext htype => exact absurd (init_of_type htype) h
  | case9 s hnext htype => exact absurd (init_of_type htype) h

theorem text_skipWhile (recognize : Recognizer) (s : CssLexer) : (s.skipWhile recognize).text = s.text := by
  fun_induction CssLexer.skipWhile recognize s with
  | case1 s c hch hrec ih => exact ih
  | case2 s c hch hrec => rfl
  | case3 s hch => rfl

theorem text_recognizeAll (recognizers : List Recognizer) (s : CssLexer) :
    s.text <+: (recognizeAll recognizers s).2.text := by
  have happend : s.text <+: s.append.readChar.text := prefix_append _ _
  induction recognizers generalizing s with
  | nil => exact prefix_refl _
  | cons recognize recognizers ih =>
    unfold recognizeAll
    split
    · exact happend.trans (ih _ (prefix_append _ _))
    · exact happend

/-- A token that is skipped has the text from the exclamation mark on. -/
def FromBang (s : CssLexer) (tok : Token) : Prop := Wordlike tok.type ∧ (tok.type = .skip → s.text <+: tok.text)

theorem fromBang_scanKeyword (s : CssLexer) : FromBang s s.scanKeyword.1 := by
  have htext := text_recognizeAll importantSym s
  unfold scanKeyword
  simp only
  split
  · simp [FromBang, Wordlike]
  · split
    · refine ⟨by simp [Wordlike], fun _ => ?_⟩
      rwa [text_skipWhile]
    · simp [FromBang, Wordlike, Token.eofToken]

theorem fromBang_scanAfterBang (s : CssLexer) : FromBang s s.scanAfterBang.1 := by
  fun_induction scanAfterBang s with
  | case1 s hch => simp [FromBang, Wordlike, Token.eofToken]
  | case2 s hstar hch ih => exact ⟨ih.1, fun hskip => text_skipComment s.readChar ▸ ih.2 hskip⟩
  | case3 s hstar hslash hch ih => exact ⟨ih.1, fun hskip => text_skipToEOL _ s.readChar ▸ ih.2 hskip⟩
  | case4 s hstar hslash t text => simp [FromBang, Wordlike]
  | case5 s c hch hslash hws ih => exact ⟨ih.1, ih.2⟩
  | case6 s c hch hslash hws => exact fromBang_scanKeyword s

theorem wordlike_singleType {c : CodeUnit} (hws : wsChars c = false) (hsemi : c ≠ unit ';') :
    Wordlike (singleType c) := by
  unfold singleType
  cases hfind : singles.find? fun entry => unit entry.1 = c with
  | none => simp [Wordlike]
  | some entry =>
    have hall : ∀ entry ∈ singles, Wordlike entry.2 ∨ wsChars (unit entry.1) ∨ unit entry.1 = unit ';' := by
      unfold Wordlike
      decide
    have hc : unit entry.1 = c := by simpa using find?_some hfind
    rcases hall entry (mem_of_find?_eq_some hfind) with hword | hbad | hbad
    · exact hword
    · simp [hc, hws] at hbad
    · exact absurd (hc ▸ hbad) hsemi

/-- What begins with neither white space, a semicolon nor a comment. -/
theorem wordlike_getToken {c : CodeUnit} (hinit : s.currentState = .init) (hch : s.ch = some c)
    (hws : wsChars c = false) (hsemi : c ≠ unit ';')
    (hcomment : c = unit '/' → s.readChar.ch ≠ some (unit '*') ∧ s.readChar.ch ≠ some (unit '/')) :
    Wordlike s.getToken.1.type ∧ (s.getToken.1.type = .skip → s.text ++ [unit '!'] <+: s.getToken.1.text) := by
  cases hnext : s.nextState with
  | some next =>
    obtain ⟨d, state⟩ := next
    obtain ⟨c', -, hfind⟩ := Option.bind_eq_some_iff.mp hnext
    obtain ⟨state', hstate, heq⟩ := Option.map_eq_some_iff.mp hfind
    have hmem := mem_of_find?_eq_some hstate
    rw [(Prod.mk.inj heq).2] at hmem
    obtain ⟨t, ht⟩ := getToken_of_state (s := (s.enter d state).append.readChar) (ne_init_of_reachable _ _ hmem)
    rw [getToken_of_nextState hnext, ht]
    exact ⟨wordlike_getType t, fun hskip => absurd hskip (finds_getType t).not_skip⟩
  | none =>
    rw [getToken_of_ch hnext hinit hch]
    by_cases hslash : c = unit '/'
    · rw [if_pos hslash, if_neg (hcomment hslash).1, if_neg (hcomment hslash).2]
      simp [Wordlike]
    rw [if_neg hslash]
    have hspace := hws
    simp only [wsChars, decide_eq_false_iff_not, not_or] at hspace
    unfold scanSpecial
    simp only [hspace, if_false]
    split
    · split <;> simp [Wordlike]
    split
    · next hbang =>
      have hfrom := fromBang_scanAfterBang s.append.readChar
      refine ⟨hfrom.1, fun hskip => ?_⟩
      have htext : s.append.readChar.text = s.text ++ [unit '!'] := by simp [append, readChar, hch, hbang]
      exact htext ▸ hfrom.2 hskip
    · refine ⟨wordlike_singleType hws hsemi, fun hskip => ?_⟩
      have hall : ∀ entry ∈ singles, entry.2 ≠ .skip := by decide
      unfold singleType at hskip
      cases hfind : singles.find? fun entry => unit entry.1 = c with
      | none => simp [hfind] at hskip
      | some entry =>
        rw [hfind] at hskip
        exact absurd hskip (hall entry (mem_of_find?_eq_some hfind))

theorem lexemesOf_word {c : CodeUnit} {text : List CodeUnit} (hws : wsChars c = false) (hsemi : c ≠ unit ';')
    (hcomment : c = unit '/' → text.head? ≠ some (unit '*') ∧ text.head? ≠ some (unit '/')) :
    lexemesOf (c :: text) ≠ [(.semi, units ";")] := by
  have hready := ready_setReader (c :: text)
  obtain ⟨hword, hskip⟩ := wordlike_getToken (s := setReader (c :: text)) rfl rfl hws hsemi hcomment
  have hequals : ¬ Token.skipToken.equals (setReader (c :: text)).getToken.1 = true := by
    simp only [Token.equals, decide_eq_true_eq]
    rintro ⟨htype, htext⟩
    obtain ⟨rest, hrest⟩ := hskip htype.symm
    rw [← htext] at hrest
    exact absurd (List.cons.inj hrest).1 (by decide)
  have htok : (setReader (c :: text)).nextToken.1 = (setReader (c :: text)).getToken.1 := by
    rw [nextToken_of_ch hready (by simp [ch_setReader]), getUnskipped, if_neg hequals]
  rw [lexemesOf_eq, htok]
  split
  · simp
  · have hblank : isBlank (setReader (c :: text)).getToken.1 = false := by simp [isBlank, hword.1, hword.2.1]
    simp only [lexemesOfToken, hblank]
    exact fun heq => hword.2.2 (Prod.mk.inj (List.cons.inj heq).1).1

/-! ### Comments that are not -/

theorem lexemesOf_nil : lexemesOf [] = [] := lexemes_of_end _ rfl

theorem lexemesOf_semi : lexemesOf (units ";") = [(.semi, units ";")] := by decide +kernel

theorem lexemesOf_name : lexemesOf (units "a") = [(.ident, units "a")] := by decide +kernel

theorem lexemesOf_semi_append (text : List CodeUnit) : lexemesOf (unit ';' :: text) ≠ [] := by
  have hspecial : ((setReader (unit ';' :: text)).scanSpecial (unit ';')).1.type = .semi := rfl
  have htok := (nextToken_special (c := unit ';') text (by decide) (by decide) (by rw [hspecial]; simp)).1
  rw [lexemesOf_eq, htok, if_neg (by rw [hspecial]; simp), lexemesOfToken, if_neg (by simp [isBlank, hspecial])]
  simp

theorem closes_tail_of_ne {c : CodeUnit} {text : List CodeUnit} (h : Closes (c :: text)) (hstar : c ≠ unit '*') :
    Closes text := by
  intro v
  have hv := h v
  rwa [cons_append, afterClose_cons (fun hclose => hstar hclose.1)] at hv

theorem exists_lexemesOf_ne {text : List CodeUnit} (hcloses : Closes text) (hnot : ¬ Comment.Reopens text) :
    ∃ v, lexemesOf (text ++ v) ≠ lexemesOf v := by
  match text with
  | [] => exact absurd hcloses not_closes_nil
  | c :: text =>
    by_cases hws : wsChars c = true
    · have hstar : c ≠ unit '*' := by
        rintro rfl
        exact absurd hws (by decide)
      obtain ⟨v, hv⟩ := exists_lexemesOf_ne (closes_tail_of_ne hcloses hstar) (fun h => hnot (.space hws h))
      exact ⟨v, by rwa [cons_append, lexemesOf_space hws]⟩
    by_cases hsemi : c = unit ';'
    · subst hsemi
      refine ⟨[], ?_⟩
      rw [lexemesOf_nil]
      exact lexemesOf_semi_append _
    by_cases hline : c = unit '/' ∧ text.head? = some (unit '/')
    · obtain ⟨rfl, hslash⟩ := hline
      obtain ⟨text, rfl⟩ := List.head?_eq_some_iff.mp hslash
      by_cases hlf : unit '\n' ∈ text
      · obtain ⟨comment, rest, rfl, hfirst⟩ := eq_append_cons_of_mem hlf
        have hlast : Closes (unit '\n' :: rest) := by
          refine Closes.of_append (unit '/' :: unit '/' :: comment) hcloses (by simp) ?_
          exact fun heq => absurd (List.cons.inj heq).1 (by decide)
        obtain ⟨v, hv⟩ := exists_lexemesOf_ne (closes_tail_of_ne hlast (by decide)) (fun h => hnot (.line hfirst h))
        refine ⟨v, ?_⟩
        rwa [cons_append, cons_append, append_assoc, lexemesOf_line, cons_append, dropWhile_line hfirst, lexemesOf_lf]
      · refine ⟨units "a", ?_⟩
        have hdrop : (text ++ units "a").dropWhile (· ≠ unit '\n') = [] := by
          rw [dropWhile_eq_nil_iff]
          intro d hd
          rcases List.mem_append.mp hd with hd | hd
          · simpa using fun heq : d = unit '\n' => hlf (heq ▸ hd)
          · obtain rfl : d = unit 'a' := List.mem_singleton.mp hd
            decide
        rw [cons_append, cons_append, lexemesOf_line, hdrop, lexemesOf_nil, lexemesOf_name]
        simp
    · refine ⟨units ";", ?_⟩
      rw [lexemesOf_semi]
      refine lexemesOf_word (by simpa using hws) hsemi ?_
      rintro rfl
      cases text with
      | nil => exact ⟨by decide, by decide⟩
      | cons d text =>
        refine ⟨fun hstar => ?_, fun hslash => hline ⟨rfl, hslash⟩⟩
        obtain rfl : d = unit '*' := Option.some.inj hstar
        exact hnot (.block text)
termination_by text.length

/-! ### The comments that are left out -/

/-- A comment is left out wherever it stands if it is left out before every text it can stand
before. -/
theorem transparent_iff (c : Comment) :
    (∀ u v, c.Before v → Placed u c.text v → lexemesOf (u ++ c.text ++ v) = lexemesOf u ++ lexemesOf v) ↔
      ∀ v, c.Before v → lexemesOf (c.text ++ v) = lexemesOf v := by
  have hsolid : StartsSolid c.text ∧ c.text ≠ [] := by
    cases c <;> simp [StartsSolid, Comment.text, units]
  refine ⟨fun h v hbefore => ?_, fun h u v hbefore hplaced => ?_⟩
  · have hplaced : Placed [] c.text v := ⟨_, .reader, rest_setReader _⟩
    simpa [lexemesOf_nil] using h [] v hbefore hplaced
  · rw [lexemesOf_placed hsolid.1 hsolid.2 hplaced, h v hbefore]

theorem lexemesOf_block_comment {body : List CodeUnit} (first : ¬ units "*/" <:+: body ++ units "*")
    (v : List CodeUnit) :
    lexemesOf ((Comment.block body first).text ++ v) =
      if body.head? = some (unit '/') then lexemesOf (body.tail ++ units "*/" ++ v) else lexemesOf v := by
  have htext : (Comment.block body first).text ++ v = unit '/' :: unit '*' :: (body ++ units "*/" ++ v) := by
    simp [Comment.text, units]
  rw [htext, lexemesOf_block]
  split
  · next hslash =>
    obtain ⟨body, rfl⟩ := List.head?_eq_some_iff.mp hslash
    rfl
  · next hslash =>
    rw [afterClose_cons]
    · exact congrArg lexemesOf (closes_of_first first v)
    · rintro ⟨-, hhead⟩
      cases body with
      | nil =>
        have hstar : some (unit '*') = some (unit '/') := hhead
        exact absurd hstar (by decide)
      | cons d body => exact hslash hhead

theorem lexemesOf_line_comment {body : List CodeUnit} (single : ∀ c ∈ body, nlChars c = false) (lineEnd : LineEnd)
    (v : List CodeUnit) :
    lexemesOf ((Comment.line body single lineEnd).text ++ v) = lexemesOf (v.dropWhile (· ≠ unit '\n')) := by
  have htext : (Comment.line body single lineEnd).text ++ v = unit '/' :: unit '/' :: (body ++ v) := by
    simp [Comment.text, units]
  have hbody : ∀ c ∈ body, decide (c ≠ unit '\n') = true := by
    intro c hc
    have hnl := single c hc
    simp only [nlChars, decide_eq_false_iff_not, not_or] at hnl
    simpa using hnl.2
  rw [htext, lexemesOf_line, dropWhile_append_of_pos hbody]

theorem block_left_out_iff {body : List CodeUnit} (first : ¬ units "*/" <:+: body ++ units "*") :
    (∀ v, lexemesOf ((Comment.block body first).text ++ v) = lexemesOf v) ↔ (Comment.block body first).Clean := by
  by_cases hslash : body.head? = some (unit '/')
  · obtain ⟨body, rfl⟩ := List.head?_eq_some_iff.mp hslash
    have hfirst : ¬ units "*/" <:+: body ++ units "*" :=
      fun hin => first (hin.trans (suffix_cons _ _).isInfix)
    have hcloses := closes_of_first hfirst
    simp only [lexemesOf_block_comment, hslash, Comment.Clean, forall_const]
    refine ⟨fun h => ?_, fun h v => h.lexemesOf_append hcloses v⟩
    refine Classical.byContradiction fun hnot => ?_
    obtain ⟨v, hv⟩ := exists_lexemesOf_ne hcloses hnot
    exact hv (h v)
  · simp [lexemesOf_block_comment, hslash, Comment.Clean]

/-- A line comment is left out before every end of its line. -/
theorem line_left_out_iff {body : List CodeUnit} (single : ∀ c ∈ body, nlChars c = false) (lineEnd : LineEnd) :
    (∀ v, lineEnd.Begins v → lexemesOf ((Comment.line body single lineEnd).text ++ v) = lexemesOf v) ↔
      lineEnd ≠ .cr := by
  simp only [lexemesOf_line_comment]
  cases lineEnd with
  | lf =>
    simp only [ne_eq, reduceCtorEq, not_false_eq_true, iff_true]
    intro v hv
    obtain ⟨v, rfl⟩ := List.head?_eq_some_iff.mp hv
    simp
  | crlf =>
    simp only [ne_eq, reduceCtorEq, not_false_eq_true, iff_true]
    rintro v ⟨hcr, hlf⟩
    obtain ⟨v, rfl⟩ := List.head?_eq_some_iff.mp hcr
    obtain ⟨v, rfl⟩ := List.head?_eq_some_iff.mp hlf
    have hdrop : (unit '\r' :: unit '\n' :: v).dropWhile (· ≠ unit '\n') = unit '\n' :: v :=
      @dropWhile_line [unit '\r'] (by decide) v
    rw [hdrop, lexemesOf_cr]
  | endOfInput =>
    simp only [ne_eq, reduceCtorEq, not_false_eq_true, iff_true]
    rintro v rfl
    rfl
  | cr =>
    simp only [ne_eq, not_true_eq_false, iff_false]
    intro h
    have hname := h (units "\ra") ⟨by decide, by decide⟩
    rw [show (units "\ra").dropWhile (· ≠ unit '\n') = [] by decide, lexemesOf_nil] at hname
    have hcr : lexemesOf (units "\ra") = lexemesOf (units "a") := lexemesOf_cr (units "a")
    rw [hcr, lexemesOf_name] at hname
    simp at hname

/-- **Comments are left out**, exactly when they are clean: a comment that stands between two
tokens of a text leaves the tokens before and after it as they are, and the lines of the text
are counted, if and only if a block comment is not closed by its opening, or opened again where
it goes on, and the line of a line comment does not end with a carriage return alone. -/
theorem comments_transparent_iff (c : Comment) : (∀ u v, c.Before v → Placed u c.text v →
      lexemesOf (u ++ c.text ++ v) = lexemesOf u ++ lexemesOf v ∧ LinesCounted (u ++ c.text ++ v)) ↔ c.Clean := by
  simp only [linesCounted, and_true]
  rw [transparent_iff]
  cases c with
  | block body first =>
    rw [← block_left_out_iff first]
    exact ⟨fun h v => h v trivial, fun h v _ => h v⟩
  | line body single lineEnd => exact line_left_out_iff single lineEnd

/-- A block comment that is closed by its opening leaves its rest behind. -/
theorem not_transparent_closed : ¬ ∀ (c : Comment) (u v : List CodeUnit), c.Before v → Placed u c.text v →
      lexemesOf (u ++ c.text ++ v) = lexemesOf u ++ lexemesOf v ∧ LinesCounted (u ++ c.text ++ v) := by
  intro h
  have hplaced : Placed [] (Comment.block (units "/ ") (by decide)).text [] := ⟨_, .reader, rest_setReader _⟩
  have hlexemes := (h (.block (units "/ ") (by decide)) [] [] trivial hplaced).1
  exact absurd hlexemes (by decide +kernel)

end JavaFX.CssLexer
