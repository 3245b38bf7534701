/-
Reading back what was written.

A token is read back where it stands.  In the text of a tree an operand stands where one is
expected, and it is followed by the end of the text, by white space, by an operator or by the end
of a group.  So the text of a tree is processed as its tokens are, and the tree comes back if the
tokens give it back.
-/
import JavaFX.Proofs.Fxml.ExpressionParser.Text

namespace JavaFX

open List

namespace ExpressionParser

variable {D : Type} {chars : CharacterClasses D}

/-! ### Tokens -/

def keywords : List (List Nat) := [nullKeyword, trueKeyword, falseKeyword]

/-- The token is read where its text is followed by the rest. -/
def Reads (chars : CharacterClasses D) (unary : Bool) (token : Token D) (text rest : List Nat) : Prop :=
  ∃ c reader, text ++ rest = c :: reader ∧ chars.isWhitespace c = false ∧
    ∀ buffer : List Nat, buffer.length = 6 → ∃ buffer', buffer'.length = 6 ∧
      readToken chars unary c reader buffer = .ok (token, rest, buffer')

variable {c : Nat} {buffer : List Nat} {names : KeyPath (List Nat)}

theorem digit_false (h : chars.isJavaIdentifierStart c = true) : chars.isDigit c = false := by
  cases hd : chars.isDigit c with
  | false => rfl
  | true => rw [chars.digit_not_start c hd] at h; cases h

theorem readKeywordOrPath_found (chars : CharacterClasses D) (keyword : List Nat) (value : Literal D)
    (rest : List Nat) (hbuffer : buffer.length = 6) :
    ∃ buffer', buffer'.length = 6 ∧ readKeywordOrPath chars keyword value (keyword ++ rest) buffer
        = .ok (.literal value, rest, buffer') := by
  obtain ⟨buffer', heq, hlength⟩ := readKeyword_found rest keyword 0 buffer
  refine ⟨buffer', hlength.trans hbuffer, ?_⟩
  rw [readKeywordOrPath, heq]

variable {rest : List Nat}

theorem readKeywordOrPath_path {keyword : List Nat} (hroom : keyword.length ≤ 6) (value : Literal D)
    {input : List Nat} {path : KeyPath (List Nat)} (hdiverges : Diverges keyword input)
    (hpath : parseKeyPath chars input = .ok (path, rest))
    (hbuffer : buffer.length = 6) :
    ∃ buffer', buffer'.length = 6 ∧
      readKeywordOrPath chars keyword value input buffer = .ok (.variable path, rest, buffer') := by
  obtain ⟨buffer', heq, hlength⟩ := readKeyword_given_back keyword 0 input buffer hdiverges (by omega)
  refine ⟨buffer', hlength.trans hbuffer, ?_⟩
  rw [readKeywordOrPath, heq]
  simp only [take_zero, nil_append]
  rw [hpath]

theorem reads_null (unary : Bool) (rest : List Nat) : Reads chars unary (.literal .null) nullKeyword rest := by
  refine ⟨unit 'n', _, rfl, whitespace_of_part (chars.part_of_start _
    (chars.start_of_letter _ (by decide))), fun buffer hbuffer => ?_⟩
  exact readKeywordOrPath_found chars nullKeyword .null rest hbuffer

theorem reads_true (unary : Bool) (rest : List Nat) :
    Reads chars unary (.literal (.boolean true)) trueKeyword rest := by
  have hstart := chars.start_of_letter (unit 't') (by decide)
  refine ⟨unit 't', _, rfl, whitespace_of_part (chars.part_of_start _ hstart), fun buffer hbuffer => ?_⟩
  obtain ⟨buffer', hlength, heq⟩ := readKeywordOrPath_found chars trueKeyword (.boolean true) rest hbuffer
  refine ⟨buffer', hlength, ?_⟩
  rw [readToken, digit_false hstart]
  exact heq

theorem reads_false (unary : Bool) (rest : List Nat) :
    Reads chars unary (.literal (.boolean false)) falseKeyword rest := by
  have hstart := chars.start_of_letter (unit 'f') (by decide)
  refine ⟨unit 'f', _, rfl, whitespace_of_part (chars.part_of_start _ hstart), fun buffer hbuffer => ?_⟩
  obtain ⟨buffer', hlength, heq⟩ := readKeywordOrPath_found chars falseKeyword (.boolean false) rest hbuffer
  refine ⟨buffer', hlength, ?_⟩
  rw [readToken, digit_false hstart]
  exact heq

theorem reads_long (unary : Bool) {n : Nat} (hn : n < 2 ^ 63)
    (hrest : EndsText chars rest) : Reads chars unary (.literal (.long n)) (decimal n) rest := by
  obtain ⟨c, cs, hdecimal⟩ := exists_cons_of_ne_nil (decimal_ne_nil n)
  obtain ⟨d, hd, rfl⟩ := decimal_digits n c (by simp [hdecimal])
  have hdigit := (chars.decimal d hd).1
  have hn' : unit '0' + d ≠ unit 'n' := by
    intro heq
    rw [heq, digit_false (chars.start_of_letter _ (by decide))] at hdigit
    cases hdigit
  have hquote : ¬ (unit '0' + d = unit '"' ∨ unit '0' + d = unit '\'') := by
    rintro (heq | heq)
    · rw [heq, (chars.punctuation_alone _ (by decide)).2] at hdigit
      cases hdigit
    · rw [heq, (chars.punctuation_alone _ (by decide)).2] at hdigit
      cases hdigit
  refine ⟨_, cs ++ rest, by rw [hdecimal]; rfl, whitespace_of_digit hdigit, fun buffer hbuffer => ?_⟩
  have hread := readNumber_decimal hn hrest
  rw [hdecimal, cons_append] at hread
  refine ⟨buffer, hbuffer, ?_⟩
  rw [readToken, if_neg hn', if_neg hquote, if_pos hdigit, hread]

theorem reads_string (unary : Bool) {quote : Nat} (hquote : quote = unit '"' ∨ quote = unit '\'')
    {cs text : List Nat} (h : SpellsString quote cs text) (rest : List Nat) :
    Reads chars unary (.literal (.string cs)) (quote :: (text ++ [quote])) rest := by
  have hmem : quote ∈ punctuation := by rcases hquote with rfl | rfl <;> decide
  have hn : quote ≠ unit 'n' := by rcases hquote with rfl | rfl <;> decide
  refine ⟨quote, text ++ quote :: rest, by simp, whitespace_of_punctuation hmem,
    fun buffer hbuffer => ⟨buffer, hbuffer, ?_⟩⟩
  rw [readToken, if_neg hn, if_pos hquote, readString_spec hquote h _ [] rest (by
    rw [length_append]; omega)]
  simp

/-- A keyword that does not begin the first name of a path is not found there. -/
theorem diverges_of_path {w : List Nat} (hrest : EndsText chars rest) (hkeyword : ∀ k ∈ keywords, ¬ k <+: w)
    (hend : names = [] → rest = [] → ∀ k ∈ keywords, ¬ w <+: k) :
    ∀ k ∈ keywords, Diverges k (joinDots (w :: names) ++ rest) := by
  intro k hk
  have hletters : ∀ k ∈ keywords, ∀ d ∈ k, d ∈ units ['a', 'e', 'f', 'l', 'n', 'r', 's', 't', 'u', 'E'] := by decide
  by_cases hne : names = []
  · subst hne
    refine diverges_of_name (hkeyword k hk) fun hprefix => ?_
    cases rest with
    | nil => exact absurd hprefix (hend rfl rfl k hk)
    | cons c rest =>
      refine ⟨c, rest, rfl, fun hmem => ?_⟩
      exact (hrest c rfl).ne_letter (hletters k hk c hmem) rfl
  · rw [joinDots_cons hne, append_assoc]
    refine diverges_of_name (hkeyword k hk) fun _ => ⟨_, _, rfl, fun hmem => ?_⟩
    have hdot : unit '.' ∉ units ['a', 'e', 'f', 'l', 'n', 'r', 's', 't', 'u', 'E'] := by decide
    exact hdot (hletters k hk _ hmem)

theorem reads_variable (unary : Bool) {w : List Nat}
    (hnames : ∀ v ∈ w :: names, IsName chars v) (hrest : EndsText chars rest)
    (hkeyword : ∀ k ∈ keywords, ¬ k <+: w)
    (hend : names = [] → rest = [] → ∀ k ∈ keywords, ¬ w <+: k) :
    Reads chars unary (.variable (w :: names)) (joinDots (w :: names)) rest := by
  have hpath := parseKeyPath_spec (cons_ne_nil w names) hnames hrest
  have hdiverges := diverges_of_path hrest hkeyword hend
  obtain ⟨c, cs, hw, hstart⟩ := (hnames w (by simp)).start
  have hpart := chars.part_of_start c hstart
  obtain ⟨reader, hinput⟩ : ∃ reader, joinDots (w :: names) ++ rest = c :: reader := by
    by_cases hne : names = []
    · exact ⟨cs ++ rest, by rw [hne, hw]; rfl⟩
    · exact ⟨cs ++ unit '.' :: joinDots names ++ rest, by rw [joinDots_cons hne, hw]; rfl⟩
  refine ⟨c, reader, hinput, whitespace_of_part hpart, fun buffer hbuffer => ?_⟩
  rw [hinput] at hpath hdiverges
  have hquote : ¬ (c = unit '"' ∨ c = unit '\'') := by
    rintro (heq | heq)
    · exact ne_of_part hpart (by decide) heq
    · exact ne_of_part hpart (by decide) heq
  unfold readToken
  rw [if_neg hquote, digit_false hstart]
  -- a name may begin like a keyword
  by_cases hn : c = unit 'n'
  · rw [if_pos hn]
    exact readKeywordOrPath_path (by decide) _ (hdiverges _ (by simp [keywords])) hpath hbuffer
  rw [if_neg hn]
  by_cases ht : c = unit 't'
  · rw [if_pos ht]
    exact readKeywordOrPath_path (by decide) _ (hdiverges _ (by simp [keywords])) hpath hbuffer
  rw [if_neg ht]
  by_cases hf : c = unit 'f'
  · rw [if_pos hf]
    exact readKeywordOrPath_path (by decide) _ (hdiverges _ (by simp [keywords])) hpath hbuffer
  rw [if_neg hf, if_pos hstart, hpath]
  exact ⟨buffer, hbuffer, rfl⟩

theorem reads_punctuation (hc : c ∈ punctuation) (hquote : c ≠ unit '"' ∧ c ≠ unit '\'')
    {unary : Bool} {token : Token D} {text : List Nat}
    (h : (if unary then readUnary c (text ++ rest) else readBinary c (text ++ rest))
      = .ok (token, rest)) : Reads chars unary token (c :: text) rest := by
  have hletter : ∀ c ∈ punctuation, c ≠ unit 'n' ∧ c ≠ unit 't' ∧ c ≠ unit 'f' := by decide
  obtain ⟨hn, ht, hf⟩ := hletter c hc
  obtain ⟨hpart, hdigit⟩ := chars.punctuation_alone c hc
  refine ⟨c, text ++ rest, rfl, whitespace_of_punctuation hc, fun buffer hbuffer => ?_⟩
  refine ⟨buffer, hbuffer, ?_⟩
  unfold readToken
  rw [if_neg hn, if_neg (fun h => h.elim hquote.1 hquote.2), hdigit, if_neg (by simp), if_neg ht,
    if_neg hf, start_false hpart, if_neg (by simp), h]

theorem reads_unaryOperator (operator : UnaryOperator) (rest : List Nat) :
    Reads chars true (.unaryOperator operator) (spellUnary operator) rest := by
  cases operator with
  | negate => exact reads_punctuation (by decide) (by decide) rfl
  | not => exact reads_punctuation (by decide) (by decide) rfl

/-- An operator that an equals sign would make another one. -/
theorem orEqual_without {with_ without : BinaryOperator} (h : rest.head? ≠ some (unit '=')) :
    orEqual with_ without rest = .ok ((.binaryOperator without : Token D), rest) := by
  cases rest with
  | nil => rfl
  | cons c rest =>
    rw [orEqual, if_neg]
    rintro rfl
    exact h rfl

theorem reads_binaryOperator (operator : BinaryOperator) (h : rest.head? ≠ some (unit '=')) :
    Reads chars false (.binaryOperator operator) (spellBinary operator) rest := by
  cases operator with
  | greaterThan => exact reads_punctuation (by decide) (by decide) (orEqual_without h)
  | lessThan => exact reads_punctuation (by decide) (by decide) (orEqual_without h)
  | _ => exact reads_punctuation (by decide) (by decide) rfl

end ExpressionParser
namespace ExpressionParser

variable {D : Type} {chars : CharacterClasses D}

/-! ### The order of the tokens -/

/-- The token begins an operand. -/
def Token.startsOperand : Token D → Bool
  | .binaryOperator _ => false
  | .endGroup => false
  | _ => true

/-- Operands begin where they are expected. -/
def Alternates : Bool → List (Token D) → Prop
  | _, [] => True
  | unary, token :: tokens => token.startsOperand = unary ∧ Alternates token.expectsOperand tokens

variable {tokens : List (Token D)} {token : Token D} {text rest : List Nat}

theorem alternates_grouped (group : Bool) {written : List (Token D)}
    (h : ∀ tokens, Alternates false tokens → Alternates true (written ++ tokens))
    (htokens : Alternates false tokens) :
    Alternates true (grouped group written ++ tokens) := by
  cases group with
  | false => exact h tokens htokens
  | true =>
    have hgroup : grouped true written ++ tokens
        = .beginGroup :: (written ++ (.endGroup :: tokens)) := by simp [grouped]
    rw [hgroup]
    exact ⟨rfl, h _ ⟨rfl, htokens⟩⟩

theorem alternates_write (e : Tree D) : ∀ tokens, Alternates false tokens → Alternates true (write e ++ tokens) := by
  induction e with
  | literal value => intro tokens h; exact ⟨rfl, h⟩
  | «variable» path => intro tokens h; exact ⟨rfl, h⟩
  | unary operator operand ih =>
    intro tokens h
    exact ⟨rfl, alternates_grouped _ ih h⟩
  | binary operator left right ihl ihr =>
    intro tokens h
    rw [write, append_assoc]
    exact alternates_grouped _ ihl ⟨rfl, alternates_grouped _ ihr h⟩

theorem Spells.ne_nil (h : Spells chars token text) : text ≠ [] := by
  cases h with
  | long n h => exact decimal_ne_nil n
  | «variable» hne h => exact joinDots_ne_nil hne h
  | unaryOperator operator => cases operator <;> decide
  | binaryOperator operator => cases operator <;> decide
  | string hquote h => simp
  | _ => decide

/-- Behind an operand there is white space, an operator or the end of a group. -/
theorem endsText_of_writes (h : Writes chars tokens text) (horder : Alternates false tokens) :
    EndsText chars text := by
  intro c hc
  cases h with
  | nil hblank => exact Or.inl (hblank c (mem_of_head? hc))
  | @cons token tokens blank text rest hblank htoken h =>
    cases blank with
    | cons b blank =>
      obtain rfl := Option.some.inj hc
      exact Or.inl (hblank b (by simp))
    | nil =>
      right
      have hstarts := horder.1
      cases htoken with
      | binaryOperator operator =>
        cases operator <;> (obtain rfl := Option.some.inj hc; decide)
      | endGroup =>
        obtain rfl := Option.some.inj hc
        decide
      | _ => cases hstarts

theorem ne_equals_of_writes (h : Writes chars tokens text) (horder : Alternates true tokens) :
    text.head? ≠ some (unit '=') := by
  intro hc
  have hblank_ne : ∀ c, chars.isWhitespace c = true → c ≠ unit '=' := by
    rintro c hw rfl
    exact (chars.whitespace_alone _ hw).2.2 (by decide)
  cases h with
  | nil hblank => exact hblank_ne _ (hblank _ (mem_of_head? hc)) rfl
  | @cons token tokens blank text rest hblank htoken h =>
    cases blank with
    | cons b blank => exact hblank_ne b (hblank b (by simp)) (Option.some.inj hc)
    | nil =>
      have hstarts := horder.1
      cases htoken with
      | null => cases hc
      | isTrue => cases hc
      | isFalse => cases hc
      | long n hn =>
        obtain ⟨c, cs, hdecimal⟩ := exists_cons_of_ne_nil (decimal_ne_nil n)
        obtain ⟨d, hd, hcd⟩ := decimal_digits n c (by simp [hdecimal])
        rw [hdecimal] at hc
        have heq : c = unit '=' := Option.some.inj hc
        have hdigit := (chars.decimal d hd).1
        rw [← hcd, heq, (chars.punctuation_alone _ (by decide)).2] at hdigit
        cases hdigit
      | string hquote hs =>
        have heq := Option.some.inj hc
        rcases hquote with rfl | rfl <;> cases heq
      | @«variable» names hne hnames =>
        obtain ⟨w, names, rfl⟩ := exists_cons_of_ne_nil hne
        obtain ⟨c, cs, rfl, hstart⟩ := (hnames w (by simp)).start
        have heq : c = unit '=' := by
          by_cases hnil : names = []
          · subst hnil
            exact Option.some.inj hc
          · rw [joinDots_cons hnil] at hc
            exact Option.some.inj hc
        exact ne_of_part (chars.part_of_start c hstart) (by decide) heq
      | unaryOperator operator => cases operator <;> cases hc
      | binaryOperator operator => cases hstarts
      | beginGroup => cases hc
      | endGroup => cases hstarts

/-! ### Names and keywords -/

/-- The token is not a path whose first name begins with a keyword. -/
def NoKeyword : Token D → Prop
  | .variable (w :: _) => ∀ k ∈ keywords, ¬ k <+: w
  | _ => True

/-- If the text ends with a name that could become a keyword, there is white space behind it. -/
def EndsSafely (chars : CharacterClasses D) (tokens : List (Token D)) (text : List Nat) : Prop :=
  ∀ w, tokens.getLast? = some (.variable [w]) → (∃ k ∈ keywords, w <+: k) →
    ∃ c, text.getLast? = some c ∧ chars.isWhitespace c = true

theorem Writes.ne_nil (h : Writes chars (token :: tokens) text) : text ≠ [] := by
  cases h with
  | @cons _ _ blank text rest hblank htoken h => simp [htoken.ne_nil]

theorem EndsSafely.tail (h : EndsSafely chars (token :: tokens) (text ++ rest)) (hw : Writes chars tokens rest) :
    EndsSafely chars tokens rest := by
  intro w hlast hk
  cases tokens with
  | nil => cases hlast
  | cons t ts =>
    obtain ⟨c, hc, hwhite⟩ := h w (by rw [getLast?_cons_cons]; exact hlast) hk
    refine ⟨c, ?_, hwhite⟩
    rwa [getLast?_append_of_ne_nil _ hw.ne_nil] at hc

theorem EndsSafely.of_append
    (h : EndsSafely chars tokens (text ++ rest)) (hne : rest ≠ []) : EndsSafely chars tokens rest := by
  intro w hlast hk
  obtain ⟨c, hc, hwhite⟩ := h w hlast hk
  refine ⟨c, ?_, hwhite⟩
  rwa [getLast?_append_of_ne_nil _ hne] at hc

theorem reads_of_writes (htoken : Spells chars token text) (h : Writes chars tokens rest)
    (horder : Alternates token.expectsOperand tokens) (hkeyword : NoKeyword token)
    (hend : EndsSafely chars (token :: tokens) (text ++ rest)) :
    Reads chars token.startsOperand token text rest := by
  cases htoken with
  | null => exact reads_null true rest
  | isTrue => exact reads_true true rest
  | isFalse => exact reads_false true rest
  | long n hn => exact reads_long true hn (endsText_of_writes h horder)
  | string hquote hs => exact reads_string true hquote hs rest
  | @«variable» names hne hnames =>
    obtain ⟨w, names, rfl⟩ := exists_cons_of_ne_nil hne
    refine reads_variable true hnames (endsText_of_writes h horder) hkeyword ?_
    rintro rfl rfl k hk hprefix
    -- the last character of a name is no white space
    have htokens : tokens = [] := by
      cases tokens with
      | nil => rfl
      | cons t ts => exact absurd rfl h.ne_nil
    subst htokens
    obtain ⟨c, hc, hwhite⟩ := hend w rfl ⟨k, hk, hprefix⟩
    rw [append_nil] at hc
    have hpart := (hnames w (by simp)).part c (mem_of_getLast? hc)
    rw [whitespace_of_part hpart] at hwhite
    cases hwhite
  | unaryOperator operator => exact reads_unaryOperator operator rest
  | binaryOperator operator => exact reads_binaryOperator operator (ne_equals_of_writes h horder)
  | beginGroup => exact reads_punctuation (by decide) (by decide) rfl
  | endGroup => exact reads_punctuation (by decide) (by decide) rfl

/-! ### The text of a tree -/

theorem tokenizeLoop_reads {unary : Bool} {blank : List Nat}
    (hblank : ∀ c ∈ blank, chars.isWhitespace c = true) (h : Reads chars unary token text rest)
    {buffer : List Nat} (hbuffer : buffer.length = 6) (rounds : Nat) (p : Postfix D) :
    ∃ buffer', buffer'.length = 6 ∧ tokenizeLoop chars (rounds + 1) unary (blank ++ (text ++ rest)) buffer p
        = match processToken token p with
          | .ok p => tokenizeLoop chars rounds token.expectsOperand rest buffer' p
          | .error e => .error e := by
  obtain ⟨c, reader, htext, hwhite, hread⟩ := h
  obtain ⟨buffer', hlength, hread⟩ := hread buffer hbuffer
  have hdrop : (blank ++ (text ++ rest)).dropWhile chars.isWhitespace = c :: reader := by
    rw [dropWhile_append_of_pos hblank, htext, dropWhile_cons_of_neg (by simp [hwhite])]
  refine ⟨buffer', hlength, ?_⟩
  rw [tokenizeLoop, hdrop]
  simp only
  rw [hread]
  simp only
  cases processToken token p with
  | error e => rfl
  | ok p => rfl

theorem tokenizeLoop_writes (h : Writes chars tokens text) : ∀ {unary : Bool} {rounds : Nat} {buffer : List Nat}
    (p : Postfix D), Alternates unary tokens → (∀ t ∈ tokens, NoKeyword t) →
    EndsSafely chars tokens text → buffer.length = 6 → tokens.length < rounds →
    tokenizeLoop chars rounds unary text buffer p = match processAll tokens p with
        | .ok p => .ok (p.1 ++ p.2)
        | .error e => .error e := by
  induction h with
  | @nil blank hblank =>
    intro unary rounds buffer p _ _ _ _ hrounds
    obtain ⟨n, rfl⟩ : ∃ n, rounds = n + 1 := ⟨rounds - 1, by omega⟩
    have hdrop : blank.dropWhile chars.isWhitespace = [] := by
      have happend : (blank ++ []).dropWhile chars.isWhitespace = [] :=
        dropWhile_append_of_pos hblank
      rwa [append_nil] at happend
    rw [tokenizeLoop, hdrop, processAll]
  | @cons token tokens blank text rest hblank htoken hrest ih =>
    intro unary rounds buffer p horder hkeyword hend hbuffer hrounds
    rw [length_cons] at hrounds
    obtain ⟨n, rfl⟩ : ∃ n, rounds = n + 1 := ⟨rounds - 1, by omega⟩
    obtain ⟨rfl, horder⟩ := horder
    have hsafe := hend.of_append (by simp [htoken.ne_nil])
    have hreads := reads_of_writes htoken hrest horder (hkeyword token (by simp)) hsafe
    obtain ⟨buffer', hlength, hround⟩ := tokenizeLoop_reads hblank hreads hbuffer n p
    rw [hround, processAll]
    cases processToken token p with
    | error e => rfl
    | ok p' =>
      exact ih p' horder (fun t ht => hkeyword t (mem_cons_of_mem token ht)) (hsafe.tail hrest) hlength (by omega)

end ExpressionParser
namespace ExpressionParser

variable {D : Type} {chars : CharacterClasses D}

/-! ### Names that begin with a keyword -/

def Token.isOperand : Token D → Bool
  | .literal _ => true
  | .variable _ => true
  | _ => false

/-- The literals and paths, in their order. -/
def operands (tokens : List (Token D)) : List (Token D) := tokens.filter Token.isOperand

theorem operands_append (ts ts' : List (Token D)) :
    operands (ts ++ ts') = operands ts ++ operands ts' := filter_append ts ts'

theorem operands_polish (e : Tree D) : operands (polish e) = operands (write e) := by
  have hgroup : ∀ (group : Bool) (ts : List (Token D)), operands (grouped group ts) = operands ts := by
    intro group ts
    cases group with
    | false => rfl
    | true => simp [grouped, operands, Token.isOperand]
  induction e with
  | literal value => rfl
  | «variable» path => rfl
  | unary operator operand ih =>
    show _ = operands (grouped _ (write operand))
    rw [polish, operands_append, ih, hgroup]
    exact append_nil _
  | binary operator left right ihl ihr =>
    rw [polish, write, operands_append, operands_append, operands_append, ihl, ihr, hgroup]
    show _ = _ ++ operands (grouped _ (write right))
    rw [hgroup]
    exact append_nil _

theorem operands_popOperators (priority : Nat) : ∀ (stack tokens : List (Token D)), operands stack = [] →
    operands (popOperators priority tokens stack).1 = operands tokens ∧
      operands (popOperators priority tokens stack).2 = [] := by
  intro stack
  induction stack with
  | nil => intro tokens _; exact ⟨rfl, rfl⟩
  | cons top stack ih =>
    intro tokens h
    have htop : operands [top] ++ operands stack = [] := by rwa [← operands_append]
    obtain ⟨htop, hstack⟩ := List.append_eq_nil_iff.mp htop
    have hstep := ih (tokens ++ [top]) hstack
    rw [operands_append, htop, append_nil] at hstep
    unfold popOperators
    split
    · split
      · exact hstep
      · exact ⟨rfl, h⟩
    · exact ⟨rfl, h⟩

theorem operands_popGroup : ∀ (stack tokens : List (Token D)) {p : Postfix D},
    operands stack = [] → popGroup tokens stack = .ok p →
    operands p.1 = operands tokens ∧ operands p.2 = [] := by
  intro stack
  induction stack with
  | nil => intro tokens p _ h; cases h
  | cons top stack ih =>
    intro tokens p hstack h
    have htop : operands [top] ++ operands stack = [] := by rwa [← operands_append]
    obtain ⟨htop, hstack⟩ := List.append_eq_nil_iff.mp htop
    unfold popGroup at h
    split at h
    · cases h
    · rename_i heq
      obtain ⟨-, rfl⟩ := List.cons.inj heq
      obtain rfl := Except.ok.inj h
      exact ⟨rfl, hstack⟩
    · rename_i heq
      obtain ⟨rfl, rfl⟩ := List.cons.inj heq
      obtain ⟨hp, hp'⟩ := ih _ hstack h
      rw [operands_append, htop, append_nil] at hp
      exact ⟨hp, hp'⟩

theorem operands_processToken {token : Token D} {p p' : Postfix D} (hstack : operands p.2 = [])
    (h : processToken token p = .ok p') :
    operands p'.1 = operands p.1 ++ operands [token] ∧ operands p'.2 = [] := by
  have hpush : ∀ (t : Token D) (priority : Nat), t.isOperand = false →
      operands (pushOperator t priority p).1 = operands p.1 ++ operands [t] ∧
        operands (pushOperator t priority p).2 = [] := by
    intro t priority ht
    obtain ⟨h1, h2⟩ := operands_popOperators priority p.2 p.1 hstack
    have hnil : operands [t] = [] := by simp [operands, ht]
    refine ⟨by rw [hnil, append_nil]; exact h1, ?_⟩
    show operands ([t] ++ _) = []
    rw [operands_append, hnil]
    exact h2
  cases token with
  | literal value =>
    obtain rfl := Except.ok.inj h
    exact ⟨operands_append _ _, hstack⟩
  | «variable» path =>
    obtain rfl := Except.ok.inj h
    exact ⟨operands_append _ _, hstack⟩
  | unaryOperator operator =>
    obtain rfl := Except.ok.inj h
    exact hpush _ _ rfl
  | binaryOperator operator =>
    obtain rfl := Except.ok.inj h
    exact hpush _ _ rfl
  | beginGroup =>
    obtain rfl := Except.ok.inj h
    exact ⟨(append_nil _).symm, hstack⟩
  | endGroup =>
    obtain ⟨h1, h2⟩ := operands_popGroup p.2 p.1 hstack h
    exact ⟨h1.trans (append_nil _).symm, h2⟩

/-- Whatever follows, the operands read so far come first. -/
theorem operands_tokenizeLoop : ∀ (rounds : Nat) {unary : Bool} {input buffer : List Nat}
    {p : Postfix D} {out : List (Token D)}, operands p.2 = [] →
    tokenizeLoop chars rounds unary input buffer p = .ok out → operands p.1 <+: operands out := by
  intro rounds
  induction rounds with
  | zero => intro unary input buffer p out _ h; cases h
  | succ rounds ih =>
    intro unary input buffer p out hstack h
    unfold tokenizeLoop at h
    split at h
    · obtain rfl := Except.ok.inj h
      rw [operands_append]
      exact prefix_append _ _
    · split at h
      · cases h
      · split at h
        · cases h
        · rename_i hprocess
          obtain ⟨hp, hp'⟩ := operands_processToken hstack hprocess
          have hrest := ih hp' h
          rw [hp] at hrest
          exact (prefix_append _ _).trans hrest

variable {k : List Nat}

theorem reads_keyword (chars : CharacterClasses D) (hk : k ∈ keywords) :
    ∃ value, ∀ unary tail, Reads chars unary (.literal value) k tail := by
  have hcases : k = nullKeyword ∨ k = trueKeyword ∨ k = falseKeyword := by
    simpa [keywords] using hk
  rcases hcases with rfl | rfl | rfl
  · exact ⟨_, reads_null⟩
  · exact ⟨_, reads_true⟩
  · exact ⟨_, reads_false⟩

variable {w : List Nat} {tokens : List (Token D)}

theorem joinDots_of_prefix (h : k <+: w) (names : KeyPath (List Nat))
    (rest : List Nat) : ∃ tail, joinDots (w :: names) ++ rest = k ++ tail := by
  obtain ⟨w', rfl⟩ := h
  by_cases hne : names = []
  · exact ⟨w' ++ rest, by rw [hne, joinDots, append_assoc]⟩
  · exact ⟨w' ++ unit '.' :: joinDots names ++ rest, by rw [joinDots_cons hne]; simp⟩

/-- A path whose first name begins with a keyword is not read back, at any place. -/
theorem operands_ne_of_keyword {text : List Nat}
    (h : Writes chars tokens text) : ∀ {unary : Bool} {rounds : Nat} {buffer : List Nat}
    {p : Postfix D} {out : List (Token D)}, Alternates unary tokens →
    (∃ t ∈ tokens, ¬ NoKeyword t) → EndsSafely chars tokens text → buffer.length = 6 →
    operands p.2 = [] → tokenizeLoop chars rounds unary text buffer p = .ok out →
    operands out ≠ operands p.1 ++ operands tokens := by
  induction h with
  | nil hblank =>
    intro unary rounds buffer p out _ hbad
    obtain ⟨t, ht, -⟩ := hbad
    cases ht
  | @cons token tokens blank text rest hblank htoken hrest ih =>
    intro unary rounds buffer p out horder hbad hend hbuffer hstack hrun
    obtain ⟨rfl, horder⟩ := horder
    have hsplit : operands (token :: tokens) = operands [token] ++ operands tokens :=
      operands_append [token] tokens
    cases rounds with
    | zero => cases hrun
    | succ rounds =>
      by_cases hkeyword : NoKeyword token
      · have hsafe := hend.of_append (by simp [htoken.ne_nil])
        have hreads := reads_of_writes htoken hrest horder hkeyword hsafe
        obtain ⟨buffer', hlength, hround⟩ := tokenizeLoop_reads hblank hreads hbuffer rounds p
        rw [hround] at hrun
        cases hprocess : processToken token p with
        | error e => rw [hprocess] at hrun; cases hrun
        | ok p' =>
          rw [hprocess] at hrun
          obtain ⟨hp, hp'⟩ := operands_processToken hstack hprocess
          obtain ⟨t, ht, hbad⟩ := hbad
          have hmem : t ∈ tokens := by
            rcases List.mem_cons.mp ht with rfl | ht
            · exact absurd hkeyword hbad
            · exact ht
          have hne := ih horder ⟨t, hmem, hbad⟩ (hsafe.tail hrest) hlength hp' hrun
          rwa [hp, append_assoc, ← hsplit] at hne
      · -- the keyword is taken for a literal
        obtain ⟨w, names, k, hk, hprefix, rfl⟩ : ∃ w names k, k ∈ keywords ∧ k <+: w ∧
            token = .variable (w :: names) := by
          cases token with
          | «variable» path =>
            cases path with
            | nil => exact absurd trivial hkeyword
            | cons w names =>
              by_contra hno
              exact hkeyword fun k hk hp => hno ⟨w, names, k, hk, hp, rfl⟩
          | _ => exact absurd trivial hkeyword
        have htext : text = joinDots (w :: names) := by
          cases htoken
          rfl
        obtain ⟨tail, htail⟩ := joinDots_of_prefix hprefix names rest
        obtain ⟨value, hreads⟩ := reads_keyword chars hk
        obtain ⟨buffer', -, hround⟩ := tokenizeLoop_reads hblank (hreads _ tail) hbuffer rounds p
        rw [htext, htail, hround] at hrun
        have hstack' : operands ((p.1 ++ [.literal value], p.2) : Postfix D).2 = [] := hstack
        have hfirst := operands_tokenizeLoop rounds hstack' hrun
        intro heq
        rw [heq, operands_append, prefix_append_right_inj] at hfirst
        cases (List.cons_prefix_cons.mp hfirst).1

/-! ### Trees and texts -/

/-- No path of the tree has a first name that begins with a keyword. -/
def KeywordFree : Tree D → Prop
  | .literal _ => True
  | .variable path => NoKeyword (.variable path : Token D)
  | .unary _ operand => KeywordFree operand
  | .binary _ left right => KeywordFree left ∧ KeywordFree right

theorem keywordFree_iff (e : Tree D) : KeywordFree e ↔ ∀ t ∈ write e, NoKeyword t := by
  have hgroup : ∀ (group : Bool) (ts : List (Token D)),
      (∀ t ∈ grouped group ts, NoKeyword t) ↔ ∀ t ∈ ts, NoKeyword t := by
    intro group ts
    cases group with
    | false => rfl
    | true =>
      rw [grouped, if_pos rfl, forall_mem_cons, forall_mem_append, forall_mem_singleton]
      exact ⟨fun h => h.2.1, fun h => ⟨trivial, h, trivial⟩⟩
  induction e with
  | literal value => exact ⟨fun _ t ht => List.mem_singleton.mp ht ▸ trivial, fun _ => trivial⟩
  | «variable» path =>
    rw [write, forall_mem_singleton]
    rfl
  | unary operator operand ih =>
    rw [write, forall_mem_cons, hgroup]
    exact ⟨fun h => ⟨trivial, ih.mp h⟩, fun h => ih.mpr h.2⟩
  | binary operator left right ihl ihr =>
    rw [write, forall_mem_append, forall_mem_cons, hgroup, hgroup]
    exact ⟨fun h => ⟨ihl.mp h.1, trivial, ihr.mp h.2⟩, fun h => ⟨ihl.mpr h.1, ihr.mpr h.2.2⟩⟩

theorem length_le_of_writes {text : List Nat} (h : Writes chars tokens text) : tokens.length ≤ text.length := by
  induction h with
  | nil hblank => simp
  | @cons token tokens blank text rest hblank htoken _ ih =>
    have hpos := List.length_pos_iff.mpr htoken.ne_nil
    simp only [length_cons, length_append]
    omega

/-- **Precedence.**  A tree, written as text with parentheses only where they are needed and with
any white space, and not ending in a name that could still become a keyword, is parsed back if
and only if no left operand ends in an open unary operator and no path begins with a keyword. -/
theorem parse_iff_good {e : Tree D} {text : List Nat} (htext : Writes chars (write e) text)
    (hend : EndsSafely chars (write e) text) :
    parse chars text = .ok e ↔ Good e ∧ KeywordFree e := by
  have horder : Alternates true (write e) := by
    have := alternates_write e [] trivial
    rwa [append_nil] at this
  have hbuffer : (replicate 6 0).length = 6 := rfl
  have hlength := length_le_of_writes htext
  by_cases hkeyword : KeywordFree e
  · have hloop := tokenizeLoop_writes htext ([], []) horder ((keywordFree_iff e).mp hkeyword) hend
      hbuffer (show (write e).length < 2 * text.length + 2 by omega)
    have hparse : parse chars text = parseTokens (write e) := by
      rw [parse, tokenize, hloop, parseTokens]
      cases processAll (write e) ([], []) with
      | ok p => rfl
      | error ex => rfl
    rw [hparse, parseTokens_iff_good]
    exact ⟨fun hgood => ⟨hgood, hkeyword⟩, fun h => h.1⟩
  · refine ⟨fun h => ?_, fun h => absurd h.2 hkeyword⟩
    have hbad : ∃ t ∈ write e, ¬ NoKeyword t := by
      by_contra hno
      refine hkeyword ((keywordFree_iff e).mpr fun t ht => ?_)
      by_contra hbad
      exact hno ⟨t, ht, hbad⟩
    unfold parse at h
    cases hrun : tokenize chars text with
    | error ex => rw [hrun] at h; cases h
    | ok out =>
      rw [hrun] at h
      refine absurd ?_ (operands_ne_of_keyword htext horder hbad hend hbuffer rfl hrun)
      rw [← polish_of_buildTree h, operands_polish]
      rfl

/-- The character classes of the first 128 characters. -/
def ascii : CharacterClasses Unit where
  isWhitespace c := c == 32 || (9 ≤ c && c ≤ 13)
  isDigit c := 48 ≤ c && c ≤ 57
  isJavaIdentifierStart c := (97 ≤ c && c ≤ 122) || (65 ≤ c && c ≤ 90) || c == 36 || c == 95
  isJavaIdentifierPart c :=
    (97 ≤ c && c ≤ 122) || (65 ≤ c && c ≤ 90) || c == 36 || c == 95 || (48 ≤ c && c ≤ 57)
  digit radix c :=
    if 48 ≤ c ∧ c ≤ 57 ∧ c < 48 + radix then some (c - 48)
    else if 97 ≤ c ∧ c < 87 + radix then some (c - 87) else none
  parseDouble _ := .ok ()
  part_of_start := by intro c h; simp at h ⊢; omega
  start_of_letter := by decide
  whitespace_alone := by
    intro c h
    refine ⟨by simp at h ⊢; omega, by simp at h ⊢; omega, ?_⟩
    have hbound : ∀ d ∈ punctuation, 33 ≤ d := by decide
    intro hc
    have := hbound c hc
    simp at h
    omega
  digit_not_start := by intro c h; simp at h ⊢; omega
  punctuation_alone := by decide
  decimal := by
    intro d hd
    have h0 : unit '0' = 48 := rfl
    rw [h0]
    refine ⟨by simp; omega, ?_⟩
    rw [if_pos ⟨by omega, by omega, by omega⟩]
    simp
  hexadecimal := by decide

theorem Writes.of_eq {token : Token D} (blank text rest : List Nat)
    {whole : List Nat} (heq : whole = blank ++ (text ++ rest))
    (hblank : ∀ c ∈ blank, chars.isWhitespace c = true) (htoken : Spells chars token text)
    (h : Writes chars tokens rest) : Writes chars (token :: tokens) whole :=
  heq ▸ .cons hblank htoken h

theorem ascii_isName (hw : w ≠ []) (h : ∀ c ∈ w, ascii.isJavaIdentifierStart c = true) : IsName ascii w := by
  obtain ⟨c, cs, rfl⟩ := exists_cons_of_ne_nil hw
  exact ⟨⟨c, cs, rfl, h c (by simp)⟩, fun d hd => ascii.part_of_start d (h d hd)⟩

theorem ascii_spells (hw : w ≠ [])
    (h : ∀ c ∈ w, ascii.isJavaIdentifierStart c = true) : Spells ascii (.variable [w]) w :=
  .variable (by simp) fun v hv => List.mem_singleton.mp hv ▸ ascii_isName hw h

/-- `nu * -b`, with a name that could become a keyword. -/
theorem parse_iff_good_product : parse ascii (units ['n', 'u', ' ', '*', ' ', '-', 'b'])
      = .ok (.binary .multiply (.variable [units ['n', 'u']]) (.unary .negate (.variable [units ['b']]))) := by
  refine (parse_iff_good ?_ ?_).mpr ⟨⟨trivial, trivial, Or.inr rfl⟩, ?_, ?_⟩
  · refine .of_eq [] (units ['n', 'u']) _ rfl (by simp) (ascii_spells (by decide) (by decide)) ?_
    refine .of_eq (units [' ']) (units ['*']) _ rfl (by decide) (.binaryOperator .multiply) ?_
    refine .of_eq (units [' ']) (units ['-']) _ rfl (by decide) (.unaryOperator .negate) ?_
    exact .of_eq [] (units ['b']) [] rfl (by simp) (ascii_spells (by decide) (by decide)) (.nil (by simp))
  · intro w hw hk
    have hlast : (some (.variable [units ['b']]) : Option (Token Unit)) = some (.variable [w]) := hw
    obtain rfl : units ['b'] = w := by simpa using hlast
    exact absurd hk (by decide)
  · show ∀ k ∈ keywords, ¬ k <+: units ['n', 'u']
    decide
  · show ∀ k ∈ keywords, ¬ k <+: units ['b']
    decide

/-- `-a+b` is parsed as `-(a+b)`: a unary operator stays on the stack. -/
theorem negation_of_sum : Writes ascii (write (.binary .add (.unary .negate (.variable [units ['a']]))
        (.variable [units ['b']]))) (units ['-', 'a', '+', 'b']) ∧
      parse ascii (units ['-', 'a', '+', 'b'])
        = .ok (.unary .negate (.binary .add (.variable [units ['a']]) (.variable [units ['b']]))) ∧
      parse ascii (units ['-', 'a', '+', 'b'])
        ≠ .ok (.binary .add (.unary .negate (.variable [units ['a']])) (.variable [units ['b']])) := by
  refine ⟨?_, rfl, fun h => ?_⟩
  · refine .of_eq [] (units ['-']) _ rfl (by simp) (.unaryOperator .negate) ?_
    refine .of_eq [] (units ['a']) _ rfl (by simp) (ascii_spells (by decide) (by decide)) ?_
    refine .of_eq [] (units ['+']) _ rfl (by simp) (.binaryOperator .add) ?_
    exact .of_eq [] (units ['b']) [] rfl (by simp) (ascii_spells (by decide) (by decide)) (.nil (by simp))
  · cases h

end ExpressionParser

end JavaFX
