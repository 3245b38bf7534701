/-
Texts and token lists.

A text spells a list of tokens if it consists of their spellings, with white space between them
where one likes.  Each spelling is read back as its token whatever comes behind it, as long as
that cannot be taken for a part of it.  For a key path there are two exceptions.  If its first
name begins with a keyword, the keyword is read and the rest of the name is left.  If the text
ends with a name that could still become a keyword, one character too many is given back.
-/
import JavaFX.Proofs.Fxml.ExpressionParser.Priorities

namespace JavaFX

open List

namespace ExpressionParser

variable {D : Type} {chars : CharacterClasses D}

/-! ### Spellings -/

/-- A decimal number. -/
def decimal (n : Nat) : List Nat :=
  if n < 10 then [unit '0' + n] else decimal (n / 10) ++ [unit '0' + n % 10]
termination_by n
decreasing_by omega

def hexDigit (d : Nat) : Nat := if d < 10 then unit '0' + d else unit 'a' + (d - 10)

/-- The four digits of a code unit. -/
def hexDigits (c : Nat) : List Nat :=
  [hexDigit (c / 4096 % 16), hexDigit (c / 256 % 16), hexDigit (c / 16 % 16), hexDigit (c % 16)]

/-- What may stand behind a backslash for a character. -/
inductive Escape : Nat → List Nat → Prop
  | backspace : Escape 8 [unit 'b']
  | formFeed : Escape 12 [unit 'f']
  | newline : Escape 10 [unit 'n']
  | carriageReturn : Escape 13 [unit 'r']
  | tab : Escape 9 [unit 't']
  | self (c : Nat) (h : c ∈ units ['\\', '/', '"', '\'']) : Escape c [c]
  | code (c : Nat) (h : c < 65536) : Escape c (unit 'u' :: hexDigits c)

/-- The characters of a string between two quotes. -/
inductive SpellsString (quote : Nat) : List Nat → List Nat → Prop
  | nil : SpellsString quote [] []
  | plain {c : Nat} {cs text : List Nat} (hcontrol : isISOControl c = false)
      (hbackslash : c ≠ unit '\\') (hquote : c ≠ quote) (h : SpellsString quote cs text) :
      SpellsString quote (c :: cs) (c :: text)
  | escaped {c : Nat} {cs escape text : List Nat} (hc : Escape c escape)
      (h : SpellsString quote cs text) :
      SpellsString quote (c :: cs) (unit '\\' :: (escape ++ text))

/-- A name that can stand in a key path without brackets. -/
structure IsName (chars : CharacterClasses D) (w : List Nat) : Prop where
  start : ∃ c rest, w = c :: rest ∧ chars.isJavaIdentifierStart c = true
  part : ∀ c ∈ w, chars.isJavaIdentifierPart c = true

/-- Names with dots between them. -/
def joinDots : KeyPath (List Nat) → List Nat
  | [] => []
  | [w] => w
  | w :: w' :: names => w ++ unit '.' :: joinDots (w' :: names)

def spellUnary : UnaryOperator → List Nat
  | .negate => units ['-']
  | .not => units ['!']

def spellBinary : BinaryOperator → List Nat
  | .multiply => units ['*']
  | .divide => units ['/']
  | .modulo => units ['%']
  | .add => units ['+']
  | .subtract => units ['-']
  | .greaterThan => units ['>']
  | .greaterThanOrEqualTo => units ['>', '=']
  | .lessThan => units ['<']
  | .lessThanOrEqualTo => units ['<', '=']
  | .equalTo => units ['=', '=']
  | .notEqualTo => units ['!', '=']
  | .and => units ['&', '&']
  | .or => units ['|', '|']

/-- The texts of a token. -/
inductive Spells (chars : CharacterClasses D) : Token D → List Nat → Prop
  | null : Spells chars (.literal .null) nullKeyword
  | isTrue : Spells chars (.literal (.boolean true)) trueKeyword
  | isFalse : Spells chars (.literal (.boolean false)) falseKeyword
  | long (n : Nat) (h : n < 2 ^ 63) : Spells chars (.literal (.long n)) (decimal n)
  | string {quote : Nat} {cs text : List Nat} (hquote : quote = unit '"' ∨ quote = unit '\'')
      (h : SpellsString quote cs text) :
      Spells chars (.literal (.string cs)) (quote :: (text ++ [quote]))
  | «variable» {names : KeyPath (List Nat)} (hne : names ≠ []) (h : ∀ w ∈ names, IsName chars w) :
      Spells chars (.variable names) (joinDots names)
  | unaryOperator (operator : UnaryOperator) :
      Spells chars (.unaryOperator operator) (spellUnary operator)
  | binaryOperator (operator : BinaryOperator) :
      Spells chars (.binaryOperator operator) (spellBinary operator)
  | beginGroup : Spells chars .beginGroup (units ['('])
  | endGroup : Spells chars .endGroup (units [')'])

/-- The texts of a list of tokens: white space may stand in front of each token and at the
end. -/
inductive Writes (chars : CharacterClasses D) : List (Token D) → List Nat → Prop
  | nil {blank : List Nat} (hblank : ∀ c ∈ blank, chars.isWhitespace c = true) : Writes chars [] blank
  | cons {token : Token D} {tokens : List (Token D)} {blank text rest : List Nat}
      (hblank : ∀ c ∈ blank, chars.isWhitespace c = true) (htoken : Spells chars token text)
      (h : Writes chars tokens rest) : Writes chars (token :: tokens) (blank ++ (text ++ rest))

/-! ### Character classes -/

/-- The characters that can follow an operand. -/
def following : List Nat :=
  units [')', '+', '-', '*', '/', '%', '=', '!', '<', '>', '&', '|']

/-- A character ends an operand. -/
def Ends (chars : CharacterClasses D) (c : Nat) : Prop :=
  chars.isWhitespace c = true ∨ c ∈ following

variable {c d : Nat}

theorem Ends.not_part (h : Ends chars c) : chars.isJavaIdentifierPart c = false := by
  rcases h with h | h
  · exact (chars.whitespace_alone c h).1
  · refine (chars.punctuation_alone c ?_).1
    revert c
    decide

theorem Ends.not_digit (h : Ends chars c) : chars.isDigit c = false := by
  rcases h with h | h
  · exact (chars.whitespace_alone c h).2.1
  · refine (chars.punctuation_alone c ?_).2
    revert c
    decide

theorem start_false (h : chars.isJavaIdentifierPart c = false) : chars.isJavaIdentifierStart c = false := by
  cases hs : chars.isJavaIdentifierStart c with
  | false => rfl
  | true => rw [chars.part_of_start c hs] at h; cases h

theorem Ends.ne_letter (h : Ends chars c)
    (hd : d ∈ units ['a', 'e', 'f', 'l', 'n', 'r', 's', 't', 'u', 'E']) : c ≠ d := by
  rintro rfl
  have hpart := chars.part_of_start c (chars.start_of_letter c hd)
  rw [h.not_part] at hpart
  cases hpart

theorem Ends.ne_of_mem (h : Ends chars c) (hd : d ∈ units ['.', '[']) : c ≠ d := by
  rintro rfl
  rcases h with h | h
  · have hp : ∀ d ∈ units ['.', '['], d ∈ punctuation := by decide
    exact (chars.whitespace_alone c h).2.2 (hp c hd)
  · have hp : ∀ d ∈ units ['.', '['], d ∉ following := by decide
    exact hp c hd h

theorem whitespace_of_part (h : chars.isJavaIdentifierPart c = true) : chars.isWhitespace c = false := by
  cases hw : chars.isWhitespace c with
  | false => rfl
  | true => rw [(chars.whitespace_alone c hw).1] at h; cases h

theorem whitespace_of_punctuation (h : c ∈ punctuation) : chars.isWhitespace c = false := by
  cases hw : chars.isWhitespace c with
  | false => rfl
  | true => exact absurd h (chars.whitespace_alone c hw).2.2

theorem whitespace_of_digit (h : chars.isDigit c = true) : chars.isWhitespace c = false := by
  cases hw : chars.isWhitespace c with
  | false => rfl
  | true => rw [(chars.whitespace_alone c hw).2.1] at h; cases h

/-- A part of a name is none of the characters of the grammar. -/
theorem ne_of_part (h : chars.isJavaIdentifierPart c = true) (hd : d ∈ punctuation) : c ≠ d := by
  rintro rfl
  rw [(chars.punctuation_alone c hd).1] at h
  cases h

/-! ### Numbers -/

/-- What stands behind an operand, if anything does. -/
def EndsText (chars : CharacterClasses D) (rest : List Nat) : Prop :=
  ∀ c, rest.head? = some c → Ends chars c

theorem takeWhile_of_head {p : Nat → Bool} {text rest : List Nat} (htext : ∀ c ∈ text, p c = true)
    (hrest : ∀ c, rest.head? = some c → p c = false) :
    (text ++ rest).takeWhile p = text ∧ (text ++ rest).dropWhile p = rest := by
  have htake : rest.takeWhile p = [] := by
    cases rest with
    | nil => rfl
    | cons c rest => exact takeWhile_cons_of_neg (by rw [hrest c rfl]; simp)
  have hdrop : rest.dropWhile p = rest := by
    cases rest with
    | nil => rfl
    | cons c rest => exact dropWhile_cons_of_neg (by rw [hrest c rfl]; simp)
  rw [takeWhile_append_of_pos htext, dropWhile_append_of_pos htext, htake, hdrop, append_nil]
  exact ⟨rfl, rfl⟩

theorem decimal_digits (n : Nat) : ∀ c ∈ decimal n, ∃ d, d < 10 ∧ c = unit '0' + d := by
  induction n using decimal.induct with
  | case1 n h =>
    rw [decimal, if_pos h]
    intro c hc
    exact ⟨n, h, List.mem_singleton.mp hc⟩
  | case2 n h ih =>
    rw [decimal, if_neg h]
    intro c hc
    rcases List.mem_append.mp hc with hc | hc
    · exact ih c hc
    · exact ⟨n % 10, Nat.mod_lt _ (by omega), List.mem_singleton.mp hc⟩

theorem decimal_ne_nil (n : Nat) : decimal n ≠ [] := by
  rw [decimal]
  split
  · simp
  · simp

theorem digitsValue_append (radix : Nat) : ∀ (a b : List Nat) (v : Nat), digitsValue chars radix v (a ++ b)
      = (digitsValue chars radix v a).bind fun v => digitsValue chars radix v b := by
  intro a
  induction a with
  | nil => intro b v; rfl
  | cons c a ih =>
    intro b v
    rw [cons_append, digitsValue, digitsValue]
    cases chars.digit radix c with
    | none => rfl
    | some d => exact ih b _

theorem digitsValue_decimal (n : Nat) : digitsValue chars 10 0 (decimal n) = some n := by
  induction n using decimal.induct with
  | case1 n h =>
    rw [decimal, if_pos h]
    simp [digitsValue, (chars.decimal n h).2]
  | case2 n h ih =>
    rw [decimal, if_neg h, digitsValue_append, ih]
    have hd := (chars.decimal (n % 10) (Nat.mod_lt _ (by omega))).2
    simp only [Option.bind_some, digitsValue, hd]
    congr 1
    omega

theorem isNumberPart_of_digit (hd : d < 10) : isNumberPart chars (unit '0' + d) = true := by
  simp [isNumberPart, (chars.decimal d hd).1]

theorem Ends.not_numberPart (h : Ends chars c) : isNumberPart chars c = false := by
  have hdot : c ≠ unit '.' := h.ne_of_mem (by decide)
  have he : c ≠ unit 'e' := h.ne_letter (by decide)
  have hE : c ≠ unit 'E' := h.ne_letter (by decide)
  simp [isNumberPart, h.not_digit, hdot, he, hE]

theorem readNumber_decimal {n : Nat} (hn : n < 2 ^ 63) {rest : List Nat} (hrest : EndsText chars rest) :
    readNumber chars (decimal n ++ rest) = .ok (.long n, rest) := by
  have hpart : ∀ c ∈ decimal n, isNumberPart chars c = true := by
    intro c hc
    obtain ⟨d, hd, rfl⟩ := decimal_digits n c hc
    exact isNumberPart_of_digit hd
  obtain ⟨htake, hdrop⟩ := takeWhile_of_head hpart fun c hc => (hrest c hc).not_numberPart
  have hdot : unit '.' ∉ decimal n := by
    intro hmem
    obtain ⟨d, hd, heq⟩ := decimal_digits n _ hmem
    have hdigit := (chars.decimal d hd).1
    rw [← heq, (chars.punctuation_alone (unit '.') (by decide)).2] at hdigit
    cases hdigit
  have hlong : parseLong chars (decimal n) = .ok (n : Int) := by
    rw [parseLong, digitsValue_decimal]
    simp only
    rw [if_pos hn]
  unfold readNumber
  rw [htake, hdrop, if_neg hdot, hlong]

/-! ### Strings -/

theorem hexDigit_ne_sign (d : Nat) : hexDigit d ≠ unit '-' ∧ hexDigit d ≠ unit '+' := by
  have h0 : unit '0' = 48 := rfl
  have ha : unit 'a' = 97 := rfl
  have hm : unit '-' = 45 := rfl
  have hp : unit '+' = 43 := rfl
  unfold hexDigit
  split <;> omega

theorem parseHexadecimal_hexDigits (hc : c < 65536) : parseHexadecimal chars (hexDigits c) = .ok c := by
  have hdigit : ∀ d, d < 16 → chars.digit 16 (hexDigit d) = some d := chars.hexadecimal
  obtain ⟨hminus, hplus⟩ := hexDigit_ne_sign (c / 4096 % 16)
  have hvalue : digitsValue chars 16 0 (hexDigits c) = some c := by
    simp only [hexDigits, digitsValue, hdigit _ (Nat.mod_lt _ (by omega : 0 < 16))]
    congr 1
    omega
  unfold parseHexadecimal
  rw [hexDigits]
  simp only
  rw [if_neg hminus, if_neg hplus]
  rw [hexDigits] at hvalue
  simp only [hvalue]
  rfl

theorem readEscape_spec {escape : List Nat} (h : Escape c escape) (t : Nat)
    (rest : List Nat) : readEscape chars t (escape ++ rest) = .ok (c, rest) := by
  cases h with
  | backspace => rfl
  | formFeed => rfl
  | newline => rfl
  | carriageReturn => rfl
  | tab => rfl
  | self c h =>
    have hself : ∀ c ∈ units ['\\', '/', '"', '\''], c ≠ unit 'b' ∧ c ≠ unit 'f' ∧ c ≠ unit 'n' ∧
        c ≠ unit 'r' ∧ c ≠ unit 't' ∧ c ≠ unit 'u' ∧
        (c = unit '\\' ∨ c = unit '/' ∨ c = unit '"' ∨ c = unit '\'') := by decide
    obtain ⟨hb, hf, hn, hr, ht, hu, hor⟩ := hself c h
    show readEscape chars t (c :: rest) = _
    rw [readEscape, if_neg hb, if_neg hf, if_neg hn, if_neg hr, if_neg ht, if_neg hu, if_pos]
    grind
  | code c h =>
    have htake : ((hexDigits c ++ rest) ++ [0xffff, 0xffff, 0xffff, 0xffff]).take 4 = hexDigits c := by
      rw [append_assoc]
      exact take_left' rfl
    have hdrop : (hexDigits c ++ rest).drop 4 = rest := drop_left' rfl
    show readEscape chars t (unit 'u' :: (hexDigits c ++ rest)) = _
    rw [readEscape, if_neg (by decide), if_neg (by decide), if_neg (by decide), if_neg (by decide),
      if_neg (by decide), if_pos rfl, htake, hdrop, parseHexadecimal_hexDigits h]

theorem readString_spec {quote : Nat} (hquote : quote = unit '"' ∨ quote = unit '\'')
    {cs text : List Nat} (h : SpellsString quote cs text) :
    ∀ (rounds : Nat) (string rest : List Nat), text.length < rounds →
      readString chars quote rounds string (text ++ quote :: rest) = .ok (string ++ cs, rest) := by
  have hne : unit '\\' ≠ quote := by
    rcases hquote with rfl | rfl <;> decide
  induction h with
  | nil =>
    intro rounds string rest hrounds
    obtain ⟨n, rfl⟩ : ∃ n, rounds = n + 1 := ⟨rounds - 1, by omega⟩
    simp [readString]
  | @plain c cs text hcontrol hbackslash hq _ ih =>
    intro rounds string rest hrounds
    rw [length_cons] at hrounds
    obtain ⟨n, rfl⟩ : ∃ n, rounds = n + 1 := ⟨rounds - 1, by omega⟩
    rw [cons_append, readString]
    simp only [hcontrol]
    rw [if_neg hq, if_neg (by simp), if_neg hbackslash, ih n _ rest (by omega)]
    simp
  | @escaped c cs escape text hc _ ih =>
    intro rounds string rest hrounds
    rw [length_cons, length_append] at hrounds
    obtain ⟨n, rfl⟩ : ∃ n, rounds = n + 1 := ⟨rounds - 1, by omega⟩
    have hcontrol : isISOControl (unit '\\') = false := rfl
    rw [cons_append, append_assoc, readString]
    simp only [hcontrol]
    rw [if_neg hne, readEscape_spec hc]
    simp only
    rw [ih n _ rest (by omega)]
    simp

end ExpressionParser
namespace ExpressionParser

variable {D : Type} {chars : CharacterClasses D}

/-! ### Key paths -/

variable {c : Nat} {w tail rest : List Nat} {names : KeyPath (List Nat)}

theorem isNamePart_of_part (h : chars.isJavaIdentifierPart c = true) : isNamePart chars c = true := by
  have hdot : c ≠ unit '.' := ne_of_part h (by decide)
  have hbracket : c ≠ unit '[' := ne_of_part h (by decide)
  simp [isNamePart, h, hdot, hbracket]

theorem IsName.ne_nil (h : IsName chars w) : w ≠ [] := by
  obtain ⟨c, rest, rfl, -⟩ := h.start
  simp

theorem joinDots_cons (hne : names ≠ []) : joinDots (w :: names) = w ++ unit '.' :: joinDots names := by
  cases names with
  | nil => exact absurd rfl hne
  | cons w' names => rfl

theorem joinDots_ne_nil (hne : names ≠ []) (h : ∀ w ∈ names, IsName chars w) : joinDots names ≠ [] := by
  match names, hne, h with
  | [w], _, h => exact (h w (by simp)).ne_nil
  | w :: w' :: names, _, _ => simp [joinDots]

theorem readKey_name (hw : IsName chars w) (htail : ∀ c, tail.head? = some c → isNamePart chars c = false)
    (hskip : skipDot tail = .ok rest) : readKey chars (w ++ tail) = .ok (w, rest) := by
  obtain ⟨htake, hdrop⟩ := takeWhile_of_head (fun c hc => isNamePart_of_part (hw.part c hc)) htail
  have hhead : (w ++ tail).head? ≠ some (unit '[') := by
    obtain ⟨c, cs, rfl, hc⟩ := hw.start
    intro heq
    exact ne_of_part (chars.part_of_start c hc) (by decide) (Option.some.inj heq)
  unfold readKey
  rw [if_neg hhead, htake, hdrop]
  show (do let rest ← skipDot tail; if w = [] then _ else _) = _
  rw [hskip]
  show (if w = [] then _ else _) = _
  rw [if_neg hw.ne_nil]
  rfl

theorem skipDot_of_ends (hrest : EndsText chars rest) : skipDot rest = .ok rest := by
  cases rest with
  | nil => rfl
  | cons c rest =>
    have hdot : c ≠ unit '.' := (hrest c rfl).ne_of_mem (by decide)
    rw [skipDot, if_neg hdot]

theorem not_namePart_of_ends (h : Ends chars c) : isNamePart chars c = false := by
  simp [isNamePart, h.not_part]

theorem readKeys_ends (hrest : EndsText chars rest) (rounds : Nat)
    (elements : KeyPath (List Nat)) : readKeys chars rounds elements rest = .ok (elements, rest) := by
  cases rounds with
  | zero => rfl
  | succ rounds =>
    cases rest with
    | nil => rfl
    | cons c rest =>
      have hends := hrest c rfl
      have hbracket : c ≠ unit '[' := hends.ne_of_mem (by decide)
      simp [readKeys, start_false hends.not_part, hbracket]

theorem readKeys_name (hw : IsName chars w) (hkey : readKey chars (w ++ tail) = .ok (w, rest)) (rounds : Nat)
    (elements : KeyPath (List Nat)) :
    readKeys chars (rounds + 1) elements (w ++ tail) = readKeys chars rounds (elements ++ [w]) rest := by
  obtain ⟨c, cs, rfl, hc⟩ := hw.start
  rw [cons_append] at hkey ⊢
  rw [readKeys]
  simp only [hc, Bool.true_or, if_true, hkey]

theorem readKeys_spec (hrest : EndsText chars rest) :
    ∀ (names : KeyPath (List Nat)), names ≠ [] → (∀ w ∈ names, IsName chars w) →
    ∀ (rounds : Nat) (elements : KeyPath (List Nat)), names.length ≤ rounds →
      readKeys chars rounds elements (joinDots names ++ rest) = .ok (elements ++ names, rest) := by
  intro names
  induction names with
  | nil => intro hne; exact absurd rfl hne
  | cons w names ih =>
    intro _ hnames rounds elements hrounds
    have hw := hnames w (by simp)
    rw [length_cons] at hrounds
    obtain ⟨n, rfl⟩ : ∃ n, rounds = n + 1 := ⟨rounds - 1, by omega⟩
    by_cases hne : names = []
    · subst hne
      have hkey := readKey_name hw (fun c hc => not_namePart_of_ends (hrest c hc)) (skipDot_of_ends hrest)
      rw [joinDots, readKeys_name hw hkey, readKeys_ends hrest]
    · have hnames' : ∀ w ∈ names, IsName chars w := fun v hv =>
        hnames v (mem_cons_of_mem w hv)
      have hdot : ∀ c, (unit '.' :: (joinDots names ++ rest)).head? = some c → isNamePart chars c = false := by
        intro c hc
        obtain rfl := Option.some.inj hc
        simp [isNamePart]
      have hskip : skipDot (unit '.' :: (joinDots names ++ rest)) = .ok (joinDots names ++ rest) := by
        rw [skipDot]
        simp [joinDots_ne_nil hne hnames']
      have hkey := readKey_name hw hdot hskip
      rw [joinDots_cons hne, append_assoc, cons_append, readKeys_name hw hkey, ih hne hnames' n _ (by omega)]
      simp

theorem length_le_joinDots (names : KeyPath (List Nat)) (h : ∀ w ∈ names, IsName chars w) :
    names.length ≤ (joinDots names).length := by
  induction names with
  | nil => simp
  | cons w names ih =>
    have hpos := List.length_pos_iff.mpr (h w (by simp)).ne_nil
    have hih := ih fun v hv => h v (mem_cons_of_mem w hv)
    by_cases hne : names = []
    · subst hne
      exact hpos
    · rw [joinDots_cons hne]
      simp only [length_cons, length_append]
      omega

theorem parseKeyPath_spec (hne : names ≠ []) (h : ∀ w ∈ names, IsName chars w) (hrest : EndsText chars rest) :
    parseKeyPath chars (joinDots names ++ rest) = .ok (names, rest) := by
  have hlength := length_le_joinDots names h
  have hkeys := readKeys_spec hrest names hne h (joinDots names ++ rest).length [] (by rw [length_append]; omega)
  unfold parseKeyPath
  rw [hkeys]
  cases names with
  | nil => exact absurd rfl hne
  | cons w names => rfl

/-! ### Keywords -/

/-- The text goes another way than the keyword, before the one or the other ends. -/
def Diverges : List Nat → List Nat → Prop
  | k :: keyword, c :: input => k = c → Diverges keyword input
  | _, _ => False

theorem diverges_of_name : ∀ {keyword w : List Nat}, ¬ keyword <+: w →
    (w <+: keyword → ∃ c cs, tail = c :: cs ∧ c ∉ keyword) → Diverges keyword (w ++ tail) := by
  intro keyword
  induction keyword with
  | nil => intro w h _; exact absurd nil_prefix h
  | cons k keyword ih =>
    intro w h htail
    cases w with
    | nil =>
      obtain ⟨c, cs, rfl, hc⟩ := htail nil_prefix
      intro heq
      exact absurd (by simp [heq]) hc
    | cons c w =>
      rintro rfl
      refine ih (fun hp => h (List.cons_prefix_cons.mpr ⟨rfl, hp⟩)) fun hp => ?_
      obtain ⟨d, ds, htail, hd⟩ := htail (List.cons_prefix_cons.mpr ⟨rfl, hp⟩)
      exact ⟨d, ds, htail, fun hmem => hd (mem_cons_of_mem k hmem)⟩

theorem readKeyword_found (rest : List Nat) : ∀ (keyword : List Nat) (i : Nat) (buffer : List Nat),
    ∃ buffer', readKeyword keyword i (keyword ++ rest) buffer = (true, rest, buffer') ∧
      buffer'.length = buffer.length := by
  intro keyword
  induction keyword with
  | nil => intro i buffer; exact ⟨buffer, rfl, rfl⟩
  | cons k keyword ih =>
    intro i buffer
    obtain ⟨buffer', heq, hlength⟩ := ih (i + 1) (buffer.set i k)
    refine ⟨buffer', ?_, by rw [hlength, length_set]⟩
    rw [cons_append, readKeyword]
    simpa using heq

/-- The buffer holds what has been read; behind it stands what an earlier search has left. -/
theorem take_set_succ {buffer : List Nat} {i : Nat} (h : i < buffer.length) :
    (buffer.set i c).take (i + 1) = buffer.take i ++ [c] := by
  rw [take_succ_eq_append_getElem (by rwa [length_set]), take_set_of_le (le_refl i)]
  simp

/-- Where the text goes another way, what has been read is given back. -/
theorem readKeyword_given_back : ∀ (keyword : List Nat) (i : Nat) (input buffer : List Nat),
    Diverges keyword input → i + keyword.length ≤ buffer.length →
    ∃ buffer', readKeyword keyword i input buffer = (false, buffer.take i ++ input, buffer') ∧
      buffer'.length = buffer.length := by
  intro keyword
  induction keyword with
  | nil => intro i input buffer h; cases h
  | cons k keyword ih =>
    intro i input buffer h hroom
    rw [length_cons] at hroom
    cases input with
    | nil => cases h
    | cons c input =>
      have htake := take_set_succ (c := c) (show i < buffer.length by omega)
      rw [readKeyword]
      by_cases hk : k = c
      · obtain ⟨buffer', heq, hlength⟩ := ih (i + 1) input (buffer.set i c) (h hk) (by rw [length_set]; omega)
        refine ⟨buffer', ?_, by rw [hlength, length_set]⟩
        simp only [ne_eq, hk, not_true_eq_false, if_false]
        rw [heq, htake, append_assoc, singleton_append]
      · refine ⟨buffer.set i c, ?_, length_set ..⟩
        simp only [ne_eq, hk, not_false_eq_true, if_true]
        rw [htake, append_assoc, singleton_append]

end ExpressionParser

end JavaFX
