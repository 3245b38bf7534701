/-
`Expression.Parser`: from text to a tree.

A string is the list of its code units.  The character the parser has read and not used yet
(`c`) is the head of the input; the rest is what its reader still holds.  The reader takes back
what it is given, which is never more than it has room for.

`readKeyword` looks for a keyword character by character and gives back what it has read if the
text goes another way.  It keeps what it has read in `pushbackBuffer`, which is never emptied: at
the end of the text it gives back one character more than it has read.

The character classes of the platform are a parameter, with what their documentation says about
the characters the grammar uses.
-/
import JavaFX.Fxml.Expression
import JavaFX.Runtime
import Mathlib.Data.Nat.Digits.Defs

namespace JavaFX.ExpressionParser

def unit (c : Char) : Nat := c.toNat

def units (cs : List Char) : List Nat := cs.map unit

/-- The characters of the grammar that stand for themselves. -/
def punctuation : List Nat :=
  units ['(', ')', '+', '-', '*', '/', '%', '=', '!', '<', '>', '&', '|', '.', '[', ']', '"', '\'']

/-- The character classes of `java.lang.Character`, and the parsing of numbers. -/
structure CharacterClasses (D : Type) where
  isWhitespace : Nat → Bool
  isDigit : Nat → Bool
  isJavaIdentifierStart : Nat → Bool
  isJavaIdentifierPart : Nat → Bool
  /-- `Character.digit(c, radix)`. -/
  digit : Nat → Nat → Option Nat
  parseDouble : List Nat → Except JavaException D
  part_of_start : ∀ c, isJavaIdentifierStart c = true → isJavaIdentifierPart c = true
  start_of_letter : ∀ c ∈ units ['a', 'e', 'f', 'l', 'n', 'r', 's', 't', 'u', 'E'], isJavaIdentifierStart c = true
  whitespace_alone : ∀ c, isWhitespace c = true → isJavaIdentifierPart c = false ∧ isDigit c = false ∧ c ∉ punctuation
  digit_not_start : ∀ c, isDigit c = true → isJavaIdentifierStart c = false
  punctuation_alone : ∀ c ∈ punctuation, isJavaIdentifierPart c = false ∧ isDigit c = false
  decimal : ∀ d, d < 10 → isDigit (unit '0' + d) = true ∧ digit 10 (unit '0' + d) = some d
  hexadecimal : ∀ d, d < 16 → digit 16 (if d < 10 then unit '0' + d else unit 'a' + (d - 10)) = some d

/-- `Character.isISOControl`. -/
def isISOControl (c : Nat) : Bool := c ≤ 0x1f || (0x7f ≤ c && c ≤ 0x9f)

/-- What a literal stands for; `D` is the type of a `Double`. -/
inductive Literal (D : Type)
  | null
  | boolean (value : Bool)
  | long (value : Int)
  | double (value : D)
  | string (value : List Nat)
deriving DecidableEq

inductive Token (D : Type)
  | literal (value : Literal D)
  | «variable» (value : KeyPath (List Nat))
  | unaryOperator (value : UnaryOperator)
  | binaryOperator (value : BinaryOperator)
  | beginGroup
  | endGroup
deriving DecidableEq

variable {D : Type} (chars : CharacterClasses D)

/-! ### Numbers -/

/-- The value of a sequence of digits. -/
def digitsValue (radix : Nat) : Nat → List Nat → Option Nat
  | value, [] => some value
  | value, c :: cs =>
    match chars.digit radix c with
    | some d => digitsValue radix (value * radix + d) cs
    | none => none

/-- `Long.parseLong` of a text that starts with a digit. -/
def parseLong (cs : List Nat) : Except JavaException Int :=
  match digitsValue chars 10 0 cs with
  | some n => if n < 2 ^ 63 then .ok n else .error .illegalArgument
  | none => .error .illegalArgument

/-- `(char)Integer.parseInt(value, 16)` of four characters. -/
def parseHexadecimal (cs : List Nat) : Except JavaException Nat :=
  let (negative, digits) := match cs with
    | c :: rest => if c = unit '-' then (true, rest) else if c = unit '+' then (false, rest)
      else (false, cs)
    | [] => (false, [])
  match digitsValue chars 16 0 digits with
  | some n => if negative then .ok ((65536 - n % 65536) % 65536) else .ok n
  | none => .error .illegalArgument

def isNumberPart (c : Nat) : Bool :=
  chars.isDigit c || c = unit '.' || c = unit 'e' || c = unit 'E'

def readNumber (input : List Nat) : Except JavaException (Literal D × List Nat) :=
  let number := input.takeWhile (isNumberPart chars)
  let rest := input.dropWhile (isNumberPart chars)
  if unit '.' ∈ number then
    match chars.parseDouble number with
    | .ok value => .ok (.double value, rest)
    | .error e => .error e
  else
    match parseLong chars number with
    | .ok value => .ok (.long value, rest)
    | .error e => .error e

/-! ### Strings -/

/-- What follows a backslash; `t` is the delimiter of the string. -/
def readEscape (t : Nat) : List Nat → Except JavaException (Nat × List Nat)
  | [] => .error .illegalArgument
  | c :: rest =>
    if c = unit 'b' then .ok (8, rest)
    else if c = unit 'f' then .ok (12, rest)
    else if c = unit 'n' then .ok (10, rest)
    else if c = unit 'r' then .ok (13, rest)
    else if c = unit 't' then .ok (9, rest)
    else if c = unit 'u' then
      -- at the end of the text, `(char)-1` is read
      match parseHexadecimal chars ((rest ++ [0xffff, 0xffff, 0xffff, 0xffff]).take 4) with
      | .ok value => .ok (value, rest.drop 4)
      | .error e => .error e
    else if c = unit '\\' ∨ c = unit '/' ∨ c = unit '"' ∨ c = unit '\'' ∨ c = t then .ok (c, rest)
    else .error .illegalArgument

/-- The loop over the characters of a string; control characters are dropped.  There are as many
rounds as there are characters, at most. -/
def readString (t : Nat) : Nat → List Nat → List Nat → Except JavaException (List Nat × List Nat)
  | 0, _, _ => .error .illegalArgument
  | rounds + 1, string, input =>
    match input with
    | [] => .error .illegalArgument
    | c :: rest =>
      if c = t then .ok (string, rest)
      else if isISOControl c then readString t rounds string rest
      else if c = unit '\\' then
        match readEscape chars t rest with
        | .ok (escaped, rest) => readString t rounds (string ++ [escaped]) rest
        | .error e => .error e
      else readString t rounds (string ++ [c]) rest

/-! ### Key paths -/

/-- The loop over the characters between brackets. -/
def readBracketed (quote : Nat) : Bool → List Nat → List Nat →
    Except JavaException (List Nat × List Nat)
  | _, _, [] => .error .illegalArgument
  | quoted, key, c :: rest =>
    if isISOControl c then .error .illegalArgument
    else if !quoted && !chars.isDigit c then .error .illegalArgument
    else if quoted then
      match rest with
      | [] => .error .illegalArgument
      | d :: rest' =>
        if d = quote then
          match rest' with
          | [] => .error .illegalArgument
          | e :: rest'' =>
            if e = unit ']' then .ok (key ++ [c], rest'')
            else readBracketed quote false (key ++ [c]) (e :: rest'')
        else if d = unit ']' then .error .illegalArgument
        else readBracketed quote true (key ++ [c]) (d :: rest')
    else
      match rest with
      | [] => .error .illegalArgument
      | d :: rest' =>
        if d = unit ']' then .ok (key ++ [c], rest')
        else readBracketed quote false (key ++ [c]) (d :: rest')

/-- A key in brackets, after the opening one. -/
def readBracket : List Nat → Except JavaException (List Nat × List Nat)
  | [] => .error .illegalArgument
  | c :: rest =>
    if c = unit '"' ∨ c = unit '\'' then readBracketed chars c true [] rest
    else readBracketed chars 0 false [] (c :: rest)

def isNamePart (c : Nat) : Bool :=
  c ≠ unit '.' && c ≠ unit '[' && chars.isJavaIdentifierPart c

/-- A dot after a key is read over, and there has to be something behind it. -/
def skipDot : List Nat → Except JavaException (List Nat)
  | [] => .ok []
  | c :: rest =>
    if c = unit '.' then (if rest = [] then .error .illegalArgument else .ok rest) else .ok (c :: rest)

/-- A key and the dot behind it. -/
def readKey (input : List Nat) : Except JavaException (List Nat × List Nat) := do
  let (key, rest) ←
    if input.head? = some (unit '[') then readBracket chars input.tail
    else .ok (input.takeWhile (isNamePart chars), input.dropWhile (isNamePart chars))
  let rest ← skipDot rest
  if key = [] then .error .illegalArgument else return (key, rest)

/-- The loop of `KeyPath.parse`; there are as many rounds as there are characters, at most. -/
def readKeys : Nat → KeyPath (List Nat) → List Nat →
    Except JavaException (KeyPath (List Nat) × List Nat)
  | 0, elements, input => .ok (elements, input)
  | rounds + 1, elements, input =>
    match input with
    | [] => .ok (elements, [])
    | c :: _ =>
      if chars.isJavaIdentifierStart c || c = unit '[' then
        match readKey chars input with
        | .ok (key, rest) => readKeys rounds (elements ++ [key]) rest
        | .error e => .error e
      else .ok (elements, input)

/-- `KeyPath.parse`. -/
def parseKeyPath (input : List Nat) : Except JavaException (KeyPath (List Nat) × List Nat) :=
  match readKeys chars input.length [] input with
  | .ok ([], _) => .error .illegalArgument
  | .ok (elements, rest) => .ok (elements, rest)
  | .error e => .error e

/-! ### Keywords -/

/-- `readKeyword`, from the character `i` of the keyword on.  If the keyword is not there, what
is returned is what the reader holds then. -/
def readKeyword : List Nat → Nat → List Nat → List Nat → Bool × List Nat × List Nat
  | [], _, input, pushbackBuffer => (true, input, pushbackBuffer)
  | _ :: _, i, [], pushbackBuffer => (false, pushbackBuffer.take (i + 1), pushbackBuffer)
  | k :: keyword, i, c :: reader, pushbackBuffer =>
    let pushbackBuffer := pushbackBuffer.set i c
    if k ≠ c then (false, pushbackBuffer.take (i + 1) ++ reader, pushbackBuffer)
    else readKeyword keyword (i + 1) reader pushbackBuffer

def nullKeyword : List Nat := units ['n', 'u', 'l', 'l']

def trueKeyword : List Nat := units ['t', 'r', 'u', 'e']

def falseKeyword : List Nat := units ['f', 'a', 'l', 's', 'e']

/-- A token, the input behind it and the buffer. -/
abbrev Read (D : Type) := Token D × List Nat × List Nat

/-- The keyword, or else a key path. -/
def readKeywordOrPath (keyword : List Nat) (value : Literal D) (input pushbackBuffer : List Nat) :
    Except JavaException (Read D) :=
  match readKeyword keyword 0 input pushbackBuffer with
  | (true, rest, pushbackBuffer) => .ok (.literal value, rest, pushbackBuffer)
  | (false, reader, pushbackBuffer) =>
    match parseKeyPath chars reader with
    | .ok (path, rest) => .ok (.variable path, rest, pushbackBuffer)
    | .error e => .error e

/-! ### Operators -/

/-- Where an operand is expected. -/
def readUnary (c : Nat) (reader : List Nat) : Except JavaException (Token D × List Nat) :=
  if c = unit '-' then .ok (.unaryOperator .negate, reader)
  else if c = unit '!' then .ok (.unaryOperator .not, reader)
  else if c = unit '(' then .ok (.beginGroup, reader)
  else .error .illegalArgument

/-- An operator of two characters. -/
def expect (next : Char) (operator : BinaryOperator) :
    List Nat → Except JavaException (Token D × List Nat)
  | [] => .error .illegalArgument
  | c :: rest =>
    if c = unit next then .ok (.binaryOperator operator, rest) else .error .illegalArgument

/-- An operator that an equals sign makes another one. -/
def orEqual (with_ without : BinaryOperator) : List Nat → Except JavaException (Token D × List Nat)
  | [] => .ok (.binaryOperator without, [])
  | c :: rest =>
    if c = unit '=' then .ok (.binaryOperator with_, rest)
    else .ok (.binaryOperator without, c :: rest)

/-- Behind an operand. -/
def readBinary (c : Nat) (reader : List Nat) : Except JavaException (Token D × List Nat) :=
  if c = unit '+' then .ok (.binaryOperator .add, reader)
  else if c = unit '-' then .ok (.binaryOperator .subtract, reader)
  else if c = unit '*' then .ok (.binaryOperator .multiply, reader)
  else if c = unit '/' then .ok (.binaryOperator .divide, reader)
  else if c = unit '%' then .ok (.binaryOperator .modulo, reader)
  else if c = unit '=' then expect '=' .equalTo reader
  else if c = unit '!' then expect '=' .notEqualTo reader
  else if c = unit '>' then orEqual .greaterThanOrEqualTo .greaterThan reader
  else if c = unit '<' then orEqual .lessThanOrEqualTo .lessThan reader
  else if c = unit '&' then expect '&' .and reader
  else if c = unit '|' then expect '|' .or reader
  else if c = unit ')' then .ok (.endGroup, reader)
  else .error .illegalArgument

/-- The token that starts with `c`. -/
def readToken (unary : Bool) (c : Nat) (reader pushbackBuffer : List Nat) :
    Except JavaException (Read D) :=
  if c = unit 'n' then readKeywordOrPath chars nullKeyword .null (c :: reader) pushbackBuffer
  else if c = unit '"' ∨ c = unit '\'' then
    match readString chars c (reader.length + 1) [] reader with
    | .ok (string, rest) => .ok (.literal (.string string), rest, pushbackBuffer)
    | .error e => .error e
  else if chars.isDigit c then
    match readNumber chars (c :: reader) with
    | .ok (value, rest) => .ok (.literal value, rest, pushbackBuffer)
    | .error e => .error e
  else if c = unit 't' then
    readKeywordOrPath chars trueKeyword (.boolean true) (c :: reader) pushbackBuffer
  else if c = unit 'f' then
    readKeywordOrPath chars falseKeyword (.boolean false) (c :: reader) pushbackBuffer
  else if chars.isJavaIdentifierStart c then
    match parseKeyPath chars (c :: reader) with
    | .ok (path, rest) => .ok (.variable path, rest, pushbackBuffer)
    | .error e => .error e
  else
    match (if unary then readUnary c reader else readBinary c reader) with
    | .ok (token, rest) => .ok (token, rest, pushbackBuffer)
    | .error e => .error e

/-! ### Tokens in postfix order -/

/-- The tokens in postfix order, and the stack of operators and open groups. -/
abbrev Postfix (D : Type) := List (Token D) × List (Token D)

/-- The priority of an operator; a group has none. -/
def Token.priority? : Token D → Option Nat
  | .unaryOperator operator => some operator.getPriority
  | .binaryOperator operator => some operator.getPriority
  | _ => none

/-- An operator takes those of at least its priority from the stack, unless they have the
highest one. -/
def popOperators (priority : Nat) : List (Token D) → List (Token D) → Postfix D
  | tokens, [] => (tokens, [])
  | tokens, top :: stack =>
    match top.priority? with
    | some p =>
      if p ≥ priority ∧ p ≠ maxPriority then popOperators priority (tokens ++ [top]) stack
      else (tokens, top :: stack)
    | none => (tokens, top :: stack)

/-- The end of a group takes everything up to its beginning from the stack. -/
def popGroup : List (Token D) → List (Token D) → Except JavaException (Postfix D)
  | _, [] => .error .noSuchElement
  | tokens, .beginGroup :: stack => .ok (tokens, stack)
  | tokens, top :: stack => popGroup (tokens ++ [top]) stack

def pushOperator (token : Token D) (priority : Nat) (p : Postfix D) : Postfix D :=
  let popped := popOperators priority p.1 p.2
  (popped.1, token :: popped.2)

def processToken (token : Token D) (p : Postfix D) : Except JavaException (Postfix D) :=
  match token with
  | .literal _ => .ok (p.1 ++ [token], p.2)
  | .variable _ => .ok (p.1 ++ [token], p.2)
  | .unaryOperator operator => .ok (pushOperator token operator.getPriority p)
  | .binaryOperator operator => .ok (pushOperator token operator.getPriority p)
  | .beginGroup => .ok (p.1, token :: p.2)
  | .endGroup => popGroup p.1 p.2

/-- An operand is expected behind the token. -/
def Token.expectsOperand : Token D → Bool
  | .literal _ => false
  | .variable _ => false
  | .endGroup => false
  | _ => true

/-- The loop of `tokenize`.  A round uses up at least one character, and `readKeyword` gives back
one too many at the end of the text only. -/
def tokenizeLoop : Nat → Bool → List Nat → List Nat → Postfix D →
    Except JavaException (List (Token D))
  | 0, _, _, _, _ => .error .outOfMemory
  | rounds + 1, unary, input, pushbackBuffer, p =>
    match input.dropWhile chars.isWhitespace with
    | [] => .ok (p.1 ++ p.2)
    | c :: reader =>
      match readToken chars unary c reader pushbackBuffer with
      | .error e => .error e
      | .ok (token, rest, pushbackBuffer) =>
        match processToken token p with
        | .error e => .error e
        | .ok p => tokenizeLoop rounds token.expectsOperand rest pushbackBuffer p

def tokenize (text : List Nat) : Except JavaException (List (Token D)) :=
  tokenizeLoop chars (2 * text.length + 2) true text (List.replicate 6 0) ([], [])

/-! ### Trees -/

/-- The tree a text stands for. -/
abbrev Tree (D : Type) := Expression (List Nat) (Literal D)

def pushExpression (token : Token D) (stack : List (Tree D)) :
    Except JavaException (List (Tree D)) :=
  match token, stack with
  | .literal value, stack => .ok (.literal value :: stack)
  | .variable path, stack => .ok (.variable path :: stack)
  | .unaryOperator operator, operand :: stack => .ok (.unary operator operand :: stack)
  | .binaryOperator operator, right :: left :: stack => .ok (.binary operator left right :: stack)
  | .unaryOperator _, _ => .error .noSuchElement
  | .binaryOperator _, _ => .error .noSuchElement
  | _, _ => .error .unsupportedOperation

/-- The tree of tokens in postfix order. -/
def buildTree (tokens : List (Token D)) : Except JavaException (Tree D) :=
  match tokens.foldlM (fun stack token => pushExpression token stack) [] with
  | .error e => .error e
  | .ok [e] => .ok e
  | .ok _ => .error .illegalArgument

def parse (text : List Nat) : Except JavaException (Tree D) :=
  match tokenize chars text with
  | .error e => .error e
  | .ok tokens => buildTree tokens

end JavaFX.ExpressionParser
