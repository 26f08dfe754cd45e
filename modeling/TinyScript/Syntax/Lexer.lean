import TinyScript.Syntax.Token
import TinyScript.Text.Letter
import TinyScript.Text.Digit
import TinyScript.Text.Blank

/-!
# From characters to tokens

`step` looks at the front of the remaining characters and decides what stands there: a gap (one white
space character, or a comment up to the end of its line), a token, or an error. It says how many
characters that takes and never takes none, so `scan` comes to an end. Whether a minus sign begins a
number depends on the token before: behind something that can end an operand it is an operator.
-/

namespace TinyScript.Syntax

open Text (isLetter isDigit isBlank)

/-- The class of a character that is a token by itself. -/
def punctuation? : Char → Option TokenKind
  | '(' => some .leftParen
  | ')' => some .rightParen
  | '[' => some .leftSquare
  | ']' => some .rightSquare
  | '{' => some .leftCurly
  | '}' => some .rightCurly
  | ',' => some .comma
  | ':' => some .colon
  | _ => none

/-- The operators, those of two characters first. -/
def operatorSpellings : List (List Char) :=
  [['&', '&'], ['|', '|'], ['=', '='], ['!', '='], ['<', '='], ['>', '='], ['=', '>'],
   ['+'], ['-'], ['*'], ['/'], ['%'], ['&'], ['|'], ['^'], ['<'], ['>'], ['!'], ['=']]

/-- The longest operator at the front. -/
def operator? (cs : List Char) : Option (List Char) :=
  operatorSpellings.find? fun op => op.isPrefixOf cs

/-- Whether a token can end an operand. -/
def Token.endsOperand (t : Token) : Bool :=
  match t.kind with
  | .decimal | .float | .string | .rightParen | .rightSquare | .rightCurly => true
  | .symbol => t.text = "true" || t.text = "false" || t.text = "nil" || !isKeyword t.text
  | _ => false

/-- Whether a character can continue a name. -/
def isNameChar (c : Char) : Bool := c = '_' || isLetter c || isDigit c

/-- The characters of a string behind its opening quote, up to and including the closing one. A
backslash takes the next character with it. -/
def stringBody? : List Char → Option (List Char)
  | [] => none
  | ['\\'] => none
  | '"' :: _ => some ['"']
  | '\\' :: c :: cs => (stringBody? cs).map ('\\' :: c :: ·)
  | c :: cs => (stringBody? cs).map (c :: ·)

/-- The run of digits and points at the front, up to and including a first `u`. -/
def numberRun : List Char → List Char
  | [] => []
  | c :: cs =>
    if c = 'u' then [c]
    else if isDigit c || c = '.' then c :: numberRun cs
    else []

/-- Whether a character is an ASCII digit. -/
def isAsciiDigit (c : Char) : Bool := '0' ≤ c && c ≤ '9'

/-- The class of a number without its sign: digits with an optional `u`, or digits, a point and
possibly more digits. -/
def numberKind? (cs : List Char) : Option TokenKind :=
  let rest := cs.dropWhile isAsciiDigit
  if rest.length = cs.length then none
  else
    match rest with
    | [] => some .decimal
    | ['u'] => some .decimal
    | '.' :: rest => if rest.all isAsciiDigit then some .float else none
    | _ => none

/-- What stands at the front of the remaining characters. -/
inductive Front where
  | gap (text : List Char)
  | token (kind : TokenKind) (text : List Char)
  /-- No token; the input may have ended too early. -/
  | fault (problem : Problem) (atEnd : Bool)

/-- A number, with the sign already taken off. -/
def number (sign digits : List Char) : Front :=
  let run := numberRun digits
  match numberKind? run with
  | some kind => .token kind (sign ++ run)
  | none => .fault (.malformedNumber (Text.ofChars (sign ++ run))) false

/-- Look at the front, `c :: cs`, behind the token `prev`. -/
def step (prev : Option Token) (c : Char) (cs : List Char) : Front :=
  if isBlank c then .gap [c]
  else if c = '#' then .gap (c :: cs.takeWhile (· ≠ '\n'))
  else if c = '"' then
    match stringBody? cs with
    | some body => .token .string (c :: body)
    | none => .fault .openString true
  else if isDigit c then number [] (c :: cs)
  else if c = '-' && (cs.head?.any isDigit) && !(prev.any Token.endsOperand) then number [c] cs
  else if c = '_' || isLetter c then .token .symbol ((c :: cs).takeWhile isNameChar)
  else
    match punctuation? c with
    | some kind => .token kind [c]
    | none =>
      match operator? (c :: cs) with
      | some op => .token .operator op
      | none => .fault (.strayCharacter c) false

/-- Scan the remaining characters, in at most `fuel` steps. The tokens found so far are in `acc`, last
first. -/
def scan : Nat → List Token → Pos → List Char → Except SyntaxError Tokens
  | 0, acc, pos, _ => .ok ⟨acc.reverse, pos⟩
  | _ + 1, acc, pos, [] => .ok ⟨acc.reverse, pos⟩
  | fuel + 1, acc, pos, c :: cs =>
    match step acc.head? c cs with
    | .gap text => scan fuel acc (pos.advance text) ((c :: cs).drop text.length)
    | .token kind text =>
      scan fuel (⟨kind, Text.ofChars text, pos⟩ :: acc) (pos.advance text) ((c :: cs).drop text.length)
    | .fault problem atEnd => .error ⟨pos, problem, atEnd⟩

/-- The tokens of a source text. -/
def tokenize (src : Text) : Except SyntaxError Tokens :=
  let cs := src.chars
  scan (cs.length + 1) [] {} cs

end TinyScript.Syntax
