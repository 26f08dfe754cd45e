import TinyScript.Text.Quoted

/-!
# Tokens and syntax errors

A token is a class, the text it was read from and the position of its first character. Lines and
columns count from one, columns in characters. The end of the input is a position, not a token.

`SyntaxError` says what is wrong and where; `SyntaxError.message` is the one place where it is put
into words. `atEnd` tells whether the input just stopped too early, so that more input could mend it.
-/

namespace TinyScript.Syntax

/-- A position in a source text. -/
structure Pos where
  line : Nat := 1
  /-- The column in characters, counted from one. -/
  col : Nat := 1
  deriving DecidableEq, Inhabited, Repr

namespace Pos

/-- The position behind a character. -/
def next (p : Pos) (c : Char) : Pos :=
  if c = '\n' then ⟨p.line + 1, 1⟩ else ⟨p.line, p.col + 1⟩

/-- The position behind several characters. -/
def advance (p : Pos) (cs : List Char) : Pos := cs.foldl next p

end Pos

inductive TokenKind where
  | leftParen
  | rightParen
  | leftSquare
  | rightSquare
  | leftCurly
  | rightCurly
  | comma
  | colon
  | symbol
  | decimal
  | float
  | string
  | operator
  deriving DecidableEq, Inhabited, Repr

def TokenKind.code : TokenKind → Nat
  | leftParen => 1
  | rightParen => 2
  | leftSquare => 3
  | rightSquare => 4
  | leftCurly => 5
  | rightCurly => 6
  | comma => 7
  | colon => 8
  | symbol => 9
  | decimal => 10
  | float => 11
  | string => 12
  | operator => 13

/-- The number that stands for the end of the input in a list of tokens. -/
def endCode : Nat := 14

structure Token where
  kind : TokenKind
  text : Text
  pos : Pos
  deriving DecidableEq, Inhabited, Repr

/-- The tokens of a source text, and the position where the text ends. -/
structure Tokens where
  items : List Token
  stop : Pos
  deriving Inhabited, Repr

/-- How the end of the input is named in messages. -/
def endText : Text := "end of input"

/-- The words that are not names. -/
def keywords : List Text :=
  ["def", "let", "in", "if", "then", "elif", "else", "for", "do", "reduce", "fn", "true", "false", "nil",
   "and", "or"]

def isKeyword (t : Text) : Bool := keywords.contains t

/-- What can be wrong with a source text. -/
inductive Problem where
  | strayCharacter (c : Char)
  | openString
  /-- A run of digits and points that is no number. -/
  | malformedNumber (text : Text)
  | expected (what found : Text)
  | expectedName (found : Text)
  | expectedKey (found : Text)
  | strayKeyword (word : Text)
  | strayToken (found : Text)
  | trailing (found : Text)
  deriving DecidableEq, Inhabited, Repr

def Problem.message : Problem → Text
  | strayCharacter c => "unexpected character " ++ Text.quoteChar c
  | openString => "unterminated string"
  | malformedNumber t => "malformed number '" ++ t ++ "'"
  | expected what found => "expected " ++ what ++ ", found '" ++ found ++ "'"
  | expectedName found => "expected identifier, found '" ++ found ++ "'"
  | expectedKey found => "expected dict key, found '" ++ found ++ "'"
  | strayKeyword word => "unexpected keyword '" ++ word ++ "'"
  | strayToken found => "unexpected '" ++ found ++ "'"
  | trailing found => "unexpected '" ++ found ++ "' after expression"

/-- A problem at a position. -/
structure SyntaxError where
  pos : Pos
  problem : Problem
  atEnd : Bool
  deriving DecidableEq, Inhabited, Repr

def SyntaxError.message (e : SyntaxError) : Text :=
  "line " ++ Text.ofNat e.pos.line ++ " col " ++ Text.ofNat e.pos.col ++ ": " ++ e.problem.message
    ++ (if e.atEnd then ": unexpected end of input" else "")

end TinyScript.Syntax
