import TinyScript.Text.Basic

/-!
# Operators

The binary and unary operators with their spellings. Every operator has a number, which shows in
outlines of a syntax tree. A tree built by hand can carry a number that belongs to no operator;
`other` keeps it, so that evaluation can report it.
-/

namespace TinyScript.Syntax

inductive BinOp where
  | add
  | sub
  | mul
  | div
  | mod
  | and
  | or
  | bitAnd
  | bitOr
  | bitXor
  | eq
  | ne
  | lt
  | le
  | gt
  | ge
  | other (n : Nat)
  deriving DecidableEq, Inhabited, Repr

namespace BinOp

/-- Every operator with its spelling, in the order of their numbers. -/
def table : List (BinOp × String) :=
  [(add, "+"), (sub, "-"), (mul, "*"), (div, "/"), (mod, "%"), (and, "&&"), (or, "||"), (bitAnd, "&"),
   (bitOr, "|"), (bitXor, "^"), (eq, "=="), (ne, "!="), (lt, "<"), (le, "<="), (gt, ">"), (ge, ">=")]

def ofCode (n : Nat) : BinOp := (table[n]?.map Prod.fst).getD (other n)

def code : BinOp → Nat
  | add => 0
  | sub => 1
  | mul => 2
  | div => 3
  | mod => 4
  | and => 5
  | or => 6
  | bitAnd => 7
  | bitOr => 8
  | bitXor => 9
  | eq => 10
  | ne => 11
  | lt => 12
  | le => 13
  | gt => 14
  | ge => 15
  | other n => n

def symbol (op : BinOp) : Text :=
  match table[op.code]? with
  | some (_, s) => s
  | none => "binop(" ++ Text.ofNat op.code ++ ")"

/-- The operator that a text spells; two of them have a word as a second spelling. -/
def ofSymbol? (t : Text) : Option BinOp :=
  if t = "and" then some and
  else if t = "or" then some or
  else (table.find? fun p => Text.ofString p.2 = t).map Prod.fst

/-- How tightly an operator binds, from 1 to 9. All of them group to the left. -/
def precedence : BinOp → Nat
  | or => 1
  | and => 2
  | bitOr => 3
  | bitXor => 4
  | bitAnd => 5
  | eq | ne => 6
  | lt | le | gt | ge => 7
  | add | sub => 8
  | mul | div | mod => 9
  | other _ => 0

/-- The highest precedence. -/
def tightest : Nat := 9

end BinOp

inductive UnaryOp where
  | neg
  | not
  | other (n : Nat)
  deriving DecidableEq, Inhabited, Repr

namespace UnaryOp

def ofCode : Nat → UnaryOp
  | 0 => neg
  | 1 => not
  | n => other n

def code : UnaryOp → Nat
  | neg => 0
  | not => 1
  | other n => n

def symbol : UnaryOp → Text
  | neg => "-"
  | not => "!"
  | other n => "unaryop(" ++ Text.ofNat n ++ ")"

/-- The operator that a text spells. -/
def ofSymbol? (t : Text) : Option UnaryOp :=
  if t = "-" then some neg else if t = "!" then some not else none

end UnaryOp

end TinyScript.Syntax
