import TinyScript.Syntax.Operator

/-!
# Syntax trees

An expression as it was written. Literals keep their text; numbers are read and strings unquoted when
they are evaluated. A tree built by hand can lack a node (`missing`) or carry a literal of no known
kind (`LitKind.other`); no parsed tree does.
-/

namespace TinyScript.Syntax

inductive LitKind where
  | number
  | string
  | bool
  | nil
  | unit
  | other (n : Nat)
  deriving DecidableEq, Inhabited, Repr

namespace LitKind

def ofCode : Nat → LitKind
  | 0 => number
  | 1 => string
  | 2 => bool
  | 3 => nil
  | 4 => unit
  | n => other n

def code : LitKind → Nat
  | number => 0
  | string => 1
  | bool => 2
  | nil => 3
  | unit => 4
  | other n => n

def name : LitKind → Text
  | number => "number"
  | string => "string"
  | bool => "bool"
  | nil => "nil"
  | unit => "unit"
  | other n => "litkind(" ++ Text.ofNat n ++ ")"

def ofName? (t : Text) : Option LitKind :=
  [number, string, bool, nil, unit].find? fun k => k.name = t

end LitKind

inductive Expr where
  | lit (kind : LitKind) (raw : Text)
  | lookup (name : Text)
  | bin (op : BinOp) (left right : Expr)
  | unary (op : UnaryOp) (right : Expr)
  /-- Names for values, and an expression that may use them. -/
  | letIn (assigns : List (Text × Expr)) (body : Expr)
  /-- Conditions with their branches, tried in order, and what holds otherwise. -/
  | ifElse (conds : List (Expr × Expr)) (otherwise : Expr)
  | call (callee : Text) (args : List Expr)
  | list (items : List Expr)
  | dict (entries : List (Text × Expr))
  | lambda (params : List Text) (body : Expr)
  /-- The results of the body for each item, or each item that passes the filter. -/
  | forIn (handle : Text) (iter : Expr) (filter : Option Expr) (body : Expr)
  /-- A value threaded through the body for each item that passes the filter. -/
  | reduce (carry : Text) (init : Expr)
      (handle : Text) (iter : Expr) (filter : Option Expr) (body : Expr)
  /-- The definition of a function; its value is the function. -/
  | define (name : Text) (params : List Text) (body : Expr)
  | missing
  deriving Inhabited, Repr

/-- The definition of a function. -/
structure Def where
  name : Text
  params : List Text
  body : Expr
  deriving Inhabited, Repr

/-- A definition as an expression. -/
def Def.toExpr (d : Def) : Expr := .define d.name d.params d.body

/-- Definitions in the order of their appearance. -/
structure Program where
  defs : List Def
  deriving Inhabited, Repr

/-- The last definition of a name. -/
def Program.find? (p : Program) (name : Text) : Option Def :=
  p.defs.reverse.find? fun d => d.name = name

/-- Either definitions or one expression. -/
inductive Line where
  | program (p : Program)
  | expr (e : Expr)
  deriving Inhabited, Repr

end TinyScript.Syntax
