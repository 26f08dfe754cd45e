import TinyScript.Syntax.Expr

/-!
# Syntax trees as source text

`Expr.print` writes every operation between parentheses, so the grouping of operators survives.
Keys of a dict are written without quotes, and the forms that begin with a keyword without parentheses.
-/

namespace TinyScript.Syntax

mutual

/-- An expression as source text. -/
def Expr.print : Expr → Text
  | .lit _ raw => raw
  | .lookup name => name
  | .bin op l r => "(" ++ l.print ++ " " ++ op.symbol ++ " " ++ r.print ++ ")"
  | .unary op r => "(" ++ op.symbol ++ r.print ++ ")"
  | .letIn assigns body => "let " ++ Text.join ", " (printAssigns assigns) ++ " in " ++ body.print
  | .ifElse conds e => printConds "if " conds ++ " else " ++ e.print
  | .call callee args => callee ++ "(" ++ Text.join ", " (printItems args) ++ ")"
  | .list items => "[" ++ Text.join ", " (printItems items) ++ "]"
  | .dict entries => "\x7b" ++ Text.join ", " (printEntries entries) ++ "\x7d"
  | .lambda params body => "fn(" ++ Text.join ", " params ++ ") => " ++ body.print
  | .forIn handle iter filter body =>
    "for " ++ handle ++ " in " ++ iter.print ++ printFilter filter ++ " do " ++ body.print
  | .reduce carry init handle iter filter body =>
    "reduce " ++ carry ++ " = " ++ init.print
      ++ " for " ++ handle ++ " in " ++ iter.print ++ printFilter filter ++ " do " ++ body.print
  | .define name params body =>
    "def " ++ name ++ "(" ++ Text.join ", " params ++ ") = " ++ body.print
  | .missing => Text.empty

def printItems : List Expr → List Text
  | [] => []
  | e :: es => e.print :: printItems es

def printAssigns : List (Text × Expr) → List Text
  | [] => []
  | (n, e) :: rest => (n ++ " = " ++ e.print) :: printAssigns rest

def printEntries : List (Text × Expr) → List Text
  | [] => []
  | (k, e) :: rest => (k ++ ": " ++ e.print) :: printEntries rest

/-- The conditions of an `if`, the first after the given word and the others after `elif`. -/
def printConds (word : Text) : List (Expr × Expr) → Text
  | [] => Text.empty
  | (c, t) :: rest => word ++ c.print ++ " then " ++ t.print ++ printConds " elif " rest

/-- The filter of a loop, if it has one. -/
def printFilter : Option Expr → Text
  | none => Text.empty
  | some f => " if " ++ f.print

end

/-- A definition as source text. -/
def Def.print (d : Def) : Text := d.toExpr.print

/-- A program as source text, one definition a line. -/
def Program.print (p : Program) : Text := Text.concat (p.defs.map fun d => d.print ++ "\n")

end TinyScript.Syntax
