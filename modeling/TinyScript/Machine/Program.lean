import TinyScript.Machine.Eval
import TinyScript.Syntax.Parser

/-!
# Programs

A machine starts with the shared `unit` and `nil` and with native functions, all of them roots. Definitions
are bound in its global frame, and a program is run by calling its function `main`.
-/

namespace TinyScript

open Syntax (Expr Program SyntaxError)

/-- Why a program was not run. -/
inductive RunError where
  | parse (e : SyntaxError)
  | noMain
  deriving DecidableEq, Inhabited, Repr

/-- The message of a program without `main`. -/
def noMainMessage : Text := "program defines no main function"

def RunError.message : RunError → Text
  | parse e => e.message
  | noMain => noMainMessage

namespace Act

def addFunctions (fs : Builtin.Group) : Act Unit := fs.forM fun f => addFunction f.1 f.2

/-- Allocate the shared objects and register functions. -/
def boot (fs : Builtin.Group) : Act Unit := do
  let unit ← allocRaw .unit true
  let nil ← allocRaw .nil true
  modify fun m => { m with unit := unit, nil := nil }
  addFunctions fs

/-- Define all functions of a program, and remember their definitions. -/
def defineAll (p : Program) : Act Unit := do
  modify fun m => { m with program := some ⟨((m.program.map Program.defs).getD []) ++ p.defs⟩ }
  p.defs.forM fun d => do
    let _ ← Eval.define d

/-- Read an expression from JSON, noting what was read. -/
def readExpr (t : Text) : Act (Except Syntax.TreeTextError Expr) := do
  match ← readJson t with
  | none => return .error .notJson
  | some d => return (Expr.ofDatum d).mapError .tree

/-- Read a program from JSON, noting what was read. -/
def readProgram (t : Text) : Act (Except Syntax.TreeTextError Program) := do
  match ← readJson t with
  | none => return .error .notJson
  | some d => return (Program.ofDatum d).mapError .tree

/-- Define the functions of a program text. -/
def loadText (src : Text) : Act (Except SyntaxError Unit) := do
  match Syntax.parseProgram src with
  | .error e => return .error e
  | .ok p =>
    defineAll p
    return .ok ()

end Act

/-- A machine with the given functions. -/
def Machine.boot (fs : Builtin.Group) (m : Machine := {}) : Machine := ((Act.boot fs).run m).2

namespace Eval

/-- Evaluate an expression in a new frame below another. -/
def evalBelow (env : FrameId) (e : Expr) : Eval Ref := do
  let frame ← Act.fork env
  let r ← eval frame e
  Act.leave frame
  return r

/-- Call `main` without arguments. -/
def runMain : Eval Ref := evalBelow Frames.global (.call "main" [])

/-- Define the functions of a program text and run it. -/
def runText (src : Text) : Eval (Except RunError Ref) := do
  match ← Act.loadText src with
  | .error e => return .error (.parse e)
  | .ok () =>
    match (← getThe Machine).frames.resolveLocal? Frames.global "main" with
    | none => return .error .noMain
    | some _ => return .ok (← runMain)

/-- Evaluate the text of an expression. -/
def evalText (src : Text) : Eval (Except SyntaxError Ref) := do
  match Syntax.parseExpr src with
  | .error e => return .error e
  | .ok e => return .ok (← evalBelow Frames.global e)

end Eval

end TinyScript
