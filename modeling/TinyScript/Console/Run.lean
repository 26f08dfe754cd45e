import TinyScript.Console.Repl

/-!
# Running commands and scripts

A command given on the command line is a program or an expression. A script is a file with a program, as
source text or as a syntax tree. Either is run, or its syntax tree is printed, as the settings say.
-/

namespace TinyScript.Console

open Syntax (Program)

/-- Why a command or a script failed. -/
inductive Failure where
  /-- The command is no program and no expression. -/
  | parse (e : Syntax.SyntaxError)
  | noMain
  | main (message : Text)
  | file (e : Host.FileError)
  | script (path message : Text)
  deriving DecidableEq, Inhabited, Repr

def Failure.message : Failure → Text
  | parse e => e.message
  | noMain => noMainMessage
  | main m => "main failed: " ++ m
  | file e => e.message
  | script path m => path ++ ": " ++ m

/-- A screen, or a failure. -/
abbrev Run := ExceptT Failure Screen Unit

/-- Run a program and show the result. -/
def runProgram (c : Config) (p : Program) : Run := do
  if c.dumpTree then
    showLine p.toJson
    return
  (perform (Act.defineAll p : Eval Unit) : Screen Unit)
  if (p.find? "main").isNone then throw .noMain
  let r ← (perform Eval.runMain : Screen Ref)
  showValue c r
  match (← getThe Machine).object r with
  | .error m => throw (.main m)
  | _ => return

def runCommand (c : Config) (text : Text) : Run := do
  match Syntax.parseLine text with
  | .error e => throw (.parse e)
  | .ok (.program p) => runProgram c p
  | .ok (.expr e) =>
    let shown : Screen Unit := if c.dumpTree then showLine e.toJson else enter c (.expr e)
    shown

/-- The program in a script. -/
def readScript (c : Config) (src : Text) : Act (Except Text Program) := do
  if c.treeInput then
    return (← Act.readProgram src).mapError Syntax.TreeTextError.message
  return (Syntax.parseProgram src).mapError Syntax.SyntaxError.message

def runScript (c : Config) (path : Text) : Run := do
  match (← getThe Machine).files.read path with
  | .error e => throw (.file e)
  | .ok src =>
    match ← (perform (readScript c src : Eval _) : Screen _) with
    | .error m => throw (.script path m)
    | .ok p => runProgram c p

end TinyScript.Console
