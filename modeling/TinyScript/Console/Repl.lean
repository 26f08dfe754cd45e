import TinyScript.Console.Config
import TinyScript.Console.Input
import TinyScript.Syntax.Codec
import TinyScript.Text.Trim

/-!
# The interactive loop

Lines are gathered until they are a complete entry: definitions or an expression. An entry that cannot be
continued to something complete is an error. A line that begins with a dot is a command, unless an entry is
under way. What is shown, and what programs print in the meantime, is a list of events in their order.
-/

namespace TinyScript.Console

open Syntax (Program Expr SyntaxError)

/-- Something that becomes visible. -/
inductive Event where
  /-- A prompt: for a new entry, or for one under way. -/
  | prompt (continues : Bool)
  | shown (t : Text)
  | printed (t : Text)
  | noted (t : Text)
  | warned (t : Text)
  deriving DecidableEq, Inhabited, Repr

/-- What is shown before an entry is continued. -/
def continuationPrompt : Text := "... "

/-- The text of an event on the output stream. -/
def Event.text (prompt : Text) : Event → Text
  | .prompt true => continuationPrompt
  | .prompt false => prompt
  | shown t => t
  | printed t => t
  | noted t => "\n" ++ t ++ "\n"
  | warned _ => Text.empty

/-- Programs that make events; the latest comes first. -/
abbrev Screen := StateT (List Event) Eval

def emit (e : Event) : Screen Unit := modify (e :: ·)

def showLine (t : Text) : Screen Unit := emit (.shown (t ++ "\n"))

/-- What the machine printed and noted and was not shown yet. -/
def pending (m : Machine) : List Event := m.printed.map .printed ++ m.notes.map .noted

/-- The machine when all this was shown. -/
def drained (m : Machine) : Machine := { m with printed := [], notes := [] }

/-- Take what the machine printed and noted. -/
def drain : Act (List Event) := modifyGet fun m => (pending m, drained m)

/-- Run an evaluation and add what was printed and noted. -/
def perform {α : Type} (x : Eval α) : Screen α := do
  let a ← x
  let events ← (drain : Eval _)
  modify (events ++ ·)
  return a

def showValue (c : Config) (r : Ref) : Screen Unit := do
  showLine ((← getThe Machine).render c.style r)

/-- Define a program or evaluate an expression, and show the outcome. -/
def enter (c : Config) : Syntax.Line → Screen Unit
  | .program p => do
    perform (Act.defineAll p : Eval Unit)
    p.defs.forM fun d => showLine ("defined " ++ d.name)
  | .expr e => do
    let r ← perform (Eval.evalBelow Frames.global e)
    showValue c r

/-! ## Commands -/

/-- Show the global names that are bound to something else than native functions. -/
def listNames : Screen Unit := do
  let m ← getThe Machine
  let binds := (m.frames.binds Frames.global).mergeSort fun a b => a.1.le b.1
  binds.forM fun b =>
    match m.object b.2 with
    | .function ⟨_, .native _⟩ => pure ()
    | _ => showLine (b.1 ++ " = " ++ m.render .tagged b.2)

/-- Collect and show the counts. -/
def collectNow : Screen Unit := do
  let c ← perform (Act.forceCollect : Eval Collection)
  showLine ("gc: marked " ++ Text.ofNat c.marked ++ ", collected " ++ Text.ofNat c.collected ++ ", live "
    ++ Text.ofNat c.live ++ ".")

/-- Run the command that a line holds. The result tells whether to stop. -/
def dotCommand (line : Text) : Screen Bool := do
  let first := line.words.head?.getD Text.empty
  let rest := ((line.trim.stripStart? first).getD Text.empty).trim
  if first = ".quit" then return true
  if first = ".verb" then
    modifyThe Machine fun m => { m with verbose := !m.verbose }
    showLine ("verbose: " ++ Text.ofBool (← getThe Machine).verbose ++ ".")
  else if first = ".gc" then collectNow
  else if first = ".ls" then listNames
  else if first = ".ast" then
    match Syntax.parseLine rest with
    | .error e => showLine e.message
    | .ok l => emit (.shown l.outline.write)
  else showLine ("unknown command " ++ first.quoted ++ "; try .quit .ast .gc .verb .ls")
  return false

/-! ## The loop -/

/-- What comes of a line: go on with an entry under way, if there is one, or stop. -/
inductive Next where
  /-- Read on; the lines of the entry under way are given. -/
  | read (pending : Option Text)
  | stop

/-- The entry under way with a line added to it. -/
def gathered (pending : Option Text) (t : Text) : Text :=
  match pending with
  | some before => before ++ "\n" ++ t
  | none => t

/-- Treat a line, which begins an entry or continues the one that is pending. -/
def treatLine (c : Config) (pending : Option Text) (t : Text) : Screen Next := do
  if pending.isNone && t.trim.startsWith "." then
    if ← dotCommand t then return .stop
    return .read none
  let entry := gathered pending t
  if entry.trim.isEmpty then return .read none
  match Syntax.parseLine entry with
  | .ok l =>
    enter c l
    return .read none
  | .error e =>
    if e.atEnd then return .read (some entry)
    showLine e.message
    return .read none

/-- Treat lines until one says to stop, or there are no more. The result is the lines not read. Lines are treated
one by one in any monad that screens can be run in. -/
def loopIn {μ : Type → Type} [Monad μ] [MonadLiftT Screen μ] (c : Config) : Option Text → List Input → μ (List Input)
  | pending, [] => do
    emit (.prompt pending.isSome)
    return []
  | pending, input :: rest => do
    emit (.prompt pending.isSome)
    match input with
    | .failure message =>
      showLine message
      loopIn c none rest
    | .line t =>
      match ← treatLine c pending t with
      | .stop => return rest
      | .read pending => loopIn c pending rest

/-- Treat lines on a screen. -/
def loop (c : Config) : Option Text → List Input → Screen (List Input) := loopIn c

end TinyScript.Console
