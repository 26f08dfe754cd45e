import TinyScript.Console.Run

/-!
# The command line

The whole of a run: arguments become settings, or are refused; then a command or a script is run, or the
console reads lines; and the run ends with a status. The phases are separate functions, so that they can be
joined by a reader of lines that waits for them, or, as in `run`, on a text that is there from the start. A phase
that the stack of the process has no room for ends the run at once.
-/

namespace TinyScript.Console

/-- How a run ends. -/
inductive Status where
  | success
  /-- A command failed, or settings do not go together. -/
  | failed
  /-- Flags cannot be read, or there is no terminal. -/
  | refused
  /-- A script failed that must not, or a profile cannot be written. -/
  | aborted
  | overflowed
  deriving DecidableEq, Inhabited, Repr

def Status.code : Status → Nat
  | success => 0
  | failed => 1
  | refused => 2
  | aborted => 255
  | overflowed => 2

/-- The version: the names of a release and of a revision with a slash between them. Both are empty. -/
def version : Text := "/"

/-! ## Help -/

/-- The text that introduces the flags. -/
def usageTitle : Text := "Usage of bee:"

/-- The text that introduces the flags after bad settings. -/
def helpTitle : Text := "bee command line help:"

/-- The flags with what they are for, by name. -/
def usage : List Text :=
  let line (name : String) (what : String) : Text := "  -" ++ name ++ "\n    \t" ++ what
  [line "ast" "the script file holds a json encoded program instead of source text",
   line "c string" "program text to run",
   line "cpuprofile string" "write cpu profile to file",
   line "debug" "print results in tagged form, e.g. i64(3) (default true)",
   line "dumpast" "print the parsed program as json and exit",
   line "exitonfail" "exit on failure instead of starting repl",
   line "gcinterval duration"
     "minimum time between collections; 0 collects on every allocation, negative never (default 100µs)",
   line "maxdepth int" "maximum nested call depth (default 50000)",
   line "memprofile string" "write mem profile to file",
   line "noliner" "read stdin line by line instead of using the line editor",
   line "quiet" "start repl without printing the version/mode/help banner",
   line "sandbox" "run sandboxed; disallow filesystem functions",
   line "trace" "trace the collector and evaluator (very verbose)"]

/-! ## Settings -/

/-- A run that ends before there is a machine. -/
structure Refusal where
  events : List Event
  status : Status
  deriving Inhabited, Repr

/-- The refusal of flags. Asking for help is not an error. -/
def Refusal.ofFlags : FlagError → Refusal
  | .help => ⟨(usageTitle :: usage).map .warned, .success⟩
  | e => ⟨(e.message :: usageTitle :: usage).map .warned, .refused⟩

/-- The refusal of settings. -/
def Refusal.ofConfig (e : ConfigError) : Refusal :=
  ⟨[.warned ("bee command line error: " ++ e.message.quoted), .shown (helpTitle ++ "\n")]
    ++ usage.map .warned, .failed⟩

/-- The settings that arguments ask for. -/
def settings (args : List Text) : Except Refusal Config := do
  let c ← (Config.ofArgs args Text.empty).mapError .ofFlags
  c.validate.mapError .ofConfig
  return c.withPrompt

/-- The machine of a run: the one that settings ask for, with the extensions. -/
def machine (c : Config) (elapsed : Moment → Bool) : Machine :=
  ((Act.addFunctions Builtin.extensions).run { c.machine elapsed with verbose := c.trace }).2

/-! ## Phases -/

/-- What follows a phase. -/
inductive Phase where
  | interact
  | finish
  | exit (status : Status)
  deriving DecidableEq, Inhabited, Repr

/-- Make the file of a profile, if there is to be one. The result tells whether that was possible. -/
def openProfile (path : Text) : Screen Bool := do
  if path.isEmpty then return true
  match ← (Act.writeFile path Text.empty : Eval _) with
  | .ok () => return true
  | .error e =>
    showLine e.message
    return false

/-- Run the command or the script. -/
def begin (c : Config) : Screen Phase := do
  unless ← openProfile c.cpuProfile do return .exit .aborted
  if !c.command.isEmpty then
    match ← (runCommand c c.command).run with
    | .ok () => return .exit .success
    | .error e =>
      emit (.warned e.message)
      return .exit .failed
  match c.rest with
  | [] => return .interact
  | path :: _ =>
    match ← (runScript c path).run with
    | .ok () => return .finish
    | .error e =>
      emit (.warned e.message)
      if c.exitOnFail then return .exit .aborted
      return if c.dumpTree then .finish else .interact

/-- The message when lines are to be edited and there is no terminal. -/
def noTerminal : Text := "panic: inappropriate ioctl for device"

/-- Greet, and see whether lines can be read. -/
def greet (c : Config) (terminal : Bool) : Screen Phase := do
  unless c.quiet do
    showLine ("bee " ++ (if c.sandboxed then "[sandbox mode] " else "") ++ "version " ++ version)
    showLine "press tab (repeatedly) to get completion suggestions. Ctrl-d to exit."
  if c.plainInput || terminal then return .interact
  emit (.warned noTerminal)
  return .exit .refused

/-- Finish the profiles. -/
def finish (c : Config) : Screen Status := do
  if ← openProfile c.memProfile then return .success
  return .aborted

/-! ## The whole -/

/-- What a process may take. -/
structure Limits where
  budget : Nat
  room : Nat

/-- The message when the stack overflows. -/
def stackExceeded : Text := "runtime: goroutine stack exceeds 1000000000-byte limit"

/-- Run a screen in a process. What became visible until the stack overflows is kept. There is no result if the
budget is used up. -/
def Screen.runWithin {α : Type} (x : Screen α) (l : Limits) (events : List Event) (m : Machine) :
    Option (Except Status α × List Event × Machine) :=
  match (x.run events).runWithin l.budget l.room m with
  | .ok ((a, events), m) => some (.ok a, events, m)
  | .error (.overflow m) => some (.error .overflowed, .warned stackExceeded :: (pending m ++ events), m)
  | .error .budget => none

/-- Screens one after another in a process, which may end early. -/
abbrev Process := ReaderT Limits (ExceptT Status (StateT (List Event × Machine) Option))

instance : MonadLift Screen Process where
  monadLift x := fun l => ExceptT.mk fun s => x.runWithin l s.1 s.2

/-- Greet and read lines until there are no more. -/
def interact (c : Config) (lines : List Input) : Process Status := do
  match ← greet c false with
  | .exit s => return s
  | _ =>
    let _ ← loopIn c none lines
    finish c

/-- Run as settings say. -/
def session (c : Config) (lines : List Input) : Process Status := do
  match ← begin c with
  | .exit s => return s
  | .finish => finish c
  | .interact => interact c lines

/-- What a run leaves behind. -/
structure Outcome where
  stdout : Text
  warnings : List Text
  status : Status
  deriving Inhabited, Repr

/-- An outcome from events, the first one first. -/
def Outcome.ofEvents (prompt : Text) (events : List Event) (status : Status) : Outcome where
  stdout := Text.concat (events.map (Event.text prompt))
  warnings := events.filterMap fun e =>
    match e with
    | .warned t => some t
    | _ => none
  status := status

/-- Run the command on arguments, a text to read from and files. There is no result if the budget is used up. -/
def run (l : Limits) (elapsed : Moment → Bool) (args : List Text) (stdin : Text) (files : Host.Files) :
    Option Outcome :=
  match settings args with
  | .error r => some (.ofEvents Text.empty r.events r.status)
  | .ok c => do
    let m := { machine c elapsed with files := files }
    let (ended, events, _) ← (session c (inputLines stdin)).run l ([], m)
    let status := match ended with
      | .ok s => s
      | .error s => s
    return .ofEvents c.prompt events.reverse status

end TinyScript.Console
