import TinyScript.Console.Flag
import TinyScript.Machine.Program

/-!
# Settings

What the command line can set, with the rules between settings, and the machine that settings ask for.
-/

namespace TinyScript.Console

structure Config where
  /-- Where to write a profile of the time spent. -/
  cpuProfile : Text := ""
  /-- Where to write a profile of the memory used. -/
  memProfile : Text := ""
  exitOnFail : Bool := false
  command : Text := ""
  /-- Whether functions that reach outside are left out. -/
  sandboxed : Bool := false
  quiet : Bool := false
  trace : Bool := false
  /-- Whether lines are read without an editor. -/
  plainInput : Bool := false
  /-- The least time between collections, in nanoseconds. -/
  gcInterval : Int := 100000
  maxDepth : Int := 50000
  treeInput : Bool := false
  /-- Whether the syntax tree is printed instead of running the program. -/
  dumpTree : Bool := false
  /-- Whether results are shown in tagged form. -/
  tagged : Bool := true
  prompt : Text := ""
  rest : List Text := []
  deriving Inhabited, Repr

/-- Why settings do not go together. -/
inductive ConfigError where
  | depth (n : Int)
  /-- A syntax tree cannot be given as a command. -/
  | treeCommand
  | nothingToDump
  deriving DecidableEq, Inhabited, Repr

def ConfigError.message : ConfigError → Text
  | depth n => "-maxdepth must be at least 1, got " ++ Text.ofInt n
  | treeCommand => "-ast reads a file; it cannot be combined with -c"
  | nothingToDump => "-dumpast needs a script file or -c"

namespace Config

def specs : List FlagSpec :=
  [⟨"cpuprofile", .text⟩, ⟨"memprofile", .text⟩, ⟨"exitonfail", .bool⟩, ⟨"c", .text⟩, ⟨"sandbox", .bool⟩,
   ⟨"quiet", .bool⟩, ⟨"trace", .bool⟩, ⟨"noliner", .bool⟩, ⟨"gcinterval", .duration⟩, ⟨"maxdepth", .int⟩,
   ⟨"ast", .bool⟩, ⟨"dumpast", .bool⟩, ⟨"debug", .bool⟩]

def set (c : Config) (name : Text) (v : FlagValue) : Config :=
  match v with
  | .text t =>
    if name = "cpuprofile" then { c with cpuProfile := t }
    else if name = "memprofile" then { c with memProfile := t }
    else { c with command := t }
  | .bool b =>
    if name = "exitonfail" then { c with exitOnFail := b }
    else if name = "sandbox" then { c with sandboxed := b }
    else if name = "quiet" then { c with quiet := b }
    else if name = "trace" then { c with trace := b }
    else if name = "noliner" then { c with plainInput := b }
    else if name = "ast" then { c with treeInput := b }
    else if name = "dumpast" then { c with dumpTree := b }
    else { c with tagged := b }
  | .int i => { c with maxDepth := i }
  | .duration ns => { c with gcInterval := ns }

/-- The settings that arguments ask for. -/
def ofArgs (args : List Text) (prompt : Text) : Except FlagError Config := do
  let (flags, rest) ← parseFlags specs args.length args []
  let c : Config := flags.foldl (fun c f => c.set f.1 f.2) { prompt := prompt }
  return { c with rest := rest }

/-- The prompt when none is given. -/
def defaultPrompt : Text := "bee> "

/-- The settings with a prompt in any case. -/
def withPrompt (c : Config) : Config := if c.prompt.isEmpty then { c with prompt := defaultPrompt } else c

/-- Check that settings go together. -/
def validate (c : Config) : Except ConfigError Unit :=
  if c.maxDepth < 1 then .error (.depth c.maxDepth)
  else if c.treeInput && !c.command.isEmpty then .error .treeCommand
  else if c.dumpTree && c.command.isEmpty && c.rest.isEmpty then .error .nothingToDump
  else .ok ()

/-- When a machine collects; `elapsed` tells at which moments the interval has passed. -/
def pacing (c : Config) (elapsed : Moment → Bool) : Pacing :=
  if c.gcInterval = 0 then .always else if c.gcInterval < 0 then .never else .timed elapsed

/-- The machine that settings ask for. -/
def machine (c : Config) (elapsed : Moment → Bool) : Machine :=
  Machine.boot (if c.sandboxed then Builtin.sandboxed else Builtin.all)
    { pacing := c.pacing elapsed, maxDepth := c.maxDepth }

/-- The form in which results are shown. -/
def style (c : Config) : Style := if c.tagged then .tagged else .plain

end Config

end TinyScript.Console
