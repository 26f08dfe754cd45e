import TinyScript.Heap.Basic
import TinyScript.Heap.Frame
import TinyScript.Host.Files

/-!
# The machine

Everything that evaluation reads and changes: the heap, the frames, the references pinned by
evaluations under way, the depth of calls, what was printed, the files, and the settings. An `Act` is
an action on the machine that calls no function of the language; such calls are the business of
`TinyScript.Machine.Eval`.
-/

namespace TinyScript

/-- Counts of one collection, or of all of them. -/
structure Collection where
  cycles : Nat := 0
  marked : Nat := 0
  collected : Nat := 0
  live : Nat := 0
  deriving DecidableEq, Inhabited, Repr

/-- What references are looked up in and held by at one moment, and what was collected so far. No two
allocations of a run are made at the same moment: either there was a collection in between, or there are more
objects. -/
structure Moment where
  heap : Heap
  frames : Frames
  pins : Array Ref
  totals : Collection
  deriving Inhabited

/-- When an allocation is preceded by a collection. -/
inductive Pacing where
  | always
  | never
  /-- When enough time has passed since the last one; `elapsed` tells at which moments it has. -/
  | timed (elapsed : Moment → Bool)
  deriving Inhabited

/-- Whether there is a collection before an allocation at a moment. -/
def Pacing.due : Pacing → Moment → Bool
  | always, _ => true
  | never, _ => false
  | timed elapsed, t => elapsed t

/-- The state of an interpreter. What it `printed` and its `notes` are kept latest first. -/
structure Machine where
  heap : Heap := .empty
  frames : Frames := .initial
  /-- References held by evaluations under way, the latest last. -/
  pins : Array Ref := #[]
  totals : Collection := {}
  depth : Nat := 0
  /-- How many calls may be under way; no bound if not positive. -/
  maxDepth : Int := 50000
  pacing : Pacing := .timed fun _ => false
  unit : Ref := .zero
  nil : Ref := .zero
  /-- The definitions so far, if there were any. -/
  program : Option Syntax.Program := none
  printed : List Text := []
  refusesOutput : Bool := false
  verbose : Bool := false
  notes : List Text := []
  files : Host.Files := {}
  /-- Paths where a file was looked for and is not. -/
  missed : List Text := []
  /-- The state of the random number generator. -/
  seed : UInt64 := 0
  clock : UInt64 := 0
  deriving Inhabited

/-- An action on the machine. -/
abbrev Act := StateM Machine

namespace Machine

/-- The message of a reference that is not valid. -/
def staleMessage : Text := "stale or invalid object reference"

/-- The object that a reference names; a reference that is not valid reads as an error. -/
def object (m : Machine) (r : Ref) : Object := (m.heap.get? r).getD (.error staleMessage)

def kind (m : Machine) (r : Ref) : Kind := (m.object r).kind

def output (m : Machine) : Text := Text.concat m.printed.reverse

def moment (m : Machine) : Moment := ⟨m.heap, m.frames, m.pins, m.totals⟩

def liveFrames (m : Machine) : Nat := m.frames.registered.length

end Machine

namespace Act

/-- Take a note, if notes are taken. -/
def note (t : Text) : Act Unit := modify fun m =>
  if m.verbose then { m with notes := t :: m.notes } else m

/-- The object that a reference names. -/
def object (r : Ref) : Act Object := do return (← get).object r

/-- Print a text. The result tells whether that was possible. -/
def print (t : Text) : Act Bool := do
  if (← get).refusesOutput then return false
  modify fun m => { m with printed := t :: m.printed }
  return true

/-- How far a reading moves the clock, in nanoseconds. -/
def clockTick : UInt64 := 1000

/-- Read the clock. Every reading moves it forward, so no two are the same. -/
def readClock : Act UInt64 := modifyGet fun m =>
  let now := m.clock + clockTick
  (now, { m with clock := now })

/-- Whether a path names a file. A path that does not is remembered. -/
def isFile (path : Text) : Act Bool := modifyGet fun m =>
  if m.files.isFile path then (true, m) else (false, { m with missed := path :: m.missed })

/-! ## Pins -/

def pinMark : Act Nat := do return (← get).pins.size

def pin (r : Ref) : Act Unit := modify fun m => { m with pins := m.pins.push r }

def pinAll (rs : List Ref) : Act Unit := modify fun m => { m with pins := m.pins ++ rs }

/-- Pin another reference in place of the one at an index. -/
def repin (i : Nat) (r : Ref) : Act Unit := modify fun m =>
  { m with pins := m.pins.setIfInBounds i r }

/-- Drop the pins from an index on. -/
def unpinTo (mark : Nat) : Act Unit := modify fun m => { m with pins := m.pins.shrink mark }

/-! ## Frames -/

/-- Make a registered frame below another. -/
def fork (parent : FrameId) : Act FrameId := modifyGet fun m =>
  let (frames, f) := m.frames.fork parent
  (f, { m with frames := frames })

def bind (f : FrameId) (name : Text) (r : Ref) : Act Unit := modify fun m =>
  { m with frames := m.frames.bind f name r }

/-- Replace or add a binding of a frame. -/
def assign (f : FrameId) (name : Text) (r : Ref) : Act Unit := modify fun m =>
  { m with frames := m.frames.set f name r }

/-- What a name is bound to, seen from a frame. -/
def resolve? (f : FrameId) (name : Text) : Act (Option Ref) := do
  return (← get).frames.resolve? f name

/-- Leave a frame. Leaving the global frame also forgets the definitions. -/
def leave (f : FrameId) : Act Unit := modify fun m =>
  { m with
    frames := m.frames.leave f
    program := if f = Frames.global then none else m.program }

/-- The arguments of a native call: the items of the list bound to `args` in its frame. -/
def args (f : FrameId) : Act (List Ref) := do
  let m ← get
  match m.frames.resolveLocal? f "args" with
  | none => return []
  | some r =>
    match m.heap.get? r with
    | some (.list items) => return items
    | _ => return []

end Act

end TinyScript
