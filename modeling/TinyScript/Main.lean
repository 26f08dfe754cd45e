import Std.Time.DateTime.Timestamp
import TinyScript.Console.CommandLine

/-!
# The command

The console on the streams and files of the process. All decisions are made by `TinyScript.Console`; here
lines are read, events are written, and files are copied between the disk and the machine.
-/

namespace TinyScript.Console

def toBytes (t : Text) : ByteArray := ⟨t.bytes.toArray⟩

def ofBytes (bs : ByteArray) : Text := ⟨bs.toList⟩

/-- More calls than any run begins. -/
def unlimited : Nat := 0x4000000000000000

/-- When it is time to collect. The clock is not read within a phase; the interval is taken to have passed
when the number of objects has doubled since the last collection. -/
def elapsed (t : Moment) : Bool := 2 * t.totals.live + 1000 < t.heap.live

def writeEvent (prompt : Text) (e : Event) : IO Unit := do
  match e with
  | .warned t =>
    let err ← IO.getStderr
    err.write (toBytes (t ++ "\n"))
  | e =>
    let out ← IO.getStdout
    out.write (toBytes (e.text prompt))
    out.flush

/-- The content of a file on the disk. -/
def diskFile? (path : Text) : IO (Option Text) := do
  match path.toString? with
  | none => return none
  | some name =>
    try return some (ofBytes (← IO.FS.readBinFile name))
    catch _ => return none

/-- Copy files from the disk to a machine. The result tells whether there were any. -/
def fetch (paths : List Text) (m : Machine) : IO (Bool × Machine) :=
  paths.foldlM (fun (found, m) path => do
    if m.files.isFile path then return (found, m)
    match ← diskFile? path with
    | some data => return (true, { m with files := m.files.provide path data })
    | none => return (found, m)) (false, m)

/-- Copy the files that changed to the disk. -/
def store (before after : Machine) : IO Unit := do
  let old := before.files.toList
  for (path, data) in after.files.toList do
    unless old.contains (path, data) do
      if let some name := path.toString? then
        try IO.FS.writeBinFile name (toBytes data)
        catch _ => pure ()

def setClock (m : Machine) : IO Machine := do
  let now ← Std.Time.Timestamp.now
  return { m with clock := now.toNanosecondsSinceUnixEpoch.val.toNat.toUInt64 }

/-- The stack of the process: as many jobs as can be under way at once. -/
def stackRoom : Nat := 2000000

/-- Run a phase and write its events. When it looked for files that are on the disk, it is run again with
them. The process ends with the phase if the stack overflows. -/
partial def runPhase {α : Type} (c : Config) (x : Screen α) (m : Machine) : ExceptT Status IO (α × Machine) := do
  let m ← setClock m
  match x.runWithin ⟨unlimited, stackRoom⟩ [] { m with missed := [] } with
  | none => throw .aborted
  | some (ended, events, after) =>
    let (found, fetched) ← fetch after.missed m
    if found then return ← runPhase c x fetched
    events.reverse.forM fun e => writeEvent c.prompt e
    store m after
    return (← ended, after)

/-- Read a line, without what ends it. There is none at the end of the stream. -/
def readLine? : IO (Option Text) := do
  let line ← (← IO.getStdin).getLine
  if line.isEmpty then return none
  let t := Text.ofString line
  return some (if t.endsWithByte 10 then closedLine ⟨t.bytes.dropLast⟩ else t)

/-- Read and treat lines. -/
partial def readLines (c : Config) (pending : Option Text) (m : Machine) : ExceptT Status IO Machine := do
  writeEvent c.prompt (.prompt pending.isSome)
  match ← readLine? with
  | none => return m
  | some t =>
    match ← runPhase c (treatLine c pending t) m with
    | (.stop, m) => return m
    | (.read pending, m) => readLines c pending m

/-- Run as settings say. -/
def start (c : Config) : ExceptT Status IO Status := do
  let (_, m) ← fetch (c.rest.take 1) { machine c elapsed with seed := (← IO.rand 0 unlimited).toUInt64 }
  match ← runPhase c (begin c) m with
  | (.exit s, _) => return s
  | (.finish, m) => return (← runPhase c (finish c) m).1
  | (.interact, m) =>
    match ← runPhase c (greet c (← (← IO.getStdin).isTty)) m with
    | (.exit s, _) => return s
    | (_, m) =>
      let m ← readLines c none m
      return (← runPhase c (finish c) m).1

end TinyScript.Console

open TinyScript Console in
def main (args : List String) : IO UInt32 := do
  match settings (args.map Text.ofString) with
  | .error r =>
    r.events.forM (writeEvent Text.empty)
    return r.status.code.toUInt32
  | .ok c =>
    match ← (start c).run with
    | .ok s => return s.code.toUInt32
    | .error s => return s.code.toUInt32
