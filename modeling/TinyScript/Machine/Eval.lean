import TinyScript.Machine.Builtin
import TinyScript.Machine.Literal
import TinyScript.Machine.Operator

/-!
# Evaluation

An `Eval` program acts on the machine and may ask for jobs: evaluating an expression in a frame, applying a function,
or the next round of a loop over a generator. `body` says what a job does in terms of further jobs. `Step.exec` runs
jobs with an explicit stack that may grow without bound; its budget counts the jobs begun and ended. In a process the
stack has an end: `Step.execWithin` runs jobs as long as there is room for them. The machine's limit bounds how many
calls are under way at once, but not how many jobs.

Results of subexpressions are pinned until the expression around them is done. Failures are error objects.
-/

namespace TinyScript

open Syntax (Expr)

/-- How the items of a loop are treated. -/
structure Loop where
  env : FrameId
  handle : Text
  filter : Option Expr
  body : Expr

/-- What a loop has gathered. -/
inductive Tally where
  | collected (results : List Ref)
  /-- A value threaded through under a name, and the index of its pin. -/
  | carried (name : Text) (slot : Nat) (value : Ref)

/-- What an evaluation can ask for. -/
inductive Job where
  | eval (env : FrameId) (e : Expr)
  | apply (fn : Ref) (args : List Ref)
  /-- Ask a generator for the next item of a loop; its state is pinned at an index. -/
  | pull (loop : Loop) (generator : Function) (slot : Nat) (state : Ref) (tally : Tally)

/-- An evaluation that is done, or asks for a job. -/
inductive Step (α : Type) where
  | done (a : α) (m : Machine)
  | call (job : Job) (m : Machine) (k : Ref → Machine → Step α)

/-- Go on with the result of an evaluation. -/
def Step.bind {α β : Type} : Step α → (α → Machine → Step β) → Step β
  | done a m, f => f a m
  | call job m k, f => call job m fun r m => (k r m).bind f

/-- A program that acts on the machine and asks for jobs. -/
def Eval (α : Type) := Machine → Step α

namespace Eval

instance : Monad Eval where
  pure a := fun m => .done a m
  bind x f := fun m => (x m).bind f

instance : MonadLift Act Eval where
  monadLift act := fun m =>
    let (a, m) := act.run m
    .done a m

def request (job : Job) : Eval Ref := fun m => .call job m fun r m => .done r m

def eval (env : FrameId) (e : Expr) : Eval Ref := request (.eval env e)

/-- Evaluate an expression and pin the result. -/
def evalPinned (env : FrameId) (e : Expr) : Eval Ref := do
  let r ← eval env e
  Act.pin r
  return r

/-- Evaluate expressions and pin the results; `acc` holds those before, the latest first. -/
def evalItems (env : FrameId) : List Expr → List Ref → Eval (List Ref)
  | [], acc => return acc.reverse
  | e :: es, acc => do
    let r ← evalPinned env e
    evalItems env es (r :: acc)

/-! ## Calls -/

/-- The time after which a function is no longer applied over and over, in nanoseconds. -/
def maxTiming : UInt64 := 10000000000

/-- Apply a function over and over, until the time is up. The result counts the calls and gives the time
they took since `start`. An error ends this early and is the result. -/
def applyTimes (fn : Ref) (start : UInt64) : Nat → Nat → UInt64 → Eval (Except Ref (Nat × UInt64))
  | 0, calls, elapsed => return .ok (calls, elapsed)
  | n + 1, calls, _ => do
    let r ← request (.apply fn [])
    if (← Act.object r).isError then return .error r
    let elapsed := (← Act.readClock) - start
    if elapsed > maxTiming then return .ok (calls + 1, elapsed)
    applyTimes fn start n (calls + 1) elapsed

/-- The number of times that a function is timed. -/
def defaultTimes : Nat := 10000

/-- The function to time, and how often. -/
def timingArgs (args : List Ref) : ExceptT CallFault Act (Ref × Nat) := do
  match args with
  | fn :: rest =>
    if rest.length > 1 then throw .timingNeeded
    match ← Act.object fn with
    | .function _ =>
      match rest with
      | [] => return (fn, defaultTimes)
      | n :: _ => return (fn, ← Act.positiveArg .countNeeded n)
    | _ => throw .functionNeeded
  | [] => throw .timingNeeded

/-- A time in nanoseconds as a number of seconds. -/
def seconds (t : UInt64) : UInt64 := Binary64.ofRatio false t.toNat 1000000000

/-- Time a function. The result is the average number of seconds. -/
def timeit (name : Text) (args : List Ref) : Eval Ref := do
  match ← (timingArgs args).run with
  | .error e => Act.newError (e.message name)
  | .ok (fn, n) =>
    match ← applyTimes fn (← Act.readClock) n 0 0 with
    | .error e => return e
    | .ok (calls, elapsed) =>
      let total := seconds elapsed
      let average := Binary64.div total (Binary64.ofInt calls)
      let _ ← Act.print ("ran " ++ Text.ofNat calls ++ " iterations in " ++ Binary64.fixed total ++ " seconds\n")
      let _ ← Act.print ("average " ++ Binary64.fixed average ++ " seconds per run\n")
      Act.newF64 average

/-- Run a primitive in the frame of its call. -/
def native (op : Primitive) (frame : FrameId) (name : Text) : Eval Ref := do
  let args ← Act.args frame
  match op with
  | .timeit => timeit name args
  | op => Act.settle name (Act.primitive op name args)

def modifyDepth (f : Nat → Nat) : Act Unit := modify fun m => { m with depth := f m.depth }

/-- Run a function whose call is within the limit. -/
def runFunction (fn : Function) (name : Text) (args : List Ref) : Eval Ref := do
  match fn.code with
  | .native op =>
    let frame ← Act.fork Frames.global
    let list ← Act.newList args
    Act.bind frame "args" list
    let r ← native op frame fn.name
    Act.leave frame
    let unit := (← getThe Machine).unit
    return if r.isZero then unit else r
  | .script params body closure =>
    if args.length ≠ params.length then
      Act.newError ("function " ++ name.quoted ++ " expects " ++ Text.ofNat params.length
        ++ " arguments, got " ++ Text.ofNat args.length)
    else
      let frame ← Act.fork (closure.getD Frames.global)
      modifyThe Machine fun m => { m with frames := m.frames.bindAll frame (params.zip args) }
      let r ← eval frame body
      Act.leave frame
      return r

/-- Call a function by a name with arguments that are pinned. -/
def callFunction (fn : Function) (name : Text) (args : List Ref) : Eval Ref := do
  modifyDepth (· + 1)
  let m ← getThe Machine
  let limit := m.maxDepth
  let depth := m.depth
  let r ← if 0 < limit && limit < depth then
      (Act.newError ("maximum call depth " ++ Text.ofInt limit ++ " exceeded calling " ++ name.quoted)
        : Eval Ref)
    else runFunction fn name args
  modifyDepth (· - 1)
  return r

/-- Apply a function object to arguments. -/
def apply (fn : Ref) (args : List Ref) : Eval Ref := do
  let mark ← Act.pinMark
  Act.pinAll (fn :: args)
  let r ← match ← Act.object fn with
    | .function f => callFunction f f.name args
    | o => (Act.newError ("cannot call " ++ o.kind.name) : Eval Ref)
  Act.unpinTo mark
  return r

/-- Evaluate arguments up to the first error; `acc` holds those before, the latest first. -/
def evalArgs (env : FrameId) : List Expr → List Ref → Eval (Except Ref (List Ref))
  | [], acc => return .ok acc.reverse
  | e :: es, acc => do
    let r ← evalPinned env e
    if (← Act.object r).isError then return .error r
    evalArgs env es (r :: acc)

/-- Call the function that a name is bound to. -/
def evalCall (env : FrameId) (callee : Text) (args : List Expr) : Eval Ref := do
  match ← Act.resolve? env callee with
  | none => Act.newError ("undefined function " ++ callee.quoted)
  | some fn =>
    Act.pin fn
    match ← Act.object fn with
    | .function f =>
      match ← evalArgs env args [] with
      | .error e => return e
      | .ok refs => callFunction f callee refs
    | o => Act.newError (callee.quoted ++ " is not a function but " ++ o.kind.name)

/-! ## Loops -/

/-- Whether an item passes the filter of a loop. The value of a filter that is an error stops the loop. -/
def passes (frame : FrameId) : Option Expr → Eval (Except Ref Bool)
  | none => return .ok true
  | some filter => do
    let r ← eval frame filter
    match ← Act.object r with
    | .error _ => return .error r
    | .function _ => return .ok true
    | o => return .ok o.truthy

/-- Evaluate the body of a loop for an item that passed. -/
def visitBody (loop : Loop) (frame : FrameId) (tally : Tally) : Eval (Ref × Tally) := do
  let r ← eval frame loop.body
  let failed := (← Act.object r).isError
  match tally with
  | .collected results =>
    if failed then return (r, tally)
    Act.pin r
    return (.zero, .collected (r :: results))
  | .carried name slot _ =>
    Act.repin slot r
    return (if failed then r else .zero, .carried name slot r)

/-- Evaluate the body of a loop in the frame of an item that passes the filter. An error of the filter
stops the loop. -/
def visitPassing (loop : Loop) (frame : FrameId) (tally : Tally) : Eval (Ref × Tally) := do
  match ← passes frame loop.filter with
  | .error e => return (e, tally)
  | .ok false => return (.zero, tally)
  | .ok true => visitBody loop frame tally

/-- Treat one item of a loop, in a frame of its own. A reference other than zero stops the loop and is its
result. -/
def visit (loop : Loop) (item : Ref) (tally : Tally) : Eval (Ref × Tally) := do
  let frame ← Act.fork loop.env
  Act.bind frame loop.handle item
  match tally with
  | .collected _ => pure ()
  | .carried name _ value => Act.bind frame name value
  let result ← visitPassing loop frame tally
  Act.leave frame
  return result

/-- The result of a loop that was stopped, or went through. -/
def finish (stop : Ref) (tally : Tally) : Eval Ref :=
  if !stop.isZero then return stop
  else
    match tally with
    | .collected results => Act.newList results.reverse
    | .carried _ _ value => return value

/-- Go through the items of a list. -/
def visitAll (loop : Loop) : List Ref → Tally → Eval Ref
  | [], tally => finish .zero tally
  | item :: items, tally => do
    let (stop, tally) ← visit loop item tally
    if !stop.isZero then return stop
    visitAll loop items tally

/-- Ask a generator for an item and treat it. The generator is called with its state, at first a unit and
then the pair it gave last; a pair with a head that counts as true goes on with its tail as the item. -/
def pull (loop : Loop) (generator : Function) (slot : Nat) (state : Ref) (tally : Tally) : Eval Ref := do
  let step ← callFunction generator "generator" [state]
  match ← Act.object step with
  | .error _ => finish step tally
  | .pair head tail =>
    if !(← Act.object head).truthy then finish .zero tally
    else
      Act.repin slot step
      let (stop, tally) ← visit loop tail tally
      if !stop.isZero then return stop
      request (.pull loop generator slot step tally)
  | _ => finish .zero tally

/-- Run a loop over what an expression gives. -/
def evalLoop (loop : Loop) (iter : Expr) (tally : Tally) : Eval Ref := do
  let r ← evalPinned loop.env iter
  match ← Act.object r with
  | .error _ => finish r tally
  | .list items => visitAll loop items tally
  | .function f =>
    let state ← Act.newUnit
    let slot ← Act.pinMark
    Act.pin state
    request (.pull loop f slot state tally)
  | o => Act.newError ("cannot iterate over type " ++ o.kind.name)

/-! ## Expressions -/

def evalLit (kind : Syntax.LitKind) (raw : Text) : Act Ref := do
  match kind with
  | .number =>
    match Literal.number? raw with
    | some o => Act.alloc o
    | none => Act.newError ("invalid number literal " ++ raw.quoted)
  | .string => Act.newString raw.unquote
  | .bool => Act.newBool (raw = "true")
  | .nil => return (← get).nil
  | .unit => Act.newUnit
  | .other _ => Act.newError ("unknown literal kind " ++ kind.name)

/-- Bind the values of assignments, all evaluated in the frame outside. -/
def evalAssigns (env frame : FrameId) : List (Text × Expr) → Eval Unit
  | [] => return ()
  | (name, e) :: rest => do
    let r ← eval env e
    Act.bind frame name r
    evalAssigns env frame rest

/-- The branch of the first condition that holds. -/
def evalConds (env : FrameId) (otherwise : Expr) : List (Expr × Expr) → Eval Ref
  | [] => eval env otherwise
  | (cond, branch) :: rest => do
    let r ← eval env cond
    match ← Act.object r with
    | .unit => Act.newError "cannot evaluate condition for unit type"
    | .error _ => return r
    | o => if o.truthy then eval env branch else evalConds env otherwise rest

/-- Put the values of entries into a dict. -/
def evalEntries (env : FrameId) (d : Ref) : List (Text × Expr) → Eval Unit
  | [] => return ()
  | (key, e) :: rest => do
    let r ← eval env e
    Act.dictPut d key r
    evalEntries env d rest

/-- A function with copies of the bindings that are visible here, the global ones left out. -/
def evalLambda (env : FrameId) (params : List Text) (body : Expr) : Act Ref := do
  let closure ← modifyGet fun m =>
    let (frames, f) := m.frames.newClosure (m.frames.capturedFrom env)
    (f, { m with frames := frames })
  Act.alloc (.function ⟨Text.empty, .script params body (some closure)⟩)

/-- Bind a function in the global frame. A function of that name before it is no root any more. -/
def define (d : Syntax.Def) : Act Ref := do
  let r ← Act.allocRaw (.function ⟨d.name, .script d.params d.body none⟩) true
  modify fun m =>
    match m.frames.resolveLocal? Frames.global d.name with
    | none => m
    | some old =>
      match m.heap.setRoot? old false with
      | some heap => { m with heap := heap }
      | none => m
  Act.assign Frames.global d.name r
  return r

/-- Evaluate the outermost node of an expression. -/
def evalNode (env : FrameId) (e : Expr) : Eval Ref := do
  match e with
  | .lit kind raw => evalLit kind raw
  | .lookup name =>
    match ← Act.resolve? env name with
    | some r => return r
    | none => Act.newError ("undefined variable " ++ name.quoted)
  | .bin op left right =>
    let l ← evalPinned env left
    let r ← evalPinned env right
    Act.applyBinary op l r
  | .unary op right =>
    let r ← evalPinned env right
    Act.applyUnary op r
  | .letIn assigns body =>
    let frame ← Act.fork env
    evalAssigns env frame assigns
    let r ← eval frame body
    Act.leave frame
    return r
  | .ifElse conds otherwise => evalConds env otherwise conds
  | .call callee args => evalCall env callee args
  | .list items =>
    let refs ← evalItems env items []
    Act.newList refs
  | .dict entries =>
    let d ← Act.newDict
    Act.pin d
    evalEntries env d entries
    return d
  | .lambda params body => evalLambda env params body
  | .forIn handle iter filter body => evalLoop ⟨env, handle, filter, body⟩ iter (.collected [])
  | .reduce carry init handle iter filter body =>
    let value ← eval env init
    let slot ← Act.pinMark
    Act.pin value
    evalLoop ⟨env, handle, filter, body⟩ iter (.carried carry slot value)
  | .define name params body => define ⟨name, params, body⟩
  | .missing => Act.newError "missing expression"

def body : Job → Eval Ref
  | .eval env e => do
    let mark ← Act.pinMark
    let r ← evalNode env e
    Act.unpinTo mark
    return r
  | .apply fn args => apply fn args
  | .pull loop generator slot state tally => pull loop generator slot state tally

end Eval

/-! ## Running -/

/-- Run an evaluation under a stack of what is to be done with its result, the innermost first. -/
def Step.exec : Nat → Step Ref → List (Ref → Machine → Step Ref) → Option (Ref × Machine)
  | 0, _, _ => none
  | _ + 1, done r m, [] => some (r, m)
  | n + 1, done r m, k :: ks => (k r m).exec n ks
  | n + 1, call job m k, ks => (Eval.body job m).exec n (k :: ks)

/-- Run a program step by step; each job may take the whole budget. -/
def Step.run {α : Type} (budget : Nat) : Step α → Option (α × Machine)
  | done a m => some (a, m)
  | call job m k =>
    match (Eval.body job m).exec budget [] with
    | some (r, m) => (k r m).run budget
    | none => none

/-- Run a program. There is no result if a job exceeds the budget. -/
def Eval.run {α : Type} (x : Eval α) (budget : Nat) (m : Machine) : Option (α × Machine) :=
  (x m).run budget

/-- Why an evaluation was broken off. -/
inductive Stop where
  | budget
  /-- A job was asked for and the stack had no room for it. The machine is the one at that time. -/
  | overflow (m : Machine)

/-- Run an evaluation as `exec` does, with room for a number of jobs besides those on the stack. -/
def Step.execWithin : Nat → Nat → Step Ref → List (Ref → Machine → Step Ref) → Except Stop (Ref × Machine)
  | 0, _, _, _ => .error .budget
  | _ + 1, _, done r m, [] => .ok (r, m)
  | n + 1, room, done r m, k :: ks => (k r m).execWithin n (room + 1) ks
  | n + 1, room + 1, call job m k, ks => (Eval.body job m).execWithin n room (k :: ks)
  | _ + 1, 0, call _ m _, _ => .error (.overflow m)

/-- Run a program step by step, with room for a number of jobs at once. -/
def Step.runWithin {α : Type} (budget room : Nat) : Step α → Except Stop (α × Machine)
  | done a m => .ok (a, m)
  | call job m k =>
    match room with
    | 0 => .error (.overflow m)
    | left + 1 =>
      match (Eval.body job m).execWithin budget left [] with
      | .ok (r, m) => (k r m).runWithin budget room
      | .error e => .error e

/-- Run a program in a process whose stack has room for a number of jobs at once. -/
def Eval.runWithin {α : Type} (x : Eval α) (budget room : Nat) (m : Machine) : Except Stop (α × Machine) :=
  (x m).runWithin budget room

end TinyScript
