import TinyScript.Regex.Parser

/-!
# Searching

An expression becomes a list of instructions, and a search runs all its ways through the text side by side,
one character at a time. The threads are kept in the order of preference, those that began earlier first,
and no two threads are at the same instruction. When a thread is done, the threads behind it are dropped. So
the leftmost match is found, and of those the preferred one.
-/

namespace TinyScript.Regex

inductive Inst where
  | take (s : CharSet) (next : Nat)
  | check (p : Place) (next : Nat)
  /-- Go on in two ways, of which the first is preferred. -/
  | split (first second : Nat)
  | done
  deriving Inhabited, Repr

/-- The building of a list of instructions. -/
abbrev Build := StateM (Array Inst)

/-- Add an instruction; the result is where it stands. -/
def emit (i : Inst) : Build Nat := modifyGet fun prog => (prog.size, prog.push i)

/-- Two ways in the order of preference. -/
def choice (greedy : Bool) (more stop : Nat) : Inst :=
  if greedy then .split more stop else .split stop more

/-- A loop around a body; the results are where the loop decides and where the body begins. -/
def emitLoop (greedy : Bool) (body : Nat → Build Nat) (next : Nat) : Build (Nat × Nat) := do
  let at_ ← emit .done
  let entry ← body at_
  modify fun prog => prog.setIfInBounds at_ (choice greedy entry next)
  return (at_, entry)

mutual

/-- Instructions for a simplified expression that go on at `next`; the result is where they begin. -/
def compile : Regex → Nat → Build Nat
  | .empty, next => return next
  | .chars s, next => emit (.take s next)
  | .place p, next => emit (.check p next)
  | .seq rs, next => compileSeq rs next
  | .alt rs, next => compileAlt rs next
  | .group r, next => compile r next
  | .repeated min max greedy r, next =>
    if max = some 1 then do
      let entry ← compile r next
      emit (choice greedy entry next)
    else do
      let (at_, entry) ← emitLoop greedy (fun n => compile r n) next
      if min = 0 then
        if r.nullable then emit (choice greedy entry next) else return at_
      else return entry

/-- Instructions for expressions one after the other. -/
def compileSeq : List Regex → Nat → Build Nat
  | [], next => return next
  | r :: rs, next => do
    let rest ← compileSeq rs next
    compile r rest

def compileAlt : List Regex → Nat → Build Nat
  | [], next => return next
  | [r], next => compile r next
  | r :: rs, next => do
    let first ← compile r next
    let second ← compileAlt rs next
    emit (.split first second)

end

/-- Instructions and where they begin. -/
structure Prog where
  code : Array Inst
  entry : Nat
  deriving Inhabited, Repr

/-- The instructions for an expression. -/
def Prog.ofRegex (r : Regex) : Prog :=
  let build : Build Nat := do compile r.simplify (← emit .done)
  let (entry, code) := build.run #[]
  ⟨code, entry⟩

/-- A way through the text that is being followed. -/
structure Thread where
  pc : Nat
  start : Nat

/-- Threads at one place of the text. -/
structure Threads where
  seen : Array Bool
  list : List Thread

namespace Prog

/-- Follow a thread to the instructions that take a character or are done. Every instruction is visited
once, so `fuel` need not exceed their number. -/
def follow (p : Prog) (before after : Option Nat) (start : Nat) : Nat → Nat → Threads → Threads
  | 0, _, ts => ts
  | fuel + 1, pc, ts =>
    if ts.seen.getD pc true then ts
    else
      let ts : Threads := ⟨ts.seen.setIfInBounds pc true, ts.list⟩
      match p.code[pc]? with
      | some (.split a b) =>
        p.follow before after start fuel b (p.follow before after start fuel a ts)
      | some (.check q next) =>
        if q.holds before after then p.follow before after start fuel next ts else ts
      | some (.take ..) | some .done => ⟨ts.seen, ⟨pc, start⟩ :: ts.list⟩
      | none => ts

/-- Let threads, the most preferred first, take a character. The results are the best match so far and
where the threads go on, the most preferred first. -/
def advance (p : Prog) (pos : Nat) (c : Option Nat) :
    List Thread → Option (Nat × Nat) → List Thread → Option (Nat × Nat) × List Thread
  | [], best, acc => (best, acc.reverse)
  | t :: ts, best, acc =>
    match p.code[t.pc]?, c with
    | some .done, _ => (some (t.start, pos), acc.reverse)
    | some (.take s next), some c =>
      p.advance pos (some c) ts best (if s.contains c then ⟨next, t.start⟩ :: acc else acc)
    | _, c => p.advance pos c ts best acc

/-- Search through characters given with their sizes in bytes. -/
def run (p : Prog) :
    Nat → Option Nat → List (Nat × Nat) → List Thread → Option (Nat × Nat) → Option (Nat × Nat)
  | pos, before, cs, going, best =>
    let after := cs.head?.map Prod.fst
    let fuel := p.code.size + 1
    let fresh : Threads := ⟨Array.replicate p.code.size false, []⟩
    let ts := going.foldl (fun ts t => p.follow before after t.start fuel t.pc ts) fresh
    let ts := if best.isNone then p.follow before after pos fuel p.entry ts else ts
    let (best, going) := p.advance pos after ts.list.reverse best []
    match cs with
    | [] => best
    | (c, size) :: cs =>
      if going.isEmpty && best.isSome then best else p.run (pos + size) (some c) cs going best

end Prog

/-- Where the first match of an expression in a text begins and ends, counted in bytes. -/
def find? (r : Regex) (t : Text) : Option (Nat × Nat) :=
  let cs := t.decode.map fun c => ((c.1.getD Text.replacement).toNat, c.2)
  (Prog.ofRegex r).run 0 none cs [] none

end TinyScript.Regex
