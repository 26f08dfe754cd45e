import TinyScript.Machine.State

/-!
# Collection and allocation

`mark` goes through the objects reachable from the seeds: roots and new objects, what the global frame and the
registered frames with their parents bind, and the pins. No frame is gone through twice. `sweep` frees what was not
reached and makes every survivor that is no root unmarked. It follows the links between the slots in use while it
takes slots out.

Allocations consult the pacing first. What an allocation is going to refer to must be pinned, or
reachable in another way, when it is made.
-/

namespace TinyScript

/-- The progress of a search for reachable objects. -/
structure Marking where
  heap : Heap
  seen : Array Bool
  passed : Array Bool
  /-- Slots reached whose parts are still to be looked at. -/
  gray : List Nat := []
  marked : Nat := 0

namespace Marking

/-- Mark an object, unless it is marked or a root. -/
def markSlot (k : Marking) (i : Nat) : Marking :=
  if k.heap.slots[i]?.any fun s => s.flag = .unmarked then
    { k with heap := k.heap.modify i fun s => { s with flag := .marked }, marked := k.marked + 1 }
  else k

/-- Reach what a reference names. -/
def visit (k : Marking) (r : Ref) : Marking :=
  if k.heap.valid r && !k.seen.getD r.index true then
    { k with seen := k.seen.setIfInBounds r.index true, gray := r.index :: k.gray }.markSlot r.index
  else k

/-- Reach what several references name. -/
def visitAll (k : Marking) (rs : List Ref) : Marking := rs.foldl visit k

/-- Reach the objects that are not unmarked, from a slot on, at most `fuel` of them. -/
def visitFlagged : Nat → Option Nat → Marking → Marking
  | fuel + 1, some i, k =>
    match k.heap.slots[i]? with
    | some s => visitFlagged fuel s.next (if s.flag = .unmarked then k else k.visit ⟨i, s.gen⟩)
    | none => k
  | _, _, k => k

/-- Reach what a frame and the frames above it bind, up to the first one that was gone through. At most `fuel`
frames are. -/
def visitFrame (fs : Frames) : Nat → FrameId → Marking → Marking
  | 0, _, k => k
  | fuel + 1, f, k =>
    if k.passed.getD f true then k
    else
      let k := { k with passed := k.passed.setIfInBounds f true }.visitAll ((fs.binds f).map Prod.snd)
      match fs.above? f with
      | some p => visitFrame fs fuel p k
      | none => k

/-- Look at the parts of objects reached, at most `fuel` objects. -/
def drain (fs : Frames) : Nat → Marking → Marking
  | 0, k => k
  | fuel + 1, k =>
    match k.gray with
    | [] => k
    | i :: gray =>
      let k := { k with gray := gray }
      match (k.heap.slots[i]?).bind Slot.object with
      | none => drain fs fuel k
      | some o =>
        let k := k.visitAll o.children
        let k := match o.closure? with
          | some f => k.visitFrame fs fs.arena.size f
          | none => k
        drain fs fuel k

end Marking

namespace Machine

/-- The search for the objects that are reachable. -/
def marking (m : Machine) : Marking :=
  let k : Marking :=
    { heap := m.heap, seen := .replicate m.heap.slots.size false, passed := .replicate m.frames.arena.size false }
  let k := k.visitFlagged m.heap.slots.size m.heap.head
  let k := (Frames.global :: m.frames.registered).foldl (fun k f => k.visitFrame m.frames m.frames.arena.size f) k
  (k.visitAll m.pins.toList).drain m.frames m.heap.slots.size

/-- Mark every reachable object, and count those that were unmarked. -/
def mark (m : Machine) : Machine × Nat :=
  let k := m.marking
  ({ m with heap := k.heap }, k.marked)

/-- Free a slot. A function that is freed takes its captured names with it. -/
def free (m : Machine) (i : Nat) : Machine :=
  let closure := ((m.heap.slots[i]?).bind Slot.object).bind Object.closure?
  let frames := match closure with
    | some f => m.frames.leave f
    | none => m.frames
  { m with heap := m.heap.unlink i, frames := frames }

/-- Free a slot that is unmarked, unmark one that is marked, and leave a root alone. The result tells whether
the slot was freed. -/
def sweepSlot (m : Machine) (i : Nat) : Machine × Bool :=
  match m.heap.slots[i]? with
  | none => (m, false)
  | some s =>
    match s.flag with
    | .unmarked => (m.free i, true)
    | .marked => ({ m with heap := m.heap.modify i fun s => { s with flag := .unmarked } }, false)
    | .root => (m, false)

/-- Treat the slots in use from one on, at most `fuel` of them, and add up those that were freed. Which slot
comes next is settled before a slot is treated. -/
def walkFrom (treat : Machine → Nat → Machine × Bool) : Nat → Option Nat → Machine × Nat → Machine × Nat
  | fuel + 1, some i, mn =>
    let next := (mn.1.heap.slots[i]?).bind Slot.next
    let treated := treat mn.1 i
    walkFrom treat fuel next (treated.1, if treated.2 then mn.2 + 1 else mn.2)
  | _, _, mn => mn

/-- Treat all slots in use, in the order of allocation. -/
def walk (m : Machine) (treat : Machine → Nat → Machine × Bool) : Machine × Nat :=
  walkFrom treat m.heap.slots.size m.heap.head (m, 0)

/-- Free every unmarked object and unmark the others that are no roots. The result counts the freed
ones. -/
def sweep (m : Machine) : Machine × Nat := m.walk sweepSlot

/-- Free every object, and count them. -/
def releaseAll (m : Machine) : Machine × Nat := m.walk fun m i => (m.free i, true)

end Machine

/-- A finished collection in words. -/
def Collection.message (c : Collection) (number : Nat) : Text :=
  "gc cycle " ++ Text.ofNat number ++ ": marked=" ++ Text.ofNat c.marked ++ " collected="
    ++ Text.ofNat c.collected ++ " live=" ++ Text.ofNat c.live

namespace Act

def markAll : Act Nat := modifyGet fun m =>
  let (m, n) := m.mark
  (n, m)

def sweep : Act Nat := modifyGet fun m =>
  let (m, n) := m.sweep
  (n, m)

def forceCollect : Act Collection := do
  let marked ← markAll
  let collected ← sweep
  let cycle : Collection := ⟨1, marked, collected, (← get).heap.live⟩
  modify fun m => { m with totals :=
    ⟨m.totals.cycles + 1, m.totals.marked + marked, m.totals.collected + collected, cycle.live⟩ }
  note (cycle.message (← get).totals.cycles)
  return cycle

/-- Mark and sweep if the pacing says so. -/
def collect : Act Collection := do
  let m ← get
  if m.pacing.due m.moment then forceCollect else return {}

/-- Allocate an object without any collection. -/
def allocRaw (o : Object) (isRoot : Bool) : Act Ref := modifyGet fun m =>
  let (heap, r) := m.heap.alloc o isRoot
  (r, { m with heap := heap })

/-- Allocate an object, after a collection if it is time for one. -/
def alloc (o : Object) : Act Ref := do
  let _ ← collect
  allocRaw o false

/-- Allocate an object while its parts are pinned. -/
def allocHolding (o : Object) (parts : List Ref) : Act Ref := do
  let mark ← pinMark
  pinAll parts
  let r ← alloc o
  unpinTo mark
  return r

def newUnit : Act Ref := alloc .unit

def newBool (b : Bool) : Act Ref := alloc (.ofBool b)

def newU64 (w : UInt64) : Act Ref := alloc (.u64 w)

def newI64 (w : UInt64) : Act Ref := alloc (.i64 w)

def newInt (i : Int) : Act Ref := alloc (.ofInt i)

def newF64 (w : UInt64) : Act Ref := alloc (.f64 w)

def newString (t : Text) : Act Ref := alloc (.string t)

def newError (t : Text) : Act Ref := alloc (.error t)

def newPair (h t : Ref) : Act Ref := allocHolding (.pair h t) [h, t]

def newList (items : List Ref) : Act Ref := allocHolding (.list items) items

def newDict : Act Ref := alloc (.dict .empty)

/-- Give a key of a dict a value. Something that is no dict is left alone. -/
def dictPut (d : Ref) (key : Text) (value : Ref) : Act Unit := do
  match (← get).heap.get? d with
  | some (.dict t) =>
    let (t, growth) := t.put key value
    modify fun m => { m with heap := m.heap.set d (.dict t) }
    match growth with
    | some g => note g.message
    | none => return ()
  | _ => return ()

/-- Remove a key of a dict. The result tells whether the dict had it. -/
def dictErase (d : Ref) (key : Text) : Act Bool := do
  match (← get).heap.get? d with
  | some (.dict t) =>
    match t.erase? key with
    | some t =>
      modify fun m => { m with heap := m.heap.set d (.dict t) }
      return true
    | none => return false
  | _ => return false

/-- Register a primitive operation as a function in the global frame. -/
def addFunction (name : Text) (op : Primitive) : Act Unit := do
  let r ← allocRaw (.function ⟨name, .native op⟩) true
  assign Frames.global name r

/-- Free every object and forget all bindings, frames and pins. -/
def close : Act Unit := do
  modify fun m => m.releaseAll.1
  leave Frames.global
  modify fun m => { m with frames := { m.frames with registered := [] }, pins := #[] }

end Act

end TinyScript
