import TinyScript.Heap.Object

/-!
# The heap

An arena of slots. A slot in use holds an object; it is threaded, in the order of allocation, into a list that runs
from `head` to `tail` through `next`, and backwards through `prev`. The slot that was freed last is the next to be used
again. Each use gives a slot a new generation, so a reference from an earlier use is told apart. Generations wrap around
and skip zero. Objects start out marked, so that they survive the next sweep, or as roots, which survive every sweep.
-/

namespace TinyScript

/-- What the collector knows about an object. -/
inductive Flag where
  | unmarked
  | marked
  | root
  deriving DecidableEq, Inhabited, Repr

def Flag.name : Flag → Text
  | unmarked => "unmarked"
  | marked => "marked"
  | root => "root"

/-- The name of the flag with a number. -/
def flagName : Nat → Text
  | 0 => Flag.unmarked.name
  | 1 => Flag.marked.name
  | 2 => Flag.root.name
  | n => "gcflag(" ++ Text.ofNat n ++ ")"

/-- A slot of the heap. -/
structure Slot where
  object : Option Object := none
  gen : UInt32 := 0
  flag : Flag := .unmarked
  /-- The slot allocated next, among those in use. -/
  next : Option Nat := none
  /-- The slot allocated before, among those in use. -/
  prev : Option Nat := none
  deriving Inhabited, Repr

structure Heap where
  slots : Array Slot := #[]
  /-- The slots out of use, the one freed last in front. -/
  free : List Nat := []
  head : Option Nat := none
  tail : Option Nat := none
  live : Nat := 0
  deriving Inhabited, Repr

namespace Heap

/-- The heap without any slot. -/
def empty : Heap := {}

def nextGen (g : UInt32) : UInt32 := if g + 1 = 0 then 1 else g + 1

/-- The slot that a reference names, if the reference is valid. -/
def slot? (h : Heap) (r : Ref) : Option Slot :=
  if r.gen = 0 then none
  else
    match h.slots[r.index]? with
    | some s => if s.object.isSome && s.gen = r.gen then some s else none
    | none => none

/-- The object that a reference names. -/
def get? (h : Heap) (r : Ref) : Option Object := (h.slot? r).bind Slot.object

def valid (h : Heap) (r : Ref) : Bool := (h.slot? r).isSome

/-- The flag of the object that a reference names. -/
def flag? (h : Heap) (r : Ref) : Option Flag := (h.slot? r).map Slot.flag

def modify (h : Heap) (i : Nat) (f : Slot → Slot) : Heap := { h with slots := h.slots.modify i f }

/-- Replace the object that a reference names, if it is valid. -/
def set (h : Heap) (r : Ref) (o : Object) : Heap :=
  if h.valid r then h.modify r.index fun s => { s with object := some o } else h

/-- Put an object into a slot that is out of use, behind the newest one. -/
def link (h : Heap) (i : Nat) (o : Object) (isRoot : Bool) : Heap × Ref :=
  let gen := nextGen ((h.slots[i]?.map Slot.gen).getD 0)
  let tail := h.tail
  let slot : Slot := ⟨some o, gen, if isRoot then .root else .marked, none, tail⟩
  let h := h.modify i fun _ => slot
  let h := match tail with
    | some t => h.modify t fun s => { s with next := some i }
    | none => { h with head := some i }
  ({ h with tail := some i, live := h.live + 1 }, ⟨i, gen⟩)

/-- Allocate an object, in the slot freed last or else in a new one. -/
def alloc (h : Heap) (o : Object) (isRoot : Bool) : Heap × Ref :=
  match h.free with
  | i :: rest => { h with free := rest }.link i o isRoot
  | [] =>
    let i := h.slots.size
    { h with slots := h.slots.push {} }.link i o isRoot

/-- Make an object a root, or let a root be an ordinary object that survives one sweep. -/
def setRoot? (h : Heap) (r : Ref) (isRoot : Bool) : Option Heap :=
  match h.slot? r with
  | none => none
  | some s =>
    if isRoot then some (h.modify r.index fun s => { s with flag := .root })
    else if s.flag = .root then some (h.modify r.index fun s => { s with flag := .marked })
    else some h

/-- Take a slot out of use. -/
def unlink (h : Heap) (i : Nat) : Heap :=
  match h.slots[i]? with
  | none => h
  | some ⟨_, _, _, next, prev⟩ =>
    let h := match prev with
      | some p => h.modify p fun t => { t with next := next }
      | none => { h with head := next }
    let h := match next with
      | some n => h.modify n fun t => { t with prev := prev }
      | none => { h with tail := prev }
    let h := h.modify i fun t => { t with object := none, flag := .unmarked, next := none, prev := none }
    { h with free := i :: h.free, live := h.live - 1 }

/-- The indices reached by following `next`, at most `fuel` of them, behind those in `acc`, which come
last first. -/
def threadFrom (h : Heap) : Nat → Option Nat → List Nat → List Nat
  | 0, _, acc => acc.reverse
  | _ + 1, none, acc => acc.reverse
  | fuel + 1, some i, acc => h.threadFrom fuel ((h.slots[i]?).bind Slot.next) (i :: acc)

/-- The slots in use, in the order of allocation. -/
def order (h : Heap) : List Nat := h.threadFrom h.slots.size h.head []

/-- The objects in the order of allocation, with their references and flags. -/
def objects (h : Heap) : List (Ref × Object × Flag) :=
  h.order.filterMap fun i =>
    match h.slots[i]? with
    | some s => s.object.map fun o => (⟨i, s.gen⟩, o, s.flag)
    | none => none

end Heap

end TinyScript
