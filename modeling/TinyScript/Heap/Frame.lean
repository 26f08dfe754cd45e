import TinyScript.Heap.Object

/-!
# Frames

A frame is a list of names bound to references, below a parent frame; the global frame has no parent.
Frames live in an arena and are named by their index, the global frame being the first. A frame made
for an evaluation is registered until it is left, and the collector takes what registered frames bind
to be reachable. The frame of a function's captured names is not registered: the function keeps it.

Within a frame the earliest binding of a name counts.
-/

namespace TinyScript

structure Frame where
  /-- The frame below which this one is; none for the global frame. -/
  parent : Option FrameId := none
  /-- The bindings, in the order they were made. -/
  binds : List (Text × Ref) := []
  deriving Inhabited, Repr

/-- All frames ever made. -/
structure Frames where
  arena : Array Frame
  /-- The registered frames, the one made last in front. -/
  registered : List FrameId
  deriving Inhabited, Repr

namespace Frames

def global : FrameId := 0

/-- Just the global frame, without any binding. -/
def initial : Frames := ⟨#[{}], []⟩

def binds (fs : Frames) (f : FrameId) : List (Text × Ref) := (fs.arena[f]?.map Frame.binds).getD []

def parent? (fs : Frames) (f : FrameId) : Option FrameId := (fs.arena[f]?).bind Frame.parent

/-- The frame above a frame. There is none above the global one. -/
def above? (fs : Frames) (f : FrameId) : Option FrameId := if f = global then none else fs.parent? f

/-- Make a frame below another and register it. -/
def fork (fs : Frames) (parent : FrameId) : Frames × FrameId :=
  let id := fs.arena.size
  (⟨fs.arena.push ⟨some parent, []⟩, id :: fs.registered⟩, id)

/-- Make a frame below the global one without registering it. -/
def newClosure (fs : Frames) (binds : List (Text × Ref)) : Frames × FrameId :=
  let id := fs.arena.size
  (⟨fs.arena.push ⟨some global, binds⟩, fs.registered⟩, id)

def modifyBinds (fs : Frames) (f : FrameId) (g : List (Text × Ref) → List (Text × Ref)) : Frames :=
  { fs with arena := fs.arena.modify f fun fr => { fr with binds := g fr.binds } }

/-- Add bindings behind those of a frame. -/
def bindAll (fs : Frames) (f : FrameId) (bs : List (Text × Ref)) : Frames := fs.modifyBinds f (· ++ bs)

def bind (fs : Frames) (f : FrameId) (name : Text) (r : Ref) : Frames := fs.bindAll f [(name, r)]

/-- Replace the first binding of a name, or add one. -/
def setIn (name : Text) (r : Ref) : List (Text × Ref) → List (Text × Ref)
  | [] => [(name, r)]
  | b :: bs => if b.1 = name then (name, r) :: bs else b :: setIn name r bs

/-- Replace the first binding of a name in a frame, or add one. -/
def set (fs : Frames) (f : FrameId) (name : Text) (r : Ref) : Frames := fs.modifyBinds f (setIn name r)

/-- What a name is bound to in a frame itself. -/
def resolveLocal? (fs : Frames) (f : FrameId) (name : Text) : Option Ref :=
  ((fs.binds f).find? fun b => b.1 = name).map Prod.snd

/-- The frames from `f` upwards, at most `fuel` of them. -/
def chainFrom (fs : Frames) : Nat → FrameId → List FrameId
  | 0, _ => []
  | fuel + 1, f =>
    f :: match fs.parent? f with
      | some p => fs.chainFrom fuel p
      | none => []

/-- The frames from `f` upwards. No frame is above itself, so there are no more than the arena has. -/
def chain (fs : Frames) (f : FrameId) : List FrameId := fs.chainFrom (fs.arena.size + 1) f

/-- What a name is bound to in the nearest frame that binds it, looking at most `fuel` frames up. -/
def resolveWithin (fs : Frames) (name : Text) : Nat → FrameId → Option Ref
  | 0, _ => none
  | fuel + 1, f =>
    match fs.resolveLocal? f name with
    | some r => some r
    | none =>
      match fs.parent? f with
      | some p => fs.resolveWithin name fuel p
      | none => none

/-- What a name is bound to in the nearest frame that binds it. -/
def resolve? (fs : Frames) (f : FrameId) (name : Text) : Option Ref :=
  fs.resolveWithin name (fs.arena.size + 1) f

/-- The bindings of all frames from `f` up to the global one, which is left out, nearest first. -/
def capturedFrom (fs : Frames) (f : FrameId) : List (Text × Ref) :=
  ((fs.chain f).takeWhile (· ≠ global)).flatMap fs.binds

/-- Add the bindings of another frame behind those of a frame. -/
def capture (fs : Frames) (f source : FrameId) : Frames := fs.bindAll f (fs.binds source)

/-- Add the bindings of all frames from `source` up to the global one, which is left out, nearest first. -/
def captureChain (fs : Frames) (f source : FrameId) : Frames :=
  ((fs.chain source).takeWhile (· ≠ global)).foldl (fun fs g => fs.capture f g) fs

/-- Drop the bindings of a frame and unregister it. -/
def leave (fs : Frames) (f : FrameId) : Frames :=
  let fs := fs.modifyBinds f fun _ => []
  { fs with registered := fs.registered.erase f }

end Frames

end TinyScript
