import TinyScript.Proofs.Collect.Reachability

/-!
# What is held

At a moment the references that are held are the pins, what the global frame and the registered frames
with the frames above them bind, the roots, and whatever the objects that they name refer to, directly or
through captured names. A moment is sound if all of these are valid: nothing dangles.

Unlike a search for reachable objects, this does not stop at a reference that is not valid; it counts as
held.
-/

namespace TinyScript

namespace Moment

/-- The references that are held. -/
inductive Held (t : Moment) : Ref → Prop
  | pinned {r : Ref} : r ∈ t.pins → Held t r
  | global {b : Text × Ref} : b ∈ t.frames.binds Frames.global → Held t b.2
  | registered {f g : FrameId} {b : Text × Ref} : f ∈ t.frames.registered → t.frames.Above f g →
    b ∈ t.frames.binds g → Held t b.2
  | root {r : Ref} : t.heap.flag? r = some .root → Held t r
  | part {r s : Ref} {o : Object} : Held t r → t.heap.get? r = some o → s ∈ o.children → Held t s
  | captured {r : Ref} {o : Object} {f g : FrameId} {b : Text × Ref} : Held t r →
    t.heap.get? r = some o → o.closure? = some f → t.frames.Above f g → b ∈ t.frames.binds g → Held t b.2

/-- No reference that is held dangles. -/
def Sound (t : Moment) : Prop := ∀ r, t.Held r → t.heap.valid r

/-- Nothing dangles, and the heap threads its slots. -/
structure Safe (t : Moment) : Prop where
  wellFormed : t.heap.WellFormed
  sound : t.Sound

end Moment

/-- There is a collection before every allocation that is made at a safe moment. -/
def Pacing.Eager (p : Pacing) : Prop := ∀ t : Moment, t.Safe → p.due t

/-- There are no collections. -/
def Pacing.Idle (p : Pacing) : Prop := ∀ t : Moment, p.due t = false

theorem Pacing.Idle.not_due {p : Pacing} (hp : p.Idle) {t : Moment} : ¬ p.due t := by
  rw [hp t]
  exact Bool.false_ne_true

end TinyScript
