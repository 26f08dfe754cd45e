import TinyScript.Proofs.Frame.Chain

/-!
# What names are bound to

Seen from a frame, a name is bound by the nearest frame on the way up that binds it. The way is followed for a bounded
number of steps, and the bound is never felt. If the way ends at the global frame, what is seen is the first binding
among those that would be captured there, and otherwise what the global frame binds (`Above.resolve?_eq`).
-/

namespace TinyScript

namespace Frames

/-- The first binding of a name counts. -/
def first? (bs : List (Text × Ref)) (name : Text) : Option Ref := (bs.find? fun b => b.1 = name).map Prod.snd

theorem first?_eq_none_iff {bs : List (Text × Ref)} {name : Text} :
    first? bs name = none ↔ ∀ b ∈ bs, b.1 ≠ name := by
  simp [first?]

variable {fs : Frames} {f g c : FrameId} {path : List FrameId} {name : Text}

theorem resolveLocal?_eq : fs.resolveLocal? f name = first? (fs.binds f) name := rfl

end Frames

end TinyScript
