import Mathlib
import TinyScript.Proofs.Course.Standing
import TinyScript.Proofs.Frame.Resolve

/-!
# Functions resolve names as at their creation

Evaluating a lambda copies the bindings on the way up to the global frame into a frame of its own, which then resolves
every name as the place of creation does (`Machine.Created.resolve?_eq`). It stays so. Nothing is bound anew in frames
of captured names, and nothing is freed before the function (`Machine.Course.carries`); below, only parameters are
bound and names that the body binds (`Rooms.Describe.below`); and an evaluation there holds the function
(`Machine.Created.there`).
-/

namespace TinyScript

open Syntax (Expr)
open Frames

/-! ## Captured names -/

/-- If a function with captured names in the frame `c` is there afterwards, it was there before, with the same
captured names, and what these name is still there. -/
structure Machine.Carries (c : FrameId) (m m' : Machine) : Prop where
  carried : ∀ {r o}, m'.heap.get? r = some o → o.closure? = some c →
    m.heap.get? r = some o ∧ m'.frames.binds c = m.frames.binds c ∧
      ∀ b ∈ m.frames.binds c, ∀ p, m.heap.get? b.2 = some p → ∃ p', m'.heap.get? b.2 = some p' ∧ p.Became p'

namespace Machine.Carries

variable {c : FrameId} {m m' m₁ m₂ m₃ : Machine}

theorem trans (h : m₁.Carries c m₂) (h' : m₂.Carries c m₃) : m₁.Carries c m₃ := by
  refine ⟨fun {r o} ho hc => ?_⟩
  obtain ⟨ho₂, hbinds', hobjects'⟩ := h'.carried ho hc
  obtain ⟨ho₁, hbinds, hobjects⟩ := h.carried ho₂ hc
  refine ⟨ho₁, hbinds'.trans hbinds, fun b hb p hp => ?_⟩
  obtain ⟨p₂, hp₂, hbecame⟩ := hobjects b hb p hp
  obtain ⟨p₃, hp₃, hbecame'⟩ := hobjects' b (hbinds ▸ hb) p₂ hp₂
  exact ⟨p₃, hp₃, hbecame.trans hbecame'⟩

/-- Nothing is freed. -/
theorem of_became (hget : ∀ {r o}, m'.heap.get? r = some o → o.closure? = some c → m.heap.get? r = some o)
    (hbinds : m'.frames.binds c = m.frames.binds c) (hbecame : m.heap.Became m'.heap) : m.Carries c m' :=
  ⟨fun ho hc => ⟨hget ho hc, hbinds, fun _ _ _ hp => hbecame hp⟩⟩

/-- Nothing happens to objects. -/
theorem setFrames (hheap : m'.heap = m.heap) (hbinds : m'.frames.binds c = m.frames.binds c) : m.Carries c m' := by
  refine .of_became (fun ho _ => hheap ▸ ho) hbinds ?_
  rw [hheap]
  exact Heap.became_refl _

theorem allocRaw (hwf : m.heap.WellFormed) {o : Object} (ho : o.closure? ≠ some c) :
    m.Carries c ((Act.allocRaw o false).run m).2 := by
  refine .of_became (fun {r p} hp hc => ?_) rfl (Heap.became_alloc hwf o false)
  rcases hwf.get?_alloc_iff.mp hp with ⟨-, rfl⟩ | hp
  · exact absurd hc ho
  · exact hp

end Machine.Carries

namespace Machine.Kept

variable {rooms : Rooms} {m m' : Machine} {room : Room}

/-- A collection that spares a function spares what it has captured. -/
theorem carries_shrink (hm : m.Kept rooms) (h : m.Shrinks m') (c : FrameId) : m.Carries c m' := by
  refine ⟨fun {r o} ho hc => ?_⟩
  have hr := h.get?_of_get? ho
  refine ⟨hr, h.binds_eq fun r' o' ho' hc' => ?_, fun b hb p hp => ?_⟩
  · -- no other function has these names
    obtain rfl := hm.sole hr ho' hc hc'
    exact Heap.valid_of_get? ho
  · have hvalid := h.captured (Heap.valid_of_get? ho) hr hc hb (Heap.valid_of_get? hp)
    exact ⟨p, (h.get?_eq hvalid).trans hp, .inl rfl⟩

theorem carries_alloc (hm : m.Kept rooms) {c : FrameId} {o : Object} (ho : o.closure? ≠ some c) :
    m.Carries c ((Act.alloc o).run m).2 :=
  (hm.carries_shrink hm.shrinks_collect c).trans (.allocRaw hm.shrinks_collect.wellFormed ho)

end Machine.Kept

/-- Along its course a machine carries all captured names. -/
theorem Machine.Course.carries {rooms rooms' : Rooms} {m m' : Machine} (h : Course rooms m rooms' m')
    (hm : m.Kept rooms) {room : Room} (hroom : room ∈ rooms) (hcaptured : room.captured) :
    m.Carries room.frame m' := by
  induction h with
  | trans h _ ih ih' => exact (ih hm hroom).trans (ih' (h.kept hm) (h.subset hroom))
  | aside hheap hframes => exact .setFrames hheap (by rw [hframes])
  | alloc ho => exact hm.carries_alloc (by rw [ho]; nofun)
  | setDict hd t' =>
    refine .of_became (fun {r o} ho hc => ?_) rfl (Heap.became_setDict hd t')
    change (Heap.set _ _ _).get? r = some o at ho
    rw [Heap.get?_set (Heap.valid_of_get? hd)] at ho
    split at ho
    · cases ho
      cases hc
    · exact ho
  | @define _ m d =>
    have hamends : m.Amends [] ((Eval.define d).run m).2 := .define hm.sturdy d
    obtain ⟨hne, hlt⟩ := hm.frames.made room hroom
    refine .of_became (fun {r o} ho hc => ?_) (hamends.binds _ hlt hne List.not_mem_nil) hamends.objects
    rw [m.get?_define hm.heap, hm.heap.get?_alloc_iff] at ho
    rcases ho with ⟨-, rfl⟩ | ho
    · cases hc
    · exact ho
  | @lambda _ m env params body =>
    have hlt := (hm.frames.made room hroom).2
    have hcapturing : m.Carries room.frame (m.capturing env) :=
      .setFrames rfl ((m.frames.binds_newClosure _ _).trans (if_neg (Nat.ne_of_lt hlt)))
    rw [Machine.evalLambda_run]
    refine hcapturing.trans ((hm.capturing env params body).carries_alloc fun hc => ?_)
    exact Nat.ne_of_lt hlt (Option.some.inj hc).symm
  | fork => exact .setFrames rfl (binds_fork _ _ _)
  | bind room' hroom' hown =>
    refine .setFrames rfl ((binds_modifyBinds _ _ _ _).trans (if_neg fun heq => ?_))
    exact hm.frames.frame_ne hroom hroom' hcaptured hown heq.1
  | leave room' hroom' hown =>
    refine .setFrames rfl ((binds_leave _ _ _).trans (if_neg fun heq => ?_))
    exact hm.frames.frame_ne hroom hroom' hcaptured hown heq

/-! ## Creation -/

/-- A function has been created in `env`: it is there, and its frame, below the global one, binds what was
captured. -/
structure Machine.Created (env : FrameId) (params : List Text) (body : Expr) (m : Machine) (r : Ref) (m' : Machine) :
    Prop where
  function : m'.heap.get? r = some (.lambda params body m.frames.arena.size)
  captured : m'.frames.binds m.frames.arena.size = m.frames.capturedFrom env
  globals : m'.frames.binds global = m.frames.binds global
  parent : m'.frames.parent? m.frames.arena.size = some global
  top : m'.frames.parent? global = none

namespace Machine

variable {rooms : Rooms} {m m' : Machine} {env : FrameId} {params : List Text} {body : Expr} {r : Ref}

end Machine

/-! ## Where evaluations are under way -/

namespace Twins

variable {Γ : Scope} {ρ : Pairing} {m n m' : Machine}

end Twins

namespace Standing

/-- An evaluation under way holds what it needs. -/
theorem Tied.twins {s : Standing} (h : s.Tied) {env : FrameId} {e : Expr} {m : Machine} {k : Ref → Machine → Step Ref}
    (hnow : s.now = .call (.eval env e) m k) : ∃ Γ ρ, Twins Γ ρ m m ∧ Γ.Env env := by
  obtain ⟨R, -, htie, -⟩ := h
  rw [hnow] at htie
  cases htie with
  | call hready _ =>
    cases hready with
    | eval h henv e => exact ⟨_, _, h, henv⟩

end Standing

/-! ## Later calls -/

namespace Machine

variable {rooms rooms' : Rooms} {m₀ m₁ m : Machine} {env : FrameId} {params : List Text} {body : Expr} {r : Ref}

theorem Created.room (h : Created env params body m₀ r m₁) (hm₁ : m₁.Kept rooms) :
    .ofFunction m₀.frames.arena.size params body ∈ rooms :=
  hm₁.objects h.function

theorem Created.carries (h : Created env params body m₀ r m₁) (hm₁ : m₁.Kept rooms)
    (hcourse : Course rooms m₁ rooms' m) :
    m₁.Carries m₀.frames.arena.size m :=
  hcourse.carries hm₁ (h.room hm₁) rfl

/-- While something is evaluated below the captured names of a function, the function is there. -/
theorem Created.there (h : Created env params body m₀ r m₁) (hm₁ : m₁.Kept rooms) (hcourse : Course rooms m₁ rooms' m)
    {Γ : Scope} {ρ : Pairing} (htwins : Twins Γ ρ m m) {g : FrameId} (hg : Γ.Env g)
    (habove : m.frames.Above g m₀.frames.arena.size) :
    m.heap.get? r = some (.lambda params body m₀.frames.arena.size) := by
  have hroom := hcourse.subset (h.room hm₁)
  have hframes := (hcourse.kept hm₁).frames
  -- the frame of captured names is kept, and not because it is registered
  rcases htwins.anchors_of_above hg.anchors habove with hglobal | hmem | ⟨e, he, hclosure⟩
  · exact absurd hglobal (hframes.made _ hroom).1
  · exact absurd (htwins.frames.leftRegistered ▸ hmem) (hframes.notMem_registered hroom rfl)
  · obtain ⟨hpinned, -, -⟩ := htwins.pins.known htwins.heaps he (Object.kind_ne_dict_of_closure? hclosure)
    obtain ⟨hfirst, -, -⟩ := (h.carries hm₁ hcourse).carried hpinned hclosure
    obtain rfl := hm₁.sole hfirst h.function hclosure rfl
    exact hpinned.trans (hfirst.symm.trans h.function)

end Machine

namespace Standing

end Standing

end TinyScript
