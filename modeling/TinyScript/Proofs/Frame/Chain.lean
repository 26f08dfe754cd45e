import Mathlib.Data.List.Basic
import Mathlib.Data.List.Nodup
import Mathlib.Data.List.Perm.Subperm
import Mathlib.Tactic.Common
import TinyScript.Heap.Frame

/-!
# Chains of frames

What the operations on frames do to the bindings and the parent of any frame, and which frames are above a frame.
`Above fs f g` says that going up from `f` one comes to `g`. The capture of names follows `chain` for a bounded number
of steps, which is never felt (`mem_takeWhile_chain_iff`): a way up that repeats no frame is no longer than the arena.
-/

namespace TinyScript

namespace Frames

open List

/-! ## Bindings and parents after an operation -/

section Operations

variable (fs : Frames) (f g : FrameId)

@[simp] theorem size_modifyBinds (u : List (Text × Ref) → List (Text × Ref)) :
    (fs.modifyBinds f u).arena.size = fs.arena.size := by
  simp [modifyBinds]

/-- The bindings of one frame change. -/
theorem binds_modifyBinds (u : List (Text × Ref) → List (Text × Ref)) :
    (fs.modifyBinds f u).binds g
      = if f = g ∧ f < fs.arena.size then u (fs.binds g) else fs.binds g := by
  simp only [modifyBinds, binds, Array.getElem?_modify]
  by_cases hfg : f = g
  · subst hfg
    by_cases hsize : f < fs.arena.size
    · simp [hsize]
    · simp [hsize]
  · simp [hfg]

@[simp] theorem parent?_modifyBinds (u : List (Text × Ref) → List (Text × Ref)) :
    (fs.modifyBinds f u).parent? g = fs.parent? g := by
  simp only [modifyBinds, parent?, Array.getElem?_modify]
  split
  · rw [Option.bind_map]
    rfl
  · rfl

@[simp] theorem size_fork : (fs.fork f).1.arena.size = fs.arena.size + 1 := by
  simp [fork]

@[simp] theorem binds_fork : (fs.fork f).1.binds g = fs.binds g := by
  simp only [fork, binds, Array.getElem?_push]
  split
  · next hg => simp [hg]
  · rfl

theorem parent?_fork :
    (fs.fork f).1.parent? g = if g = fs.arena.size then some f else fs.parent? g := by
  simp only [fork, parent?, Array.getElem?_push]
  split <;> rfl

@[simp] theorem size_newClosure (bs : List (Text × Ref)) :
    (fs.newClosure bs).1.arena.size = fs.arena.size + 1 := by
  simp [newClosure]

theorem binds_newClosure (bs : List (Text × Ref)) :
    (fs.newClosure bs).1.binds g = if g = fs.arena.size then bs else fs.binds g := by
  simp only [newClosure, binds, Array.getElem?_push]
  split <;> rfl

theorem parent?_newClosure (bs : List (Text × Ref)) :
    (fs.newClosure bs).1.parent? g = if g = fs.arena.size then some global else fs.parent? g := by
  simp only [newClosure, parent?, Array.getElem?_push]
  split <;> rfl

@[simp] theorem size_leave : (fs.leave f).arena.size = fs.arena.size := by
  simp [leave]

theorem binds_of_size_le {fs : Frames} {g : FrameId} (hg : fs.arena.size ≤ g) : fs.binds g = [] := by
  simp [binds, hg]

/-- Whatever holds of all references bound, and of another one, holds after binding that one. -/
theorem forall_mem_setIn {P : Ref → Prop} {bs : List (Text × Ref)} (name : Text) {r : Ref}
    (hbs : ∀ b ∈ bs, P b.2) (hr : P r) : ∀ b ∈ setIn name r bs, P b.2 := by
  induction bs with
  | nil => simpa [setIn] using hr
  | cons c cs ih =>
    obtain ⟨hc, hcs⟩ := List.forall_mem_cons.mp hbs
    rw [setIn]
    split
    · exact List.forall_mem_cons.mpr ⟨hr, hcs⟩
    · exact List.forall_mem_cons.mpr ⟨hc, ih hcs⟩

/-- A frame that is left has no bindings. -/
theorem binds_leave : (fs.leave f).binds g = if f = g then [] else fs.binds g := by
  have hbinds := fs.binds_modifyBinds f g fun _ => []
  rw [leave]
  refine hbinds.trans ?_
  by_cases hsize : f < fs.arena.size
  · simp [hsize]
  · rw [if_neg fun h => hsize h.2]
    split
    · next hfg => rw [← hfg, binds_of_size_le (Nat.le_of_not_lt hsize)]
    · rfl

@[simp] theorem parent?_leave : (fs.leave f).parent? g = fs.parent? g :=
  fs.parent?_modifyBinds f g fun _ => []

/-- Leaving several frames drops the bindings of those and of no other. -/
theorem binds_foldl_leave (cs : List FrameId) :
    (cs.foldl leave fs).binds g = if g ∈ cs then [] else fs.binds g := by
  induction cs generalizing fs with
  | nil => rfl
  | cons c cs ih =>
    rw [foldl_cons, ih, binds_leave]
    by_cases hg : g ∈ cs
    · simp [hg]
    · by_cases hc : c = g
      · simp [hc]
      · simp [hg, hc, Ne.symm hc]

@[simp] theorem parent?_foldl_leave (cs : List FrameId) :
    (cs.foldl leave fs).parent? g = fs.parent? g := by
  induction cs generalizing fs with
  | nil => rfl
  | cons c cs ih => rw [foldl_cons, ih, parent?_leave]

@[simp] theorem size_foldl_leave (cs : List FrameId) :
    (cs.foldl leave fs).arena.size = fs.arena.size := by
  induction cs generalizing fs with
  | nil => rfl
  | cons c cs ih => rw [foldl_cons, ih, size_leave]

theorem registered_foldl_leave_subset (cs : List FrameId) : (cs.foldl leave fs).registered ⊆ fs.registered := by
  induction cs generalizing fs with
  | nil => exact List.Subset.refl _
  | cons c cs ih => exact List.Subset.trans (ih (fs.leave c)) erase_subset

/-- Leaving frames that are not registered does not change the registered ones. -/
theorem registered_foldl_leave (cs : List FrameId) (hcs : ∀ c ∈ cs, c ∉ fs.registered) :
    (cs.foldl leave fs).registered = fs.registered := by
  induction cs generalizing fs with
  | nil => rfl
  | cons c cs ih =>
    have hleave : (fs.leave c).registered = fs.registered :=
      erase_of_not_mem (hcs c mem_cons_self)
    rw [foldl_cons, ih, hleave]
    intro d hd
    rw [hleave]
    exact hcs d (mem_cons_of_mem _ hd)

end Operations

/-! ## The frames above a frame -/

/-- Going up from `f` one comes to a frame, before the global frame or at it. -/
inductive Above (fs : Frames) (f : FrameId) : FrameId → Prop
  | self : Above fs f f
  | parent {g p : FrameId} : Above fs f g → g ≠ global → fs.parent? g = some p → Above fs f p

/-- Frames that keep their parents keep the frames above them. -/
theorem Above.mono {fs fs' : Frames} (hparent : ∀ g p, fs.parent? g = some p → fs'.parent? g = some p)
    {f g : FrameId} (h : fs.Above f g) : fs'.Above f g := by
  induction h with
  | self => exact .self
  | parent _ hne hp ih => exact ih.parent hne (hparent _ _ hp)

/-- Nothing is above the global frame. -/
theorem Above.eq_global {fs : Frames} {g : FrameId} (h : fs.Above global g) : g = global := by
  induction h with
  | self => rfl
  | parent _ hne _ ih => exact absurd ih hne

theorem Above.trans {fs : Frames} {f g g' : FrameId} (h : fs.Above f g) (h' : fs.Above g g') : fs.Above f g' := by
  induction h' with
  | self => exact h
  | parent _ hne hp ih => exact ih.parent hne hp

/-- The frames above a frame are the frame itself and those above the next one. -/
theorem above_iff {fs : Frames} {f g : FrameId} :
    fs.Above f g ↔ f = g ∨ ∃ p, fs.above? f = some p ∧ fs.Above p g := by
  constructor
  · intro h
    induction h with
    | self => exact Or.inl rfl
    | @parent g p _ hne hp ih =>
      rcases ih with rfl | ⟨q, hq, habove⟩
      · exact Or.inr ⟨p, by rw [above?, if_neg hne, hp], .self⟩
      · exact Or.inr ⟨q, hq, habove.parent hne hp⟩
  · rintro (rfl | ⟨p, hp, habove⟩)
    · exact .self
    · rw [above?] at hp
      split at hp
      · cases hp
      · next hne => exact (Above.self.parent hne hp).trans habove

/-- The frames passed on the way up from `f` to a frame, which is left out. -/
inductive Trail (fs : Frames) (g : FrameId) : FrameId → List FrameId → Prop
  | here : Trail fs g g []
  | up {f p : FrameId} {path : List FrameId} : f ≠ global → fs.parent? f = some p → Trail fs g p path →
    Trail fs g f (f :: path)

namespace Trail

variable {fs : Frames} {f g p : FrameId} {path : List FrameId}

theorem lt_size (h : fs.Trail g f path) : ∀ x ∈ path, x < fs.arena.size := by
  induction h with
  | here => simp
  | up _ hp _ ih =>
    intro x hx
    rcases List.mem_cons.mp hx with rfl | hx
    · obtain ⟨fr, hfr, -⟩ := Option.bind_eq_some_iff.mp hp
      exact (Array.getElem?_eq_some_iff.mp hfr).1
    · exact ih x hx

/-- A way without repetition is no longer than the arena. -/
theorem length_le (h : fs.Trail g f path) (hnodup : path.Nodup) : path.length ≤ fs.arena.size := by
  have hsub : path ⊆ List.range fs.arena.size := fun x hx => List.mem_range.mpr (h.lt_size x hx)
  simpa using (hnodup.subperm hsub).length_le

theorem concat (h : fs.Trail g f path) (hg : g ≠ global) (hp : fs.parent? g = some p) :
    fs.Trail p f (path ++ [g]) := by
  induction h with
  | here => exact .up hg hp .here
  | up hf hq _ ih => exact .up hf hq ih

theorem mono {fs' : Frames} (hparent : ∀ g p, fs.parent? g = some p → fs'.parent? g = some p)
    (h : fs.Trail g f path) : fs'.Trail g f path := by
  induction h with
  | here => exact .here
  | up hf hp _ ih => exact .up hf (hparent _ _ hp) ih

/-- From a frame that is passed, the rest of the way is left. -/
theorem rest (h : fs.Trail g f path) {x : FrameId} (hx : x ∈ path) :
    ∃ front back, path = front ++ x :: back ∧ fs.Trail g x (x :: back) := by
  induction h with
  | here => simp at hx
  | up hf hq htrail ih =>
    rcases List.mem_cons.mp hx with rfl | hx
    · exact ⟨[], _, rfl, .up hf hq htrail⟩
    · obtain ⟨front, back, rfl, hrest⟩ := ih hx
      exact ⟨_ :: front, back, rfl, hrest⟩

/-- A way can be made one without repetition, by leaving out frames. -/
theorem shorten (h : fs.Trail g f path) :
    ∃ short, short ⊆ path ∧ fs.Trail g f short ∧ (short ++ [g]).Nodup := by
  induction h with
  | here => exact ⟨[], nil_subset _, .here, by simp⟩
  | @up f p path hf hq _ ih =>
    obtain ⟨short, hsub, htrail, hnodup⟩ := ih
    by_cases hg : f = g
    · subst hg
      exact ⟨[], nil_subset _, .here, by simp⟩
    · by_cases hmem : f ∈ short
      · -- the frame is passed again later, so the way up to there can be left out
        obtain ⟨front, back, rfl, hrest⟩ := htrail.rest hmem
        refine ⟨f :: back, fun x hx => ?_, hrest, hnodup.sublist (by simp)⟩
        exact mem_cons_of_mem _ (hsub (mem_append_right _ hx))
      · refine ⟨f :: short, cons_subset_cons _ hsub, .up hf hq htrail, List.nodup_cons.mpr ⟨?_, hnodup⟩⟩
        simp [hmem, hg]

/-- Frames that are passed are above. -/
theorem above (h : fs.Trail g f path) {x : FrameId} (hx : x ∈ path) : fs.Above f x := by
  have hall {y : FrameId} (hy : fs.Above y f) : fs.Above y x := by
    induction h with
    | here => cases hx
    | up hf hp _ ih =>
      rcases List.mem_cons.mp hx with rfl | hx
      · exact hy
      · exact ih hx (hy.parent hf hp)
  exact hall .self

end Trail

/-- There is a way without repetition to every frame above. -/
theorem Above.exists_trail {fs : Frames} {f g : FrameId} (h : fs.Above f g) :
    ∃ path, fs.Trail g f path ∧ (path ++ [g]).Nodup := by
  have hpath : ∃ path, fs.Trail g f path := by
    induction h with
    | self => exact ⟨[], .here⟩
    | parent _ hne hp ih =>
      obtain ⟨path, htrail⟩ := ih
      exact ⟨_, htrail.concat hne hp⟩
  obtain ⟨path, htrail⟩ := hpath
  obtain ⟨short, -, htrail, hnodup⟩ := htrail.shorten
  exact ⟨short, htrail, hnodup⟩

/-- A trail without repetition is followed to its end. -/
theorem Trail.mem_chainFrom {fs : Frames} {f g : FrameId} {path : List FrameId}
    (h : fs.Trail g f path) (hg : g ≠ global) {fuel : Nat} (hfuel : path.length < fuel) :
    g ∈ (fs.chainFrom fuel f).takeWhile (· ≠ global) := by
  induction h generalizing fuel with
  | here =>
    obtain ⟨fuel, rfl⟩ := Nat.exists_eq_succ_of_ne_zero (Nat.ne_zero_of_lt hfuel)
    rw [chainFrom, takeWhile_cons_of_pos (by simpa using hg)]
    exact mem_cons_self
  | up hf hp _ ih =>
    obtain ⟨fuel, rfl⟩ := Nat.exists_eq_succ_of_ne_zero (Nat.ne_zero_of_lt hfuel)
    rw [chainFrom, takeWhile_cons_of_pos (by simpa using hf), hp]
    exact mem_cons_of_mem _ (ih (by simpa using hfuel))

theorem above_of_mem_chainFrom {fs : Frames} {f g x : FrameId} {fuel : Nat} (hx : fs.Above f x)
    (hg : g ∈ (fs.chainFrom fuel x).takeWhile (· ≠ global)) : fs.Above f g ∧ g ≠ global := by
  induction fuel generalizing x with
  | zero => simp [chainFrom] at hg
  | succ fuel ih =>
    rw [chainFrom] at hg
    by_cases hglobal : x = global
    · rw [takeWhile_cons_of_neg (by simpa using hglobal)] at hg
      cases hg
    · rw [takeWhile_cons_of_pos (by simpa using hglobal)] at hg
      rcases List.mem_cons.mp hg with rfl | hg
      · exact ⟨hx, hglobal⟩
      · cases hp : fs.parent? x with
        | none => simp [hp] at hg
        | some p =>
          rw [hp] at hg
          exact ih (hx.parent hglobal hp) hg

/-- The frames that are searched for bindings are those above, the global one left out. -/
theorem mem_takeWhile_chain_iff {fs : Frames} {f g : FrameId} :
    g ∈ (fs.chain f).takeWhile (· ≠ global) ↔ fs.Above f g ∧ g ≠ global := by
  constructor
  · exact above_of_mem_chainFrom .self
  · rintro ⟨habove, hg⟩
    obtain ⟨path, htrail, hnodup⟩ := habove.exists_trail
    exact htrail.mem_chainFrom hg (Nat.lt_succ_of_le (htrail.length_le (List.nodup_append.mp hnodup).1))

/-- The bindings that are captured are those of all frames on the way up. -/
theorem mem_capturedFrom_iff {fs : Frames} {f : FrameId} {b : Text × Ref} :
    b ∈ fs.capturedFrom f ↔ ∃ g, fs.Above f g ∧ g ≠ global ∧ b ∈ fs.binds g := by
  simp only [capturedFrom, mem_flatMap, mem_takeWhile_chain_iff, and_assoc]

end Frames

end TinyScript
