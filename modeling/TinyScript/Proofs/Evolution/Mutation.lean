import Mathlib
import TinyScript.Proofs.Evolution.Evaluation
import TinyScript.Proofs.Heap.History
import TinyScript.Proofs.Twin.Program

/-!
# Only dicts and definitions change

While nothing is collected, an evaluation changes the entries of dicts and the definitions in the global frame, and
nothing else that was there before (`Heap.Became`). In the global frame the names stay in their places; a name may be
bound to a function that is new, and names that were not there come behind the others (`Redefines`).
-/

namespace TinyScript

open Syntax (Expr)
open List Heap

/-! ## Definitions in the global frame -/

namespace Frames

variable (name : Text) (r : Ref)

/-- Names stay in their places, and a new one comes last. -/
theorem map_fst_setIn (bs : List (Text × Ref)) : (setIn name r bs).map Prod.fst
    = if name ∈ bs.map Prod.fst then bs.map Prod.fst else bs.map Prod.fst ++ [name] := by
  induction bs with
  | nil => rfl
  | cons c bs ih =>
    rw [setIn]
    by_cases hc : c.1 = name
    · simp [hc]
    · rw [if_neg hc, map_cons, ih]
      by_cases hname : name ∈ bs.map Prod.fst
      · simp [hname]
      · simp [hname, Ne.symm hc]

theorem getElem?_setIn {bs : List (Text × Ref)} {i : Nat} {b : Text × Ref} (hb : bs[i]? = some b) :
    (setIn name r bs)[i]? = some b ∨ (setIn name r bs)[i]? = some (b.1, r) := by
  induction bs generalizing i with
  | nil => simp at hb
  | cons c bs ih =>
    rw [setIn]
    split
    · next hc =>
      cases i with
      | zero =>
        cases hb
        exact .inr (by rw [hc]; rfl)
      | succ i => exact .inl hb
    · cases i with
      | zero => exact .inl hb
      | succ i => exact ih hb

theorem eq_of_getElem?_setIn {bs : List (Text × Ref)} {i : Nat} {b : Text × Ref} (hi : bs.length ≤ i)
    (hb : (setIn name r bs)[i]? = some b) : b = (name, r) := by
  induction bs generalizing i with
  | nil =>
    rw [setIn] at hb
    obtain ⟨-, rfl⟩ := List.mem_singleton.mp (mem_of_getElem? hb)
    rfl
  | cons c bs ih =>
    obtain ⟨i, rfl⟩ : ∃ j, i = j + 1 := Nat.exists_eq_succ_of_ne_zero (by rintro rfl; simp at hi)
    rw [length_cons] at hi
    rw [setIn] at hb
    split at hb
    · rw [getElem?_cons_succ, getElem?_eq_none (by omega)] at hb
      cases hb
    · exact ih (by omega) hb

end Frames

/-- Bindings that were replaced in their places by ones to new references, followed by ones of further names
to new references. -/
structure Redefines (New : Ref → Prop) (bs cs : List (Text × Ref)) : Prop where
  names : ∃ added, cs.map Prod.fst = bs.map Prod.fst ++ added ∧ added.Nodup ∧ ∀ n ∈ added, n ∉ bs.map Prod.fst
  rebound : ∀ (i : Nat) (b : Text × Ref), bs[i]? = some b → ∃ r, cs[i]? = some (b.1, r) ∧ (r = b.2 ∨ New r)
  defined : ∀ (i : Nat) (b : Text × Ref), bs.length ≤ i → cs[i]? = some b → New b.2

namespace Redefines

variable {New New₁ New₂ : Ref → Prop} {bs cs ds : List (Text × Ref)}

theorem refl (New : Ref → Prop) (bs : List (Text × Ref)) : Redefines New bs bs where
  names := ⟨[], by simp⟩
  rebound i b hb := ⟨b.2, hb, .inl rfl⟩
  defined i b hi hb := by
    rw [getElem?_eq_none hi] at hb
    cases hb

theorem setIn (bs : List (Text × Ref)) (name : Text) {r : Ref} (hr : New r) :
    Redefines New bs (Frames.setIn name r bs) where
  names := by
    rw [Frames.map_fst_setIn]
    split
    · exact ⟨[], by simp⟩
    · next hname => exact ⟨[name], by simpa using hname⟩
  rebound i b hb := by
    rcases Frames.getElem?_setIn name r hb with hi | hi
    · exact ⟨b.2, hi, .inl rfl⟩
    · exact ⟨r, hi, .inr hr⟩
  defined i b hi hb := by
    rw [Frames.eq_of_getElem?_setIn name r hi hb]
    exact hr

/-- What is new in either step is new. -/
theorem trans (h₁ : Redefines New₁ bs cs) (h₂ : Redefines New₂ cs ds) (hnew₁ : ∀ r, New₁ r → New r)
    (hnew₂ : ∀ r, New₂ r → New r) : Redefines New bs ds where
  names := by
    obtain ⟨added₁, hcs, hnodup₁, hfresh₁⟩ := h₁.names
    obtain ⟨added₂, hds, hnodup₂, hfresh₂⟩ := h₂.names
    rw [hcs] at hds hfresh₂
    refine ⟨added₁ ++ added₂, by rw [hds, append_assoc], ?_, ?_⟩
    · exact hnodup₁.append hnodup₂ fun n hn hn' => hfresh₂ n hn' (mem_append_right _ hn)
    · intro n hn
      rcases List.mem_append.mp hn with hn | hn
      · exact hfresh₁ n hn
      · exact fun hmem => hfresh₂ n hn (mem_append_left _ hmem)
  rebound i b hb := by
    obtain ⟨r, hr, hrb⟩ := h₁.rebound i b hb
    obtain ⟨r', hr', hrb'⟩ := h₂.rebound i (b.1, r) hr
    refine ⟨r', hr', ?_⟩
    rcases hrb' with rfl | hnew
    · exact hrb.imp_right (hnew₁ _)
    · exact .inr (hnew₂ _ hnew)
  defined i b hi hb := by
    cases hc : cs[i]? with
    | none => exact hnew₂ _ (h₂.defined i b (List.getElem?_eq_none_iff.mp hc) hb)
    | some c =>
      -- the name is from the first round, and may have been bound once more in the second
      obtain ⟨r, hr, hrc⟩ := h₂.rebound i c hc
      obtain rfl : (c.1, r) = b := Option.some.inj (hr.symm.trans hb)
      rcases hrc with rfl | hnew
      · exact hnew₁ _ (h₁.defined i c hi hc)
      · exact hnew₂ _ hnew

end Redefines

/-! ## Machines with a good heap and a global frame -/

/-- The heap is threaded well, and there is a global frame. -/
structure Machine.Sturdy (m : Machine) : Prop where
  heap : m.heap.WellFormed
  global : Frames.global < m.frames.arena.size

namespace Machine

/-- The names that are bound in the global frame. -/
def globals (m : Machine) : List Text := (m.frames.binds Frames.global).map Prod.fst

/-- The names that have a binding. -/
theorem mem_globals_iff {m : Machine} {name : Text} :
    name ∈ m.globals ↔ m.frames.resolveLocal? Frames.global name ≠ none := by
  rw [globals, Frames.resolveLocal?, ne_eq, Option.map_eq_none_iff, find?_eq_none]
  simp

theorem size_free (m : Machine) (i : Nat) : (m.free i).frames.arena.size = m.frames.arena.size := by
  rw [free]
  split
  · exact Frames.size_leave _ _
  · rfl

theorem size_sweep (m : Machine) : m.sweep.1.frames.arena.size = m.frames.arena.size := by
  refine walk_induction (Q := fun m' => m'.frames.arena.size = m.frames.arena.size) (fun m' i h => ?_) rfl
  rw [sweepSlot]
  split
  · exact h
  · split
    · exact (m'.size_free i).trans h
    · exact h
    · exact h

theorem size_releaseAll (m : Machine) : m.releaseAll.1.frames.arena.size = m.frames.arena.size :=
  walk_induction (Q := fun m' => m'.frames.arena.size = m.frames.arena.size) (fun m' i h => (m'.size_free i).trans h) rfl

namespace Sturdy

variable {m : Machine}

/-- Marking changes flags only. -/
theorem mark (hm : m.Sturdy) : m.mark.1.Sturdy := ⟨(mark_threaded hm.heap).wellFormed, hm.global⟩

theorem sweep (hm : m.Sturdy) : m.sweep.1.Sturdy := by
  obtain ⟨l, hthreaded, -⟩ := sweep_threaded hm.heap
  exact ⟨hthreaded.wellFormed, m.size_sweep ▸ hm.global⟩

theorem setHeap (hm : m.Sturdy) {heap : Heap} (hheap : heap.WellFormed) : Sturdy { m with heap := heap } :=
  ⟨hheap, hm.global⟩

theorem modifyBinds (hm : m.Sturdy) (f : FrameId) (u : List (Text × Ref) → List (Text × Ref)) :
    Sturdy { m with frames := m.frames.modifyBinds f u } :=
  ⟨hm.heap, (m.frames.size_modifyBinds f u).symm ▸ hm.global⟩

theorem fork (hm : m.Sturdy) (parent : FrameId) : ((Act.fork parent).run m).2.Sturdy :=
  ⟨hm.heap, hm.global.trans_le ((Nat.le_succ _).trans (m.frames.size_fork parent).ge)⟩

theorem newClosure (hm : m.Sturdy) (bs : List (Text × Ref)) :
    Sturdy { m with frames := (m.frames.newClosure bs).1 } :=
  ⟨hm.heap, hm.global.trans_le ((Nat.le_succ _).trans (m.frames.size_newClosure bs).ge)⟩

theorem leave (hm : m.Sturdy) (f : FrameId) : ((Act.leave f).run m).2.Sturdy :=
  ⟨hm.heap, (m.frames.size_leave f).symm ▸ hm.global⟩

theorem binds_set (hm : m.Sturdy) (name : Text) (r : Ref) :
    (m.frames.set Frames.global name r).binds Frames.global = Frames.setIn name r (m.frames.binds Frames.global) :=
  (m.frames.binds_modifyBinds _ _ _).trans (if_pos ⟨rfl, hm.global⟩)

theorem define (hm : m.Sturdy) (d : Syntax.Def) : ((Eval.define d).run m).2.Sturdy := by
  obtain ⟨heap, hrun, hheap⟩ := m.define_run d
  rw [hrun]
  refine ⟨?_, (m.frames.size_modifyBinds _ _).symm ▸ hm.global⟩
  have halloc := hm.heap.alloc d.object true
  rcases hheap with rfl | ⟨old, hroot⟩
  · exact halloc.wellFormed
  · exact (setRoot?_false halloc hroot).1.wellFormed

/-- A definition adds its own name. -/
theorem mem_globals_define (hm : m.Sturdy) (d : Syntax.Def) {name : Text} :
    name ∈ ((Eval.define d).run m).2.globals ↔ name ∈ m.globals ∨ d.name = name := by
  obtain ⟨heap, hrun, -⟩ := m.define_run d
  rw [hrun]
  show name ∈ ((m.frames.set _ _ _).binds Frames.global).map Prod.fst ↔ _
  rw [hm.binds_set, Frames.map_fst_setIn]
  split
  · next hd => exact ⟨.inl, fun hname => hname.elim id fun heq => heq ▸ hd⟩
  · rw [mem_append, mem_singleton, eq_comm (a := name)]
    rfl

/-- Besides what was bound in the global frame before, the functions of a program are bound there. -/
theorem mem_globals_defineAll (hm : m.Sturdy) {p : Syntax.Program} {name : Text} :
    name ∈ ((Act.defineAll p).run m).2.globals ↔ name ∈ m.globals ∨ ∃ d ∈ p.defs, d.name = name := by
  refine (Act.defineAll_run (P := fun front m' => m'.Sturdy ∧
    (name ∈ m'.globals ↔ name ∈ m.globals ∨ ∃ d ∈ front, d.name = name)) ⟨⟨hm.heap, hm.global⟩, ?_⟩ ?_).2
  · exact (or_iff_left (by simp)).symm
  · rintro front d - m' ⟨hm', hglobals⟩
    refine ⟨hm'.define d, ?_⟩
    rw [hm'.mem_globals_define, hglobals, or_assoc]
    simp

end Sturdy

/-- Evaluations keep both. -/
theorem Evolves.sturdy {floor : Nat} {own : List FrameId} {m m' : Machine} (h : m.Evolves floor own m')
    (hm : m.Sturdy) : m'.Sturdy := by
  induction h with
  | refl => exact hm
  | trans _ _ ih ih' => exact ih' (ih hm)
  | aside h => exact ⟨h.heap ▸ hm.heap, h.frames ▸ hm.global⟩
  | collect => exact hm.mark.sweep
  | alloc o => exact hm.setHeap (hm.heap.alloc o false).wellFormed
  | lambda params body bs _ ih =>
    have hinner := ih (hm.newClosure bs)
    exact hinner.setHeap (hinner.heap.alloc _ false).wellFormed
  | define d => exact hm.define d
  | setDict t' => exact hm.setHeap (hm.heap.set _ _).wellFormed
  | pins => exact ⟨hm.heap, hm.global⟩
  | bind bs => exact hm.modifyBinds _ _
  | frame parent _ ih => exact (ih (hm.fork parent)).leave _
  | call _ ih =>
    have hinner := ih ⟨hm.heap, hm.global⟩
    exact ⟨hinner.heap, hinner.global⟩

end Machine

/-! ## What evaluations change -/

theorem Heap.became_refl (h : Heap) : h.Became h := fun {_ o} ho => ⟨o, ho, .inl rfl⟩

theorem Heap.became_trans {h₁ h₂ h₃ : Heap} (h : h₁.Became h₂) (h' : h₂.Became h₃) : h₁.Became h₃ := by
  intro r o ho
  obtain ⟨p, hp, hop⟩ := h ho
  obtain ⟨q, hq, hpq⟩ := h' hp
  exact ⟨q, hq, hop.trans hpq⟩

/-- Nothing that was there is changed by an allocation. -/
theorem Heap.became_alloc {h : Heap} (hh : h.WellFormed) (o : Object) (isRoot : Bool) :
    h.Became (h.alloc o isRoot).1 :=
  fun {_ p} hp => ⟨p, hh.get?_alloc_iff.mpr (.inr hp), .inl rfl⟩

theorem Heap.Threaded.get?_setRoot? {h h' : Heap} {l : List Nat} (hh : h.Threaded l) {old : Ref}
    (hroot : h.setRoot? old false = some h') (r : Ref) : h'.get? r = h.get? r := by
  rw [get?_eq, get?_eq, (setRoot?_false hh hroot).2]
  split
  · rw [Option.map_map]
    rfl
  · rfl

/-- After a definition there is one object more. -/
theorem Machine.get?_define (m : Machine) (hwf : m.heap.WellFormed) (d : Syntax.Def) (r : Ref) :
    ((Eval.define d).run m).2.heap.get? r = (m.heap.alloc d.object true).1.get? r := by
  obtain ⟨heap, hrun, hheap⟩ := m.define_run d
  rw [hrun]
  rcases hheap with rfl | ⟨old, hroot⟩
  · rfl
  · exact (hwf.alloc d.object true).get?_setRoot? hroot r

/-- A function that is on the second heap only. -/
def Heap.NewFunction (h h' : Heap) (r : Ref) : Prop := h.get? r = none ∧ ∃ f, h'.get? r = some (.function f)

/-- A function that is new stays new. -/
theorem Heap.NewFunction.later {h₁ h₂ h₃ : Heap} {r : Ref} (hr : h₁.NewFunction h₂ r) (h : h₂.Became h₃) :
    h₁.NewFunction h₃ r := by
  obtain ⟨f, hf⟩ := hr.2
  obtain ⟨o, ho, hbecame⟩ := h hf
  rw [hbecame.eq (by simp [Object.kind])] at ho
  exact ⟨hr.1, f, ho⟩

theorem Heap.NewFunction.earlier {h₁ h₂ h₃ : Heap} {r : Ref} (h : h₁.Became h₂) (hr : h₂.NewFunction h₃ r) :
    h₁.NewFunction h₃ r := by
  refine ⟨Option.eq_none_iff_forall_not_mem.mpr fun o ho => ?_, hr.2⟩
  obtain ⟨p, hp, -⟩ := h ho
  rw [hr.1] at hp
  cases hp

/-- What became of a machine: objects are the same but for dicts, bindings are the same but for those in the
frames of `own` and the global frame, and there only definitions are new. -/
structure Machine.Amends (own : List FrameId) (m m' : Machine) : Prop where
  objects : m.heap.Became m'.heap
  size_le : m.frames.arena.size ≤ m'.frames.arena.size
  binds : ∀ f, f < m.frames.arena.size → f ≠ Frames.global → f ∉ own → m'.frames.binds f = m.frames.binds f
  globals : Redefines (m.heap.NewFunction m'.heap) (m.frames.binds Frames.global) (m'.frames.binds Frames.global)

namespace Machine.Amends

variable {own : List FrameId} {m m' m₁ m₂ m₃ : Machine}

theorem trans (h : m₁.Amends own m₂) (h' : m₂.Amends own m₃) : m₁.Amends own m₃ where
  objects := became_trans h.objects h'.objects
  size_le := h.size_le.trans h'.size_le
  binds f hf hglobal hown :=
    (h'.binds f (Nat.lt_of_lt_of_le hf h.size_le) hglobal hown).trans (h.binds f hf hglobal hown)
  globals := h.globals.trans h'.globals (fun _ hr => hr.later h'.objects) fun _ hr => hr.earlier h.objects

/-- No binding of a frame other than those of `own` changed. -/
theorem of_binds (hobjects : m.heap.Became m'.heap) (hsize : m.frames.arena.size ≤ m'.frames.arena.size)
    (hbinds : ∀ f, f < m.frames.arena.size → f ∉ own → m'.frames.binds f = m.frames.binds f)
    (hglobal : Frames.global < m.frames.arena.size) (hown : Frames.global ∉ own) : m.Amends own m' where
  objects := hobjects
  size_le := hsize
  binds f hf _ := hbinds f hf
  globals := by
    rw [hbinds _ hglobal hown]
    exact .refl _ _

/-- Nothing happened to the frames. -/
theorem of_frames (hobjects : m.heap.Became m'.heap) (hframes : m'.frames = m.frames) : m.Amends own m' where
  objects := hobjects
  size_le := hframes ▸ le_rfl
  binds f _ _ _ := by rw [hframes]
  globals := by
    rw [hframes]
    exact .refl _ _

theorem newClosure (hm : m.Sturdy) (hown : Frames.global ∉ own) (bs : List (Text × Ref)) :
    m.Amends own { m with frames := (m.frames.newClosure bs).1 } := by
  refine .of_binds (became_refl m.heap) ?_ (fun f hf _ => ?_) hm.global hown
  · exact (Nat.le_succ _).trans (m.frames.size_newClosure bs).ge
  · exact (m.frames.binds_newClosure f bs).trans (if_neg (Nat.ne_of_lt hf))

theorem define (hm : m.Sturdy) (d : Syntax.Def) : m.Amends own ((Eval.define d).run m).2 := by
  obtain ⟨heap, hrun, -⟩ := m.define_run d
  have hget := m.get?_define hm.heap d
  rw [hrun] at hget
  have hnew : m.heap.NewFunction heap (m.heap.alloc d.object true).2 := by
    refine ⟨?_, _, (hget _).trans (hm.heap.get?_alloc_iff.mpr (.inl ⟨rfl, rfl⟩))⟩
    have hinvalid := hm.heap.not_valid_alloc d.object true
    rw [valid_iff_get?] at hinvalid
    exact Option.eq_none_iff_forall_not_mem.mpr fun o ho => hinvalid ⟨o, ho⟩
  rw [hrun]
  refine ⟨fun {r o} ho => ?_, (m.frames.size_modifyBinds _ _).ge, fun f _ hglobal _ => ?_, ?_⟩
  · exact ⟨o, (hget r).trans (hm.heap.get?_alloc_iff.mpr (.inr ho)), .inl rfl⟩
  · exact (m.frames.binds_modifyBinds _ _ _).trans (if_neg fun h => hglobal h.1.symm)
  · show Redefines (m.heap.NewFunction heap) _ ((m.frames.set _ _ _).binds Frames.global)
    rw [hm.binds_set]
    exact .setIn _ _ hnew

theorem bindAll (hm : m.Sturdy) (hown : Frames.global ∉ own) {f : FrameId} (hf : f ∈ own) (bs : List (Text × Ref)) :
    m.Amends own { m with frames := m.frames.bindAll f bs } := by
  refine .of_binds (became_refl m.heap) (m.frames.size_modifyBinds _ _).ge (fun g _ hg => ?_) hm.global hown
  refine (m.frames.binds_modifyBinds _ _ _).trans (if_neg ?_)
  rintro ⟨rfl, -⟩
  exact hg hf

/-- What was bound in a frame that is left does not count. -/
theorem frame (hm : m.Sturdy) (parent : FrameId)
    (h : ((Act.fork parent).run m).2.Amends (m.frames.arena.size :: own) m') :
    m.Amends own ((Act.leave m.frames.arena.size).run m').2 := by
  have hsize : m.frames.arena.size + 1 ≤ m'.frames.arena.size := m.frames.size_fork parent ▸ h.size_le
  have hleave (f : FrameId) (hf : f < m.frames.arena.size) :
      (m'.frames.leave m.frames.arena.size).binds f = m'.frames.binds f :=
    (m'.frames.binds_leave _ f).trans (if_neg (Nat.ne_of_gt hf))
  refine ⟨h.objects, ?_, fun f hf hglobal hown => ?_, ?_⟩
  · exact (Nat.le_of_succ_le hsize).trans (m'.frames.size_leave _).ge
  · have hfork : f < ((Act.fork parent).run m).2.frames.arena.size :=
      Nat.lt_of_lt_of_le hf ((Nat.le_succ _).trans (m.frames.size_fork parent).ge)
    have hne : f ∉ m.frames.arena.size :: own := not_mem_cons_of_ne_of_not_mem (Nat.ne_of_lt hf) hown
    calc (m'.frames.leave m.frames.arena.size).binds f
      _ = m'.frames.binds f := hleave f hf
      _ = (m.frames.fork parent).1.binds f := h.binds f hfork hglobal hne
      _ = m.frames.binds f := m.frames.binds_fork parent f
  · show Redefines _ _ ((m'.frames.leave m.frames.arena.size).binds Frames.global)
    rw [hleave _ hm.global, ← m.frames.binds_fork parent Frames.global]
    exact h.globals

end Machine.Amends

/-- While nothing is collected, an evaluation changes dicts and definitions only. -/
theorem Machine.Evolves.amends {floor : Nat} {own : List FrameId} {m m' : Machine} (h : m.Evolves floor own m')
    (hpacing : m.pacing.Idle) (hm : m.Sturdy) (hown : Frames.global ∉ own) : m.Amends own m' := by
  induction h with
  | refl m => exact .of_frames (became_refl m.heap) rfl
  | trans h₁ _ ih ih' =>
    exact (ih hpacing hm hown).trans (ih' (h₁.unchanged.1 ▸ hpacing) (h₁.sturdy hm) hown)
  | aside h =>
    refine .of_frames ?_ h.frames
    rw [h.heap]
    exact became_refl _
  | collect h => exact absurd h hpacing.not_due
  | alloc o => exact .of_frames (became_alloc hm.heap o false) rfl
  | lambda params body bs h ih =>
    have hinner := ih hpacing (hm.newClosure bs) hown
    have halloc := became_alloc (h.sturdy (hm.newClosure bs)).heap
    exact ((Amends.newClosure hm hown bs).trans hinner).trans (.of_frames (halloc _ false) rfl)
  | define d => exact .define hm d
  | setDict t' hd => exact .of_frames (became_setDict hd t') rfl
  | @pins _ m => exact .of_frames (became_refl m.heap) rfl
  | bind bs hf => exact .bindAll hm hown hf bs
  | frame parent _ ih =>
    refine .frame hm parent (ih hpacing (hm.fork parent) ?_)
    exact not_mem_cons_of_ne_of_not_mem (Nat.ne_of_lt hm.global) hown
  | call _ ih =>
    have hinner := ih hpacing ⟨hm.heap, hm.global⟩ hown
    exact ⟨hinner.objects, hinner.size_le, hinner.binds, hinner.globals⟩

/-! ## Machines that come from a fresh one -/

/-- What a host does with a machine at a time. -/
inductive Machine.Turn (m : Machine) : Machine → Prop
  | eval {env : FrameId} {e : Expr} {budget : Nat} {r : Ref} {m' : Machine} :
    (Eval.eval env e).run budget m = some (r, m') → m.Turn m'
  | apply {fn : Ref} {args : List Ref} {budget : Nat} {r : Ref} {m' : Machine} :
    (Eval.apply fn args).run budget m = some (r, m') → m.Turn m'
  | define (d : Syntax.Def) : m.Turn ((Eval.define d).run m).2
  | alloc (o : Object) (isRoot : Bool) : m.Turn ((Act.allocRaw o isRoot).run m).2
  | write (r : Ref) (o : Object) : m.Turn { m with heap := m.heap.set r o }
  | setRoot (r : Ref) (isRoot : Bool) : m.Turn { m with heap := (m.heap.setRoot? r isRoot).getD m.heap }
  | fork (parent : FrameId) : m.Turn ((Act.fork parent).run m).2
  | newClosure (bs : List (Text × Ref)) : m.Turn { m with frames := (m.frames.newClosure bs).1 }
  | rebind (f : FrameId) (u : List (Text × Ref) → List (Text × Ref)) :
    m.Turn { m with frames := m.frames.modifyBinds f u }
  | leave (f : FrameId) : m.Turn ((Act.leave f).run m).2
  | collect : m.Turn (Act.forceCollect.run m).2
  | close : m.Turn (Act.close.run m).2
  | aside {m' : Machine} : m'.heap = m.heap → m'.frames = m.frames → m.Turn m'

/-- The machines that come from a fresh one. -/
inductive Machine.Reached : Machine → Prop
  | fresh (s : Settings) (pacing : Pacing) (fs : Builtin.Group) : Reached (s.machine pacing fs)
  | turn {m m' : Machine} : m.Reached → m.Turn m' → m'.Reached

namespace Machine

theorem Sturdy.allocRaw {m : Machine} (hm : m.Sturdy) (o : Object) (isRoot : Bool) :
    ((Act.allocRaw o isRoot).run m).2.Sturdy :=
  ⟨(hm.heap.alloc o isRoot).wellFormed, hm.global⟩

theorem Sturdy.close {m : Machine} (hm : m.Sturdy) : (Act.close.run m).2.Sturdy := by
  refine ⟨(releaseAll_threaded hm.heap).wellFormed, ?_⟩
  have hsize : (m.releaseAll.1.frames.leave Frames.global).arena.size = m.frames.arena.size :=
    (Frames.size_leave _ _).trans m.size_releaseAll
  exact hm.global.trans_eq hsize.symm

/-- Whatever a host does next, the machine stays sturdy. -/
theorem Turn.sturdy {m m' : Machine} (h : m.Turn m') (hm : m.Sturdy) : m'.Sturdy := by
  cases h with
  | eval h => exact ((Eval.ensures_eval _ _ m).run Outcomes.sound_evolving h).1.sturdy hm
  | apply h => exact ((Eval.ensures_apply _ _ m).run Outcomes.sound_evolving h).1.sturdy hm
  | define d => exact hm.define d
  | alloc o isRoot => exact hm.allocRaw o isRoot
  | write r o => exact hm.setHeap (hm.heap.set r o).wellFormed
  | setRoot r isRoot => exact hm.setHeap (hm.heap.setRoot? r isRoot).wellFormed
  | fork parent => exact hm.fork parent
  | newClosure bs => exact hm.newClosure bs
  | rebind f u => exact hm.modifyBinds f u
  | leave f => exact hm.leave f
  | collect =>
    have hstore := SameStore.forceCollect m
    exact ⟨hstore.heap ▸ hm.mark.sweep.heap, hstore.frames ▸ hm.mark.sweep.global⟩
  | close => exact hm.close
  | aside hheap hframes => exact ⟨hheap ▸ hm.heap, hframes ▸ hm.global⟩

theorem Sturdy.addFunctions {m : Machine} (hm : m.Sturdy) (fs : Builtin.Group) :
    ((Act.addFunctions fs).run m).2.Sturdy := by
  induction fs generalizing m with
  | nil => exact hm
  | cons f fs ih => exact ih ((hm.allocRaw (.function ⟨f.1, .native f.2⟩) true).modifyBinds _ _)

theorem Reached.sturdy {m : Machine} (hm : m.Reached) : m.Sturdy := by
  induction hm with
  | fresh s pacing fs =>
    have hblank : (s.blank pacing).Sturdy := ⟨Heap.threaded_empty.wellFormed, Nat.zero_lt_one⟩
    have hshared := (hblank.allocRaw .unit true).allocRaw .nil true
    refine Sturdy.addFunctions ?_ fs
    exact ⟨hshared.heap, hshared.global⟩
  | turn _ h ih => exact h.sturdy ih

/-- While nothing is collected, an evaluation leaves every object with what it holds, dicts apart, and every
frame with what it binds, the global frame apart. That one keeps its names in their places; a name may be
bound to a function that is new, and new names come behind the others. -/
theorem Reached.eval_onlyAmends {m : Machine} (hm : m.Reached) (hpacing : m.pacing.Idle) {env : FrameId}
    {e : Expr} {budget : Nat} {r : Ref} {m' : Machine} (h : (Eval.eval env e).run budget m = some (r, m')) :
    m.heap.Became m'.heap ∧
    (∀ f, f < m.frames.arena.size → f ≠ Frames.global → m'.frames.binds f = m.frames.binds f) ∧
    Redefines (m.heap.NewFunction m'.heap) (m.frames.binds Frames.global) (m'.frames.binds Frames.global) := by
  have hsettles := (Eval.ensures_eval env e m).run Outcomes.sound_evolving h
  have hamends := hsettles.1.amends hpacing hm.sturdy not_mem_nil
  exact ⟨hamends.objects, fun f hf hglobal => hamends.binds f hf hglobal not_mem_nil, hamends.globals⟩

/-- A fresh machine where a dict is bound to the name `d`. -/
def holdingDict : Machine :=
  let x := (Act.allocRaw (.dict .empty) false).run (Settings.machine {} .never [("put", .put)])
  { x.2 with frames := x.2.frames.bindAll Frames.global [("d", x.1)] }

theorem reached_holdingDict : holdingDict.Reached :=
  ((Reached.fresh {} .never [("put", .put)]).turn (.alloc (.dict .empty) false)).turn
    (.rebind Frames.global (· ++ _))

/-- Put an entry into `d`, then give the name to a function, and define one more. -/
def redefining : Expr :=
  .list [.call "put" [.lookup "d", .lit .string "k", .lit .unit ""], .define "d" [] (.lit .unit ""),
    .define "g" ["x"] (.lookup "x")]

theorem Reached.eval_onlyAmends_redefining :
    holdingDict.Reached ∧ holdingDict.pacing = .never ∧
    ((Eval.eval Frames.global redefining).run 100 holdingDict).map
      (fun x => (x.2.frames.binds Frames.global).map Prod.fst) = some (["put", "d", "g"] : List Text) ∧
    ∀ {r m'}, (Eval.eval Frames.global redefining).run 100 holdingDict = some (r, m') →
      holdingDict.heap.Became m'.heap ∧
      (∀ f, f < holdingDict.frames.arena.size → f ≠ Frames.global →
        m'.frames.binds f = holdingDict.frames.binds f) ∧
      Redefines (holdingDict.heap.NewFunction m'.heap) (holdingDict.frames.binds Frames.global)
        (m'.frames.binds Frames.global) := by
  have hpacing : holdingDict.pacing = .never := by cbv
  exact ⟨reached_holdingDict, hpacing, by cbv, reached_holdingDict.eval_onlyAmends (hpacing ▸ fun _ => rfl)⟩

end Machine

end TinyScript
