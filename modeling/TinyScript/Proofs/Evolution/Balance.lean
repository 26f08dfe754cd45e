import Mathlib
import TinyScript.Proofs.Collect.Dangling
import TinyScript.Proofs.Evolution.Evaluation

/-!
# Evaluation is balanced

When an evaluation ends, with whatever result, the pins are the same as before, the same frames are registered and the
same number of calls is under way. A sweep unregisters the frame with the captured names of a function that it frees, so
this takes that no such frame is registered, which evaluations keep too (`Machine.Orderly`).
-/

namespace TinyScript

open Syntax (Expr)

/-- A function's captured names, if it has any, are in a frame of the arena that is not registered. -/
def Object.Detached (fs : Frames) (o : Object) : Prop :=
  ∀ f, o.closure? = some f → f < fs.arena.size ∧ f ∉ fs.registered

theorem Object.detached_of_closure? {fs : Frames} {o : Object} (ho : o.closure? = none) : o.Detached fs := by
  intro f hf
  rw [ho] at hf
  cases hf

/-- No frame with a function's captured names is registered. All frames that are spoken of exist. -/
structure Machine.Orderly (m : Machine) : Prop where
  registered : ∀ f ∈ m.frames.registered, f < m.frames.arena.size
  detached : m.heap.Every (Object.Detached m.frames)

theorem Heap.Every.mono {P Q : Object → Prop} {h : Heap} (hh : h.Every P) (hPQ : ∀ o, P o → Q o) : h.Every Q :=
  fun i s hs o ho => hPQ o (hh i s hs o ho)

/-- What an evaluation on an orderly machine leaves as it was. -/
structure Machine.KeepsOrder (m m' : Machine) : Prop where
  orderly : m'.Orderly
  size_le : m.frames.arena.size ≤ m'.frames.arena.size
  registered : m'.frames.registered = m.frames.registered
  depth : m'.depth = m.depth

namespace Machine

theorem KeepsOrder.trans {m₁ m₂ m₃ : Machine} (h : m₁.KeepsOrder m₂) (h' : m₂.KeepsOrder m₃) : m₁.KeepsOrder m₃ :=
  ⟨h'.orderly, h.size_le.trans h'.size_le, h'.registered.trans h.registered, h'.depth.trans h.depth⟩

namespace Orderly

variable {m : Machine}

/-- Another heap with objects of the same kind, and bindings changed. -/
theorem congr (hm : m.Orderly) {m' : Machine} (hheap : m'.heap.Every (Object.Detached m.frames))
    (hsize : m'.frames.arena.size = m.frames.arena.size) (hregistered : m'.frames.registered = m.frames.registered)
    (hdepth : m'.depth = m.depth) : m.KeepsOrder m' where
  orderly := by
    refine ⟨?_, hheap.mono fun o ho => ?_⟩
    · rw [hregistered, hsize]
      exact hm.registered
    · rw [Object.Detached, hregistered, hsize]
      exact ho
  size_le := hsize.ge
  registered := hregistered
  depth := hdepth

theorem refl (hm : m.Orderly) : m.KeepsOrder m := hm.congr hm.detached rfl rfl rfl

theorem mark (hm : m.Orderly) : m.KeepsOrder m.mark.1 := hm.congr (hm.detached.fades m.fades_mark) rfl rfl rfl

/-- Freeing an object gives up its frame at most. -/
theorem free (hm : m.Orderly) (i : Nat) : m.KeepsOrder (m.free i) := by
  rw [Machine.free]
  cases hclosure : ((m.heap.slots[i]?).bind Slot.object).bind Object.closure? with
  | none => exact hm.congr (hm.detached.fades (m.heap.fades_unlink i)) rfl rfl rfl
  | some f =>
    obtain ⟨o, ho, hf⟩ := Option.bind_eq_some_iff.mp hclosure
    obtain ⟨s, hs, ho⟩ := Option.bind_eq_some_iff.mp ho
    have hregistered : (m.frames.leave f).registered = m.frames.registered :=
      List.erase_of_not_mem (hm.detached i s hs o ho f hf).2
    exact hm.congr (hm.detached.fades (m.heap.fades_unlink i)) (m.frames.size_leave f) hregistered rfl

/-- A slot that is swept may take a frame of captured names with it, which no one has registered. -/
theorem sweepSlot (hm : m.Orderly) (i : Nat) : m.KeepsOrder (m.sweepSlot i).1 := by
  rw [Machine.sweepSlot]
  split
  · exact hm.refl
  · split
    · exact hm.free i
    · exact hm.congr (hm.detached.modify i fun s hs => hs) rfl rfl rfl
    · exact hm.refl

theorem sweep (hm : m.Orderly) : m.KeepsOrder m.sweep.1 :=
  walk_induction (Q := m.KeepsOrder) (fun _ i h => h.trans (h.orderly.sweepSlot i)) hm.refl

theorem define (hm : m.Orderly) (d : Syntax.Def) : m.KeepsOrder ((Eval.define d).run m).2 := by
  obtain ⟨heap, hrun, hheap⟩ := m.define_run d
  rw [hrun]
  have halloc : (m.heap.alloc d.object true).1.Every (Object.Detached m.frames) :=
    hm.detached.alloc (Object.detached_of_closure? rfl) true
  refine hm.congr ?_ (Frames.size_modifyBinds _ _ _) rfl rfl
  rcases hheap with rfl | ⟨old, hroot⟩
  · exact halloc
  · exact halloc.fades (Heap.fades_setRoot? hroot)

/-- A frame made for captured names has no function yet. -/
theorem newClosure (hm : m.Orderly) (bs : List (Text × Ref)) :
    Orderly { m with frames := (m.frames.newClosure bs).1 } := by
  have hle : m.frames.arena.size ≤ (m.frames.newClosure bs).1.arena.size := by
    rw [Frames.size_newClosure]
    omega
  refine ⟨fun f hf => Nat.lt_of_lt_of_le (hm.registered f hf) hle, hm.detached.mono fun o ho f hf => ?_⟩
  exact ⟨Nat.lt_of_lt_of_le (ho f hf).1 hle, (ho f hf).2⟩

/-- No function captured names in a frame that is made only now. -/
theorem fork (hm : m.Orderly) (parent : FrameId) : ((Act.fork parent).run m).2.Orderly := by
  have hlt : m.frames.arena.size < (m.frames.fork parent).1.arena.size := by
    rw [Frames.size_fork]
    omega
  refine ⟨fun f hf => ?_, hm.detached.mono fun o ho f hf => ⟨(ho f hf).1.trans hlt, fun hmem => ?_⟩⟩
  · rcases List.mem_cons.mp hf with rfl | hf
    · exact hlt
    · exact (hm.registered f hf).trans hlt
  · rcases List.mem_cons.mp hmem with rfl | hmem
    · exact Nat.lt_irrefl _ (ho _ hf).1
    · exact (ho f hf).2 hmem

end Orderly

/-- Evaluations keep machines orderly, and what they register and call they take back. -/
theorem Evolves.keepsOrder {floor : Nat} {own : List FrameId} {m m' : Machine} (h : m.Evolves floor own m')
    (hm : m.Orderly) : m.KeepsOrder m' := by
  induction h with
  | refl => exact hm.refl
  | trans _ _ ih ih' => exact (ih hm).trans (ih' (ih hm).orderly)
  | aside h =>
    refine hm.congr ?_ ?_ ?_ h.depth
    · rw [h.heap]
      exact hm.detached
    · rw [h.frames]
    · rw [h.frames]
  | collect => exact hm.mark.trans hm.mark.orderly.sweep
  | alloc o ho => exact hm.congr (hm.detached.alloc (Object.detached_of_closure? ho) false) rfl rfl rfl
  | @lambda _ m m' params body bs _ ih =>
    have hinner := ih (hm.newClosure bs)
    have hsize : m.frames.arena.size + 1 ≤ m'.frames.arena.size := m.frames.size_newClosure bs ▸ hinner.size_le
    have hregistered : m'.frames.registered = m.frames.registered := hinner.registered
    refine ⟨⟨hinner.orderly.registered, hinner.orderly.detached.alloc (fun f hf => ?_) false⟩,
      Nat.le_of_succ_le hsize, hregistered, hinner.depth⟩
    -- its frame was made after every frame that is registered
    cases hf
    refine ⟨hsize, fun hmem => ?_⟩
    exact absurd (hm.registered _ (hregistered ▸ hmem)) (Nat.lt_irrefl _)
  | define d => exact hm.define d
  | setDict t' hd => exact hm.congr (hm.detached.set _ (Object.detached_of_closure? rfl)) rfl rfl rfl
  | pins => exact hm.congr hm.detached rfl rfl rfl
  | bind bs _ => exact hm.congr hm.detached (Frames.size_modifyBinds _ _ _) rfl rfl
  | @frame _ m m' parent _ ih =>
    have hinner := ih (hm.fork parent)
    have hsize : m.frames.arena.size + 1 ≤ m'.frames.arena.size := m.frames.size_fork parent ▸ hinner.size_le
    have hforked : m'.frames.registered = m.frames.arena.size :: m.frames.registered := hinner.registered
    have hleft : (m'.frames.leave m.frames.arena.size).registered = m.frames.registered := by
      show m'.frames.registered.erase m.frames.arena.size = m.frames.registered
      rw [hforked, List.erase_cons_head]
    have hle : m'.frames.arena.size ≤ (m'.frames.leave m.frames.arena.size).arena.size :=
      (m'.frames.size_leave m.frames.arena.size).ge
    refine ⟨⟨fun f hf => ?_, hinner.orderly.detached.mono fun o ho f hf => ?_⟩, ?_, hleft, hinner.depth⟩
    · exact Nat.lt_of_lt_of_le (hinner.orderly.registered f (List.mem_of_mem_erase hf)) hle
    · refine ⟨Nat.lt_of_lt_of_le (ho f hf).1 hle, fun hmem => (ho f hf).2 ?_⟩
      exact List.mem_of_mem_erase hmem
    · exact (Nat.le_of_succ_le hsize).trans hle
  | @call _ m m' _ ih =>
    have hinner := ih ⟨hm.registered, hm.detached⟩
    have hdepth : m'.depth = m.depth + 1 := hinner.depth
    refine ⟨⟨hinner.orderly.registered, hinner.orderly.detached⟩, hinner.size_le, hinner.registered, ?_⟩
    show m'.depth - 1 = m.depth
    omega

theorem Settles.pins_eq {m m' : Machine} (h : m.Settles m') : m'.pins = m.pins := by
  refine Array.ext_getElem? fun i => ?_
  by_cases hi : i < m.pins.size
  · exact (h.evolves.pins_below le_rfl).2 i hi
  · rw [Array.getElem?_eq_none (by rw [h.size_eq]; omega), Array.getElem?_eq_none (by omega)]

/-- The same pins, registered frames and calls. -/
structure Balances (m m' : Machine) : Prop where
  pins : m'.pins = m.pins
  registered : m'.frames.registered = m.frames.registered
  liveFrames : m'.liveFrames = m.liveFrames := congrArg List.length registered
  depth : m'.depth = m.depth

/-- **What settles is balanced.** -/
theorem Settles.balances {m m' : Machine} (h : m.Settles m') (hm : m.Orderly) : m.Balances m' :=
  { pins := h.pins_eq, registered := (h.evolves.keepsOrder hm).registered, depth := (h.evolves.keepsOrder hm).depth }

end Machine

/-! ## Values from data and bytes -/

namespace Act

variable {α β ε : Type}

/-- The action drops all pins that it makes. -/
def Settles (x : Act α) : Prop := ∀ m : Machine, m.Settles (x.run m).2

theorem Settles.bind {x : Act α} {f : α → Act β} (hx : x.Settles) (hf : ∀ a, (f a).Settles) : (x >>= f).Settles := by
  intro m
  have hfirst : m.Settles (x.run m).2 := hx m
  have hsecond := hf (x.run m).1 (x.run m).2
  refine ⟨hfirst.evolves.trans ?_, hsecond.size_eq.trans hfirst.size_eq⟩
  exact hfirst.size_eq ▸ hsecond.evolves

theorem Settles.pure (a : α) : Settles (Pure.pure a) := fun m => ⟨.refl m, rfl⟩

/-- Pins that were added are dropped, even if it fails. -/
theorem settles_dropping {x : ExceptT ε Act α} (hx : ∀ floor, (evolution floor []).ObeysTry x) :
    (do let mark ← pinMark; let a ← x.run; unpinTo mark; return a : Act (Except ε α)).Settles :=
  fun m => (hx m.pins.size m le_rfl).settle

/-- Reading a packed value leaves no pin. -/
theorem settles_unpack (t : Text) : (unpack t).Settles := by
  refine Settles.bind (settles_dropping fun _ => obeys_value .memory _ t.bytes) fun r => ?_
  split <;> exact .pure _

theorem settles_ofDatum (d : Data.Datum) : (ofDatum d).Settles := settles_dropping fun _ => obeys_ofDatumAt 0 d

theorem settles_readJson (t : Text) : (readJson t).Settles := by
  rw [readJson]
  cases Data.Json.read? t with
  | none => exact .pure _
  | some d =>
    refine Settles.bind (fun m => ?_) fun _ => .pure _
    have hnote := Machine.SameStore.note m (" decoded type : " ++ d.typeName)
    exact ⟨.aside hnote, congrArg Array.size hnote.pins⟩

/-- Nor does reading JSON. -/
theorem settles_ofJson (t : Text) : (ofJson t).Settles := by
  refine (settles_readJson t).bind fun d => ?_
  split
  · exact .pure _
  · exact (settles_ofDatum _).bind fun _ => .pure _

end Act

/-- On an orderly machine, whatever is evaluated, applied or decoded, the pins, the registered frames and the
depth of calls are the same at the end. -/
theorem Machine.Orderly.run_balanced {m : Machine} (hm : m.Orderly) :
    (∀ {env e budget r m'}, (Eval.eval env e).run budget m = some (r, m') → m.Balances m') ∧
    (∀ {fn args budget r m'}, (Eval.apply fn args).run budget m = some (r, m') → m.Balances m') ∧
    (∀ t, m.Balances ((Act.unpack t).run m).2) ∧
    (∀ d, m.Balances ((Act.ofDatum d).run m).2) ∧
    ∀ t, m.Balances ((Act.ofJson t).run m).2 := by
  refine ⟨fun h => ?_, fun h => ?_, fun t => ?_, fun d => ?_, fun t => ?_⟩
  · exact ((Eval.ensures_eval _ _ m).run Outcomes.sound_evolving h).balances hm
  · exact ((Eval.ensures_apply _ _ m).run Outcomes.sound_evolving h).balances hm
  · exact (Act.settles_unpack t m).balances hm
  · exact (Act.settles_ofDatum d m).balances hm
  · exact (Act.settles_ofJson t m).balances hm

/-! ## Fresh machines -/

namespace Machine.Orderly

variable {m : Machine}

theorem allocRaw (hm : m.Orderly) {o : Object} (ho : o.closure? = none) (isRoot : Bool) :
    ((Act.allocRaw o isRoot).run m).2.Orderly :=
  ⟨hm.registered, hm.detached.alloc (Object.detached_of_closure? ho) isRoot⟩

theorem assign (hm : m.Orderly) (f : FrameId) (name : Text) (r : Ref) : ((Act.assign f name r).run m).2.Orderly := by
  refine KeepsOrder.orderly (hm.congr ?_ ?_ rfl rfl)
  · exact hm.detached
  · exact Frames.size_modifyBinds _ _ _

/-- Native functions have no captured names. -/
theorem addFunctions (hm : m.Orderly) (fs : Builtin.Group) : ((Act.addFunctions fs).run m).2.Orderly := by
  induction fs generalizing m with
  | nil => exact hm
  | cons f fs ih => exact ih ((hm.allocRaw (o := .function ⟨f.1, .native f.2⟩) rfl true).assign _ f.1 _)

end Machine.Orderly

/-- No frame is registered on a new machine. -/
theorem Settings.orderly_machine (s : Settings) (pacing : Pacing) (fs : Builtin.Group) :
    (s.machine pacing fs).Orderly := by
  have hblank : (s.blank pacing).Orderly := ⟨fun f hf => (List.not_mem_nil hf).elim, Heap.every_empty _⟩
  have hshared := (hblank.allocRaw (o := .unit) rfl true).allocRaw (o := .nil) rfl true
  refine Machine.Orderly.addFunctions ?_ fs
  exact ⟨hshared.registered, hshared.detached⟩

/-- A collection before each of seven allocations frees four objects, a function with captured names among
them. Three frames are made and left. -/
theorem Machine.Orderly.run_balanced_capturing :
    (Settings.machine {} .always []).Orderly ∧
      ((Eval.eval Frames.global .capturing).run 100 (Settings.machine {} .always [])).map
        (fun x => (x.2.frames.arena.size, x.2.totals.collected)) = some (5, 4) ∧
      ∀ {r m'}, (Eval.eval Frames.global .capturing).run 100 (Settings.machine {} .always []) = some (r, m') →
        (Settings.machine {} .always []).Balances m' :=
  ⟨Settings.orderly_machine {} .always [], by cbv,
    (Machine.Orderly.run_balanced (Settings.orderly_machine {} .always [])).1⟩

end TinyScript
