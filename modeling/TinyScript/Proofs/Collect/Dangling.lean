import Mathlib
import TinyScript.Proofs.Evolution.Evaluation
import TinyScript.Proofs.Twin.Program

/-!
# Nothing dangles

A machine that is its own twin holds valid references only, and every machine that was started afresh and used is its
own twin. So nothing dangles on it, at whatever step an evaluation is, even when it collects before every allocation.
The allocations within a step are told by the schedule (`Eval.Asks`): one that calls for a collection at all safe
moments collects as often as one that always does, so at an unsafe moment nothing is ever asked.
-/

namespace TinyScript

open Syntax (Expr)

/-! ## Moments -/

namespace Moment

/-- The moment after an action that depends on nothing else. -/
def after {α : Type} (t : Moment) (x : Act α) : Moment :=
  (x.run { heap := t.heap, frames := t.frames, pins := t.pins, totals := t.totals }).2.moment

variable {t t' : Moment} {r : Ref}

/-- Where nothing dangles, all that is held is reachable. -/
theorem Sound.reachable {m : Machine} (hm : m.moment.Sound) (hr : m.moment.Held r) : m.Reachable r := by
  have hvalid := hm r hr
  induction hr with
  | pinned hr => exact .seed (.pinned hr) hvalid
  | global hb => exact .seed (.global hb) hvalid
  | registered hf habove hb => exact .seed (.registered hf habove hb) hvalid
  | root hr => exact .seed (.flagged hr (.inl rfl)) hvalid
  | part hheld ho hs ih => exact .part (ih (hm _ hheld)) ho hs hvalid
  | captured hheld ho hf habove hb ih => exact .captured (ih (hm _ hheld)) ho hf habove hb hvalid

/-- The frames and pins hold no more than before. -/
structure Fewer (t t' : Moment) : Prop where
  pins : t'.pins = t.pins := by rfl
  registered : t'.frames.registered ⊆ t.frames.registered
  parent : ∀ f, t'.frames.parent? f = t.frames.parent? f
  binds : ∀ f, t'.frames.binds f ⊆ t.frames.binds f

/-- If so, and `K` holds of the roots and of what was held, it holds of all that is held now, as long as objects
that were not held before refer to nothing. -/
theorem Held.of_fewer {K : Ref → Prop} (hr : t'.Held r) (h : t.Fewer t') (hheld : ∀ {r}, t.Held r → K r)
    (hroot : ∀ {r}, t'.heap.flag? r = some .root → K r)
    (hobject : ∀ {r o}, K r → t'.heap.get? r = some o →
      (t.Held r ∧ t.heap.get? r = some o) ∨ (o.children = [] ∧ o.closure? = none)) : K r := by
  have habove {f g : FrameId} (hfg : t'.frames.Above f g) : t.frames.Above f g :=
    hfg.mono fun f p hp => (h.parent f).symm.trans hp
  induction hr with
  | pinned hr => exact hheld (.pinned (h.pins ▸ hr))
  | global hb => exact hheld (.global (h.binds _ hb))
  | registered hf hfg hb => exact hheld (.registered (h.registered hf) (habove hfg) (h.binds _ hb))
  | root hr => exact hroot hr
  | part _ ho hs ih =>
    rcases hobject ih ho with ⟨hr, ho⟩ | ⟨hnone, -⟩
    · exact hheld (.part hr ho hs)
    · rw [hnone] at hs
      cases hs
  | captured _ ho hf hfg hb ih =>
    rcases hobject ih ho with ⟨hr, ho⟩ | ⟨-, hnone⟩
    · exact hheld (.captured hr ho hf (habove hfg) (h.binds _ hb))
    · rw [hnone] at hf
      cases hf

theorem Safe.forceCollect (ht : t.Safe) : (t.after Act.forceCollect).Safe := by
  obtain ⟨m, rfl, hafter⟩ : ∃ m : Machine, m.moment = t ∧
      t.after Act.forceCollect = (Act.forceCollect.run m).2.moment := ⟨_, rfl, rfl⟩
  have hwf := ht.wellFormed
  obtain ⟨h', l', totals, notes, hrun, -, hthreaded, -, hcleared⟩ := Machine.forceCollect_spec hwf
  rw [hafter, hrun]
  have hreach {r : Ref} (hr : m.moment.Held r) : m.Reachable r := ht.sound.reachable hr
  refine ⟨hthreaded.wellFormed, fun r hr => (hcleared.valid_iff hwf).mpr (hreach ?_)⟩
  refine hr.of_fewer (t := m.moment) ⟨rfl, ?_, ?_, fun f => ?_⟩ id (fun {r} hr => ?_) fun {r o} hr ho => .inl ⟨hr, ?_⟩
  · exact Frames.registered_foldl_leave_subset _ _
  · exact fun f => Frames.parent?_foldl_leave _ f _
  · show (m.doomed.foldl Frames.leave m.frames).binds f ⊆ _
    rw [Frames.binds_foldl_leave]
    split
    · exact List.nil_subset _
    · exact List.Subset.refl _
  · have hflag := hcleared.flag?_eq hwf ((hcleared.valid_iff hwf).mp (Heap.valid_of_flag? hr))
    rw [show h'.flag? r = some .root from hr] at hflag
    split at hflag
    · next hroot => exact .root hroot
    · cases hflag
  · exact (hcleared.get?_eq hwf (hreach hr)).symm.trans ho

/-- A new object is not held, unless it is a root; such a one is to refer to nothing. -/
theorem Safe.allocRaw (ht : t.Safe) (o : Object) {isRoot : Bool}
    (ho : isRoot → o.children = [] ∧ o.closure? = none) : (t.after (Act.allocRaw o isRoot)).Safe := by
  have hwf := ht.wellFormed
  have hget {r : Ref} {p : Object} (hp : t.heap.get? r = some p) : (t.heap.alloc o isRoot).1.get? r = some p :=
    hwf.get?_alloc_iff.mpr (.inr hp)
  let K (r : Ref) : Prop := t.Held r ∨ (r = (t.heap.alloc o isRoot).2 ∧ isRoot)
  refine ⟨(hwf.alloc o isRoot).wellFormed, fun r hr => ?_⟩
  have hK : K r := by
    refine hr.of_fewer (t := t) ⟨rfl, List.Subset.refl _, fun _ => rfl, fun _ => List.Subset.refl _⟩ .inl
      (fun {r} hr => ?_) fun {r p} hr hp => ?_
    · exact (hwf.flag?_alloc_iff.mp hr).elim .inr fun hr => .inl (.root hr)
    · rcases hr with hr | ⟨rfl, hroot⟩
      · obtain ⟨q, hq⟩ := Heap.valid_iff_get?.mp (ht.sound r hr)
        cases (hget hq).symm.trans hp
        exact .inl ⟨hr, hq⟩
      · cases (hwf.get?_alloc_iff.mpr (.inl ⟨rfl, rfl⟩)).symm.trans hp
        exact .inr (ho hroot)
  rcases hK with hr | ⟨rfl, -⟩
  · obtain ⟨q, hq⟩ := Heap.valid_iff_get?.mp (ht.sound r hr)
    exact Heap.valid_of_get? (hget hq)
  · exact Heap.valid_of_get? (hwf.get?_alloc_iff.mpr (.inl ⟨rfl, rfl⟩))

end Moment

/-! ## Sessions -/

/-- The machines that come from a fresh one. -/
inductive Session : Machine → Prop
  | fresh (s : Settings) (pacing : Pacing) (fs : Builtin.Group) : Session (s.machine pacing fs)
  | load {m : Machine} (src : Text) : Session m → Session ((Act.loadText src).run m).2
  | run {m m' : Machine} {src : Text} {budget : Nat} {a : Except RunError Ref} : Session m →
    (Eval.runText src).run budget m = some (a, m') → Session m'
  | eval {m m' : Machine} {src : Text} {budget : Nat} {a : Except Syntax.SyntaxError Ref} : Session m →
    (Eval.evalText src).run budget m = some (a, m') → Session m'
  | pace {m : Machine} (pacing : Pacing) : Session m → Session { m with pacing := pacing }

/-- The machine with another pacing. -/
def Machine.paced (m : Machine) (pacing : Pacing) : Machine := { m with pacing := pacing }

/-- Twins that run to an end are twins at the end. -/
theorem Tie.alike_of_run {ε : Type} {Γ : Scope} {x : Step (Except ε Ref)} {a : Except ε Ref} {m' : Machine}
    (hx : Tie (Ends (Alike Γ) (Keeps Γ fun σ => σ)) x x) {budget : Nat} (h : x.run budget = some (a, m')) :
    Alike Γ m' m' := by
  have hrun := hx.run budget
  rw [h] at hrun
  cases hrun with
  | some hend =>
    cases a with
    | error e => exact hend.2
    | ok r =>
      obtain ⟨σ, h, -⟩ := hend
      exact ⟨σ, h⟩

/-- A machine that comes from a fresh one is its own twin. -/
theorem Session.alike {m : Machine} (h : Session m) : Alike ⟨[], []⟩ m m := by
  induction h with
  | fresh s pacing fs => exact s.alike_machine pacing pacing fs
  | load src _ ih =>
    obtain ⟨ρ, h⟩ := ih
    exact (Act.meets_loadText src h).2
  | run _ hrun ih =>
    obtain ⟨ρ, h⟩ := ih
    exact Tie.alike_of_run (Eval.ties_runText h _) hrun
  | eval _ hrun ih =>
    obtain ⟨ρ, h⟩ := ih
    exact Tie.alike_of_run (Eval.ties_evalText h _) hrun
  | pace pacing _ ih =>
    obtain ⟨ρ, h⟩ := ih
    exact ⟨ρ, h.paced pacing pacing⟩

/-! ## Evaluations -/

/-- The moments at which an evaluation allocates, if it collects each time before. What tells them from outside is
a schedule that leaves out a collection at such a moment and at no other: it collects less often. -/
def Eval.Asks (x : Eval Ref) (m : Machine) (t : Moment) : Prop :=
  ∃ elapsed : Moment → Bool, (∀ t', elapsed t' = false → t' = t) ∧
    ∃ k, ((x (m.paced (.timed elapsed))).trace k []).totals.cycles ≠ ((x (m.paced .always)).trace k []).totals.cycles

/-- An evaluation that collects before every allocation holds valid references only: at every step, also if a
function is defined next, at every allocation, before the collection, after it and when the object is there, and
at the end. -/
structure Eval.NeverDangles (x : Eval Ref) (m : Machine) : Prop where
  steps : ∀ k (d : Syntax.Def), ((x (m.paced .always)).trace k []).moment.Sound ∧
    (((x (m.paced .always)).trace k []).moment.after (Act.allocRaw d.object true)).Sound
  allocations : ∀ t (o : Object), x.Asks m t → t.Sound ∧ (t.after Act.forceCollect).Sound ∧
    ((t.after Act.forceCollect).after (Act.allocRaw o false)).Sound
  ending : ∀ {budget r m'}, x.run budget (m.paced .always) = some (r, m') →
    m'.moment.Sound ∧ m'.heap.valid r ∧ ∃ k, (x (m.paced .always)).trace k [] = m'

/-- An evaluation that keeps its twin, whatever their pacing, and keeps the pacing. -/
theorem Eval.NeverDangles.of_ties {Γ : Scope} {x : Eval Ref} {m : Machine}
    (hx : ∀ p q : Pacing, Eval.Ties (Keeps Γ fun σ => σ) x (m.paced p) x (m.paced q))
    (hpace : ∀ p, (x (m.paced p)).Ensures .evolving p fun _ m' => m'.pacing = p) : x.NeverDangles m := by
  have hpost : Post.Intact (Keeps Γ fun σ : Pairing => σ) := fun ⟨_, h, _⟩ => h.intact
  have htrace (p q : Pacing) (k : Nat) : ((x (m.paced p)).trace k []).Intact ((x (m.paced q)).trace k []) :=
    Tie.intact_trace (hx p q) hpost .nil k
  have hkeeps (p : Pacing) (k : Nat) : ((x (m.paced p)).trace k []).pacing = p :=
    (hpace p).pacing_trace Outcomes.sound_evolving (fun _ _ h => h) .nil k
  have hsafe {t : Moment} (ht : x.Asks m t) : t.Safe := by
    obtain ⟨elapsed, honly, k, hcycles⟩ := ht
    by_contra hunsafe
    have heager : (Pacing.timed elapsed).Eager := by
      intro t' ht'
      by_contra hnot
      exact hunsafe (honly t' (Bool.eq_false_of_not_eq_true hnot) ▸ ht')
    refine hcycles ((htrace (.timed elapsed) .always k).inStep ?_ ?_)
    · rwa [hkeeps]
    · rw [hkeeps]
      exact fun _ _ => rfl
  refine ⟨fun k d => ?_, fun t o ht => ?_, fun {budget r m'} hrun => ?_⟩
  · have hstep := (htrace .always .always k).safe
    exact ⟨hstep.sound, (hstep.allocRaw d.object fun _ => ⟨rfl, rfl⟩).sound⟩
  · have hcollected := (hsafe ht).forceCollect
    exact ⟨(hsafe ht).sound, hcollected.sound, (hcollected.allocRaw o fun h => by cases h).sound⟩
  · have hend := Tie.run (hx .always .always) budget
    obtain ⟨k, hk⟩ := Step.exists_trace_of_run hrun
    rw [show (x (m.paced .always)).run budget = some (r, m') from hrun] at hend
    cases hend with
    | some hkeeps =>
      obtain ⟨σ, h, hr⟩ := hkeeps
      exact ⟨h.sound, h.heaps.left_valid hr, k, hk 0⟩

/-- Whatever was done with a machine before, evaluating an expression on it, in the global frame or below,
holds valid references only. -/
theorem Session.eval_neverDangles {m : Machine} (hm : Session m) (e : Expr) :
    (Eval.eval Frames.global e).NeverDangles m ∧ (Eval.evalBelow Frames.global e).NeverDangles m := by
  obtain ⟨ρ, h⟩ := hm.alike
  refine ⟨.of_ties (fun p q => Eval.ties_eval (h.paced p q) (Or.inl rfl) e) fun p => ?_,
    .of_ties (fun p q => Eval.ties_evalBelow (h.paced p q) (Or.inl rfl) e) fun p => ?_⟩
  · exact .call rfl fun _ _ h => .done h.evolves.unchanged.1
  · exact .call rfl fun _ _ h => .done h.evolves.unchanged.1

/-- A list whose first item comes from a call of a function with captured names. That function is dropped
before the list is made. -/
def Syntax.Expr.capturing : Expr :=
  .list [.letIn [("y", .lit .unit "")] (.letIn [("f", .lambda ["x"] (.list [.lookup "x", .lookup "y"]))]
    (.bin .eq (.call "f" [.lit .bool "true"]) (.lit .nil ""))), .lit .unit ""]

/-- Seven allocations, and four objects freed in between. -/
theorem Session.capturing_neverDangles :
    Session (Settings.machine {} .never []) ∧
      ((Eval.eval Frames.global .capturing).run 100 ((Settings.machine {} .never []).paced .always)).map
        (fun x => (x.2.totals.cycles, x.2.totals.collected)) = some (7, 4) ∧
      (Eval.eval Frames.global .capturing).NeverDangles (Settings.machine {} .never []) ∧
      (Eval.evalBelow Frames.global .capturing).NeverDangles (Settings.machine {} .never []) :=
  ⟨.fresh {} .never [], by cbv, Session.eval_neverDangles (.fresh {} .never []) .capturing⟩

end TinyScript
