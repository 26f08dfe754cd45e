import Mathlib.Logic.Relation
import TinyScript.Proofs.Course.Lawful
import TinyScript.Proofs.Twin.Program

/-!
# Runs step by step

A `Standing` is where an interpreter stands: at a step of an evaluation, with what is to be done with its result on a
stack, or between evaluations. Wherever it comes to from a fresh start, what is under way and what is on the stack is
lawful, so the machine has stayed on course (`Standing.Governed`). And the machine is its own twin, so every
evaluation under way keeps what it needs (`Standing.Tied`).
-/

namespace TinyScript

open Syntax (Expr)

variable {m : Machine} {s s' : Standing} {rooms : Rooms}

/-- Where an interpreter stands. -/
structure Standing where
  now : Step Ref
  /-- What is to be done with its result, the innermost first. -/
  rest : List (Ref → Machine → Step Ref)

namespace Standing

/-- The machine at present. -/
def machine (s : Standing) : Machine := s.now.machine

/-- Nothing is under way. -/
def idle (r : Ref) (m : Machine) : Standing := ⟨.done r m, []⟩

/-- What can come next. -/
inductive Next : Standing → Standing → Prop
  | begin {job : Job} {m : Machine} {k : Ref → Machine → Step Ref} {rest : List (Ref → Machine → Step Ref)} :
    Next ⟨.call job m k, rest⟩ ⟨Eval.body job m, k :: rest⟩
  /-- A job has ended, and what asked for it goes on. -/
  | resume {r : Ref} {m : Machine} {k : Ref → Machine → Step Ref} {rest : List (Ref → Machine → Step Ref)} :
    Next ⟨.done r m, k :: rest⟩ ⟨k r m, rest⟩
  | load {r : Ref} {m : Machine} (src : Text) : Next (idle r m) (idle r ((Act.loadText src).run m).2)
  | pace {r : Ref} {m : Machine} (pacing : Pacing) : Next (idle r m) (idle r { m with pacing := pacing })
  | eval {r : Ref} {m : Machine} (e : Expr) : Next (idle r m) ⟨Eval.eval Frames.global e m, []⟩
  | evalBelow {r : Ref} {m : Machine} (e : Expr) : Next (idle r m) ⟨Eval.evalBelow Frames.global e m, []⟩

/-- What can come after any number of steps. -/
abbrev Later : Standing → Standing → Prop := Relation.ReflTransGen Next

/-- Where an interpreter can come to from a fresh start. -/
def Reached (s : Standing) : Prop :=
  ∃ (settings : Settings) (pacing : Pacing) (fs : Builtin.Group) (r : Ref), Later (idle r (settings.machine pacing fs)) s

/-- An evaluation that runs to an end goes through standings. -/
theorem later_of_exec {budget : Nat} {x : Step Ref} {rest : List (Ref → Machine → Step Ref)} {r : Ref}
    (h : x.exec budget rest = some (r, m)) : Later ⟨x, rest⟩ (idle r m) := by
  induction budget generalizing x rest with
  | zero => cases h
  | succ budget ih =>
    cases x with
    | done r' m' =>
      cases rest with
      | nil =>
        cases h
        exact .refl
      | cons k rest => exact .head .resume (ih h)
    | call job m' k => exact .head .begin (ih h)

/-- The next step of the evaluation under way. -/
def step : Standing → Standing
  | ⟨.call job m k, rest⟩ => ⟨Eval.body job m, k :: rest⟩
  | ⟨.done r m, k :: rest⟩ => ⟨k r m, rest⟩
  | ⟨.done r m, []⟩ => ⟨.done r m, []⟩

/-- Whatever the job ends with, what is done with its result stays on course. -/
def Resumes (rooms : Rooms) (k : Ref → Machine → Step Ref) : Prop :=
  ∀ (rooms' : Rooms) (r : Ref) (m : Machine), rooms ⊆ rooms' → m.Kept rooms' → (k r m).Lawful (fun _ => True) rooms' m

theorem Resumes.more {rooms' : Rooms} {k : Ref → Machine → Step Ref} (h : Resumes rooms k) (hrooms : rooms ⊆ rooms') :
    Resumes rooms' k :=
  fun rooms'' r m hmore hm => h rooms'' r m (List.Subset.trans hrooms hmore) hm

/-- The record of rooms is right, and what is under way stays on course. -/
structure Governed (rooms : Rooms) (s : Standing) : Prop where
  kept : s.machine.Kept rooms
  now : ∀ {job m k}, s.now = .call job m k → job.Fits rooms ∧ Resumes rooms k
  rest : ∀ k ∈ s.rest, Resumes rooms k

/-- A lawful evaluation has come to its step on course. -/
theorem governed_of_lawful (hm : m.Kept rooms) {x : Step Ref}
    (hx : x.Lawful (fun _ => True) rooms m) {rest : List (Ref → Machine → Step Ref)}
    (hrest : ∀ k ∈ rest, Resumes rooms k) :
    ∃ rooms', Machine.Course rooms m rooms' x.machine ∧ Governed rooms' ⟨x, rest⟩ := by
  cases hx with
  | done h _ =>
    refine ⟨_, h, ⟨h.kept hm, fun {job m k} hnow => ?_, fun k hk => (hrest k hk).more h.subset⟩⟩
    cases hnow
  | call h hjob hk =>
    refine ⟨_, h, ⟨h.kept hm, fun {job m k} hnow => ?_, fun k hk => (hrest k hk).more h.subset⟩⟩
    cases hnow
    exact ⟨hjob, hk⟩

theorem governed_idle (hm : m.Kept rooms) (r : Ref) : Governed rooms (idle r m) := by
  refine ⟨hm, fun {job m k} hnow => ?_, List.forall_mem_nil _⟩
  cases hnow

end Standing

theorem Machine.Course.loadText (rooms : Rooms) (m : Machine) (src : Text) :
    Course rooms m rooms ((Act.loadText src).run m).2 := by
  rw [Act.loadText]
  cases Syntax.parseProgram src with
  | error e => exact .refl rooms m
  | ok p =>
    refine Act.defineAll_run (P := fun _ m' => Course rooms m rooms m') (.aside rfl rfl) ?_
    exact fun _ d _ m' h => h.trans (.define d)

namespace Standing

/-- From one standing to the next, the machine stays on course. -/
theorem Governed.next (h : s.Governed rooms) (hnext : s.Next s') :
    ∃ rooms', Machine.Course rooms s.machine rooms' s'.machine ∧ s'.Governed rooms' := by
  cases hnext with
  | begin =>
    obtain ⟨hjob, hk⟩ := h.now rfl
    have hbody := Eval.lawful_body hjob rooms _ (List.Subset.refl _) h.kept
    exact governed_of_lawful h.kept hbody (List.forall_mem_cons.mpr ⟨hk, h.rest⟩)
  | resume =>
    obtain ⟨hk, hrest⟩ := List.forall_mem_cons.mp h.rest
    exact governed_of_lawful h.kept (hk rooms _ _ (List.Subset.refl _) h.kept) hrest
  | @load _ m src =>
    have hload := Machine.Course.loadText rooms m src
    exact ⟨rooms, hload, governed_idle (hload.kept h.kept) _⟩
  | @pace _ m pacing =>
    have hpace : Machine.Course rooms m rooms { m with pacing := pacing } := .aside rfl rfl
    exact ⟨rooms, hpace, governed_idle (hpace.kept h.kept) _⟩
  | eval e =>
    exact governed_of_lawful h.kept (Eval.lawful_eval (.inl rfl) rooms _ (List.Subset.refl _) h.kept)
      (List.forall_mem_nil _)
  | evalBelow e =>
    exact governed_of_lawful h.kept (Eval.lawful_evalBelow e rooms _ (List.Subset.refl _) h.kept)
      (List.forall_mem_nil _)

/-- So it does however long the run. -/
theorem Governed.later (h : s.Governed rooms) (hlater : s.Later s') :
    ∃ rooms', Machine.Course rooms s.machine rooms' s'.machine ∧ s'.Governed rooms' := by
  induction hlater with
  | refl => exact ⟨rooms, .refl _ _, h⟩
  | tail _ hnext ih =>
    obtain ⟨rooms₁, hcourse, h₁⟩ := ih
    obtain ⟨rooms₂, hcourse', h₂⟩ := h₁.next hnext
    exact ⟨rooms₂, hcourse.trans hcourse', h₂⟩

end Standing

/-- A fresh machine has the global frame only. -/
theorem Settings.kept_machine (s : Settings) (pacing : Pacing) (fs : Builtin.Group) :
    (s.machine pacing fs).Kept [] := by
  have hplain {m : Machine} (hm : m.Kept []) {o : Object} (ho : o.closure? = none) :
      ((Act.allocRaw o true).run m).2.Kept [] :=
    hm.allocRaw (Object.fits_of_closure? ho) (fun _ hf => by rw [ho] at hf; cases hf) true
  have hfunctions {m : Machine} (hm : m.Kept []) : ((Act.addFunctions fs).run m).2.Kept [] := by
    induction fs generalizing m with
    | nil => exact hm
    | cons f fs ih =>
      have halloc := hplain hm (o := .function ⟨f.1, .native f.2⟩) rfl
      exact ih (halloc.setFrames (List.Subset.refl _) (halloc.frames.setGlobal _ _))
  have hblank : (s.blank pacing).Kept [] := by
    have hnone {r : Ref} {o : Object} (ho : Heap.empty.get? r = some o) : False := by
      rw [Heap.get?, slot?_empty] at ho
      cases ho
    refine ⟨Heap.threaded_empty.wellFormed, ⟨Nat.zero_lt_one, rfl, fun f hf => .inl (Nat.lt_one_iff.mp hf),
      List.forall_mem_nil _, List.forall_mem_nil _, List.forall_mem_nil _, List.forall_mem_nil _,
      List.forall_mem_nil _⟩, fun ho => (hnone ho).elim, fun ho => (hnone ho).elim⟩
  have hshared := hplain (hplain hblank (o := .unit) rfl) (o := .nil) rfl
  exact hfunctions ⟨hshared.heap, hshared.frames, hshared.objects, hshared.sole⟩

namespace Standing

theorem Reached.later (hs : s.Reached) (hlater : s.Later s') : s'.Reached := by
  obtain ⟨settings, pacing, fs, r, hfresh⟩ := hs
  exact ⟨settings, pacing, fs, r, hfresh.trans hlater⟩

/-! ## Twins all along -/

/-- When nothing is under way, the machine is its own twin. -/
def Idling : Post Ref Ref := fun _ m _ n => Alike ⟨[], []⟩ m n

theorem intact_idling : Idling.Intact := fun ⟨_, h⟩ => h.intact

/-- The evaluation under way is tied to itself. -/
def Tied (s : Standing) : Prop := ∃ R : Post Ref Ref, R.Intact ∧ Tie R s.now s.now ∧ Stacked Idling R s.rest s.rest

theorem tied_idle (hm : Alike ⟨[], []⟩ m m) (r : Ref) : Tied (idle r m) :=
  ⟨Idling, intact_idling, .done hm, .nil⟩

theorem Tied.alike {r : Ref} (h : Tied (idle r m)) : Alike ⟨[], []⟩ m m := by
  obtain ⟨R, -, htie, hrest⟩ := h
  cases hrest
  cases htie with
  | done hdone => exact hdone

/-- An evaluation that keeps its twin ends with one. -/
theorem tied_start {x : Eval Ref} (hx : Eval.Ties (Keeps ⟨[], []⟩ fun σ => σ) x m x m) : Tied ⟨x m, []⟩ := by
  refine ⟨Idling, intact_idling, Tie.mono hx ?_, .nil⟩
  rintro _ _ _ _ ⟨σ, hend, -⟩
  exact ⟨σ, hend⟩

theorem Tied.next (h : s.Tied) (hnext : s.Next s') : s'.Tied := by
  cases hnext with
  | begin =>
    obtain ⟨R, hR, htie, hrest⟩ := h
    cases htie with
    | call hready hk => exact ⟨_, hready.intact.2, Eval.ties_body hready, .cons hk hR hrest⟩
  | resume =>
    obtain ⟨R, -, htie, hrest⟩ := h
    cases htie with
    | done hdone =>
      cases hrest with
      | cons hk hS hrest => exact ⟨_, hS, hk _ _ _ _ hdone, hrest⟩
  | load src =>
    obtain ⟨ρ, hm⟩ := h.alike
    exact tied_idle (Act.meets_loadText src hm).2 _
  | @pace _ m pacing =>
    obtain ⟨ρ, hm⟩ := h.alike
    exact tied_idle ⟨ρ, hm.paced pacing pacing⟩ _
  | eval e =>
    obtain ⟨ρ, hm⟩ := h.alike
    exact tied_start (Eval.ties_eval hm (.inl rfl) e)
  | evalBelow e =>
    obtain ⟨ρ, hm⟩ := h.alike
    exact tied_start (Eval.ties_evalBelow hm (.inl rfl) e)

end Standing

end TinyScript
