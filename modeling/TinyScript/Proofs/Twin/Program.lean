import TinyScript.Machine.Program
import TinyScript.Proofs.Twin.Run

/-!
# Programs on twins

Machines that are started alike are twins, whatever their pacing, and they stay twins when functions are
defined, a program is run or an expression is evaluated.
-/

namespace TinyScript

open Syntax (Expr Program)

namespace Act

variable {Γ : Scope} {ρ : Pairing} {m n : Machine}

/-- What holds at first, and goes on to hold with each definition, holds of the machine that has them all. -/
theorem defineAll_run {P : List Syntax.Def → Machine → Prop} {p : Program}
    (hstart : P [] { m with program := some ⟨((m.program.map Program.defs).getD []) ++ p.defs⟩ })
    (hstep : ∀ front, ∀ d ∈ p.defs, ∀ m, P front m → P (front ++ [d]) ((Eval.define d).run m).2) :
    P p.defs ((defineAll p).run m).2 := by
  have hdefs (ds front : List Syntax.Def) (hds : ds ⊆ p.defs) {m : Machine} (hm : P front m) :
      P (front ++ ds) ((ds.forM fun d => do let _ ← Eval.define d : Act Unit).run m).2 := by
    induction ds generalizing front m with
    | nil => exact (List.append_nil front).symm ▸ hm
    | cons d ds ih =>
      obtain ⟨hd, hds⟩ := List.cons_subset.mp hds
      rw [List.append_cons]
      exact ih (front ++ [d]) hds (hstep front d hd m hm)
  exact hdefs p.defs [] (List.Subset.refl _) hstart

/-- Doing the same for everything in a list. -/
theorem meets_forM {α : Type} {f : α → Act Unit} {xs : List α}
    (hf : ∀ x m n, Alike Γ m n → Meets (fun _ m' _ n' => Alike Γ m' n') (f x) m (f x) n) (h : Alike Γ m n) :
    Meets (fun _ m' _ n' => Alike Γ m' n') (xs.forM f) m (xs.forM f) n := by
  induction xs generalizing m n with
  | nil => exact h
  | cons x xs ih =>
    refine Meets.bind (hf x m n h) ?_
    intro _ m₁ _ n₁ h₁
    exact ih h₁

theorem meets_addFunction (name : Text) (op : Primitive) (h : Alike Γ m n) :
    Meets (fun _ m' _ n' => Alike Γ m' n') (addFunction name op) m (addFunction name op) n := by
  obtain ⟨ρ, h⟩ := h
  refine Meets.bind (meets_allocFunction h ⟨name, .native op⟩ rfl) ?_
  rintro r m₁ s n₁ ⟨h₁, hget⟩
  exact ⟨_, h₁.assign name (Or.inr ⟨rfl, rfl⟩) hget⟩

theorem meets_defineAll (p : Program) (h : Twins Γ ρ m n) :
    Meets (fun _ m' _ n' => Alike Γ m' n') (defineAll p) m (defineAll p) n := by
  have hprogram : Meets (fun _ m' _ n' => Alike Γ m' n')
      (modify fun m : Machine => { m with program := some ⟨((m.program.map Program.defs).getD []) ++ p.defs⟩ }) m
      (modify fun m : Machine => { m with program := some ⟨((m.program.map Program.defs).getD []) ++ p.defs⟩ }) n :=
    ⟨ρ, h.congr {} {} ⟨rfl, rfl⟩ h.surroundings h.inStep⟩
  refine Meets.bind hprogram ?_
  intro _ m₁ _ n₁ h₁
  refine meets_forM ?_ h₁
  rintro d m₂ n₂ ⟨σ, h₂⟩
  refine Meets.bind (Eval.meets_define h₂ d) ?_
  rintro _ m₃ _ n₃ ⟨σ', h₃, -⟩
  exact ⟨σ', h₃⟩

theorem meets_loadText (src : Text) (h : Twins Γ ρ m n) :
    Meets (fun a m' b n' => a = b ∧ Alike Γ m' n') (loadText src) m (loadText src) n := by
  rw [loadText]
  cases Syntax.parseProgram src with
  | error e => exact ⟨rfl, ρ, h⟩
  | ok p =>
    refine Meets.bind (meets_defineAll p h) ?_
    intro _ m₁ _ n₁ h₁
    exact ⟨rfl, h₁⟩

end Act

namespace Eval

variable {Γ : Scope} {ρ : Pairing} {m n : Machine}

theorem ties_evalBelow (h : Twins Γ ρ m n) {env : FrameId} (henv : Γ.Env env) (e : Expr) :
    Ties (Keeps Γ fun σ => σ) (evalBelow env e) m (evalBelow env e) n := by
  refine Ties.lift (Act.meets_fork h henv.anchors) ?_
  rintro frame m₁ _ n₁ ⟨rfl, h₁⟩
  refine Ties.bind (ties_eval h₁ (Or.inr List.mem_cons_self) e) ?_
  rintro r m₂ s n₂ ⟨σ, h₂, hr⟩
  refine Ties.stays (Act.meets_leave h₂ h.closed) ?_
  intro _ m₃ n₃ h₃
  exact .pure ⟨σ, h₃, hr⟩

theorem ties_runText (h : Twins Γ ρ m n) (src : Text) :
    Ties (Ends (Alike Γ) (Keeps Γ fun σ => σ)) (runText src) m (runText src) n := by
  refine Ties.lift (Act.meets_loadText src h) ?_
  rintro (e | ⟨⟩) m₁ _ n₁ ⟨rfl, h₁⟩
  · exact .pure ⟨rfl, h₁⟩
  · obtain ⟨σ, h₁⟩ := h₁
    have hmain : Option.Rel σ (m₁.frames.resolveLocal? Frames.global "main")
        (n₁.frames.resolveLocal? Frames.global "main") := h₁.frames.globals.find? "main"
    refine Ties.get ?_
    generalize m₁.frames.resolveLocal? Frames.global "main" = a,
      n₁.frames.resolveLocal? Frames.global "main" = b at hmain
    cases hmain with
    | none => exact .pure ⟨rfl, σ, h₁⟩
    | some _ =>
      refine Ties.bind (ties_evalBelow h₁ (Or.inl rfl) (.call "main" [])) ?_
      intro r m₂ s n₂ hr
      exact .pure hr

theorem ties_evalText (h : Twins Γ ρ m n) (src : Text) :
    Ties (Ends (Alike Γ) (Keeps Γ fun σ => σ)) (evalText src) m (evalText src) n := by
  rw [evalText]
  cases Syntax.parseExpr src with
  | error e => exact .pure ⟨rfl, ρ, h⟩
  | ok e =>
    refine Ties.bind (ties_evalBelow h (Or.inl rfl) e) ?_
    intro r m₁ s n₁ hr
    exact .pure hr

end Eval

/-! ## Fresh machines -/

/-- What a machine is started with, apart from its pacing and its functions. -/
structure Settings where
  maxDepth : Int := 50000
  refusesOutput : Bool := false
  verbose : Bool := false
  files : Host.Files := {}
  /-- The state of the random number generator. -/
  seed : UInt64 := 0
  clock : UInt64 := 0

namespace Settings

/-- A machine without any object. -/
def blank (s : Settings) (pacing : Pacing) : Machine :=
  { maxDepth := s.maxDepth, pacing := pacing, refusesOutput := s.refusesOutput, verbose := s.verbose
    files := s.files, seed := s.seed, clock := s.clock }

/-- A fresh machine with the given functions. -/
def machine (s : Settings) (pacing : Pacing) (fs : Builtin.Group) : Machine := Machine.boot fs (s.blank pacing)

/-- The heap of the shared objects. -/
def heap : Heap := ((Heap.empty.alloc .unit true).1.alloc .nil true).1

/-- The shared `unit`. -/
def unit : Ref := (Heap.empty.alloc .unit true).2

/-- The shared `nil`. -/
def nil : Ref := ((Heap.empty.alloc .unit true).1.alloc .nil true).2

/-- A machine with nothing but the shared objects. -/
def bare (s : Settings) (pacing : Pacing) : Machine :=
  { s.blank pacing with heap := heap, unit := unit, nil := nil }

theorem slot?_empty (r : Ref) : Heap.empty.slot? r = none := by
  simp [Heap.slot?, Heap.empty]

theorem get?_heap {r : Ref} {o : Object} :
    heap.get? r = some o ↔ (r = nil ∧ o = .nil) ∨ (r = unit ∧ o = .unit) := by
  have hempty : Heap.empty.get? r = none := by rw [Heap.get?, slot?_empty]; rfl
  rw [heap, (Heap.threaded_empty.alloc _ _).get?_alloc_iff, Heap.threaded_empty.get?_alloc_iff, hempty]
  simp [nil, unit]

/-- The shared objects are no functions. -/
theorem closure?_of_get?_heap {r : Ref} {o : Object} (ho : heap.get? r = some o) : o.closure? = none := by
  rcases get?_heap.mp ho with ⟨-, rfl⟩ | ⟨-, rfl⟩ <;> rfl

theorem flag?_heap {r : Ref} : heap.flag? r = some .root ↔ r = nil ∨ r = unit := by
  have hempty : Heap.empty.flag? r = none := by rw [Heap.flag?, slot?_empty]; rfl
  rw [heap, (Heap.threaded_empty.alloc _ _).flag?_alloc_iff, Heap.threaded_empty.flag?_alloc_iff, hempty]
  simp [nil, unit]

theorem tidy_bare (s : Settings) (pacing : Pacing) : (s.bare pacing).Tidy where
  wellFormed := ((Heap.threaded_empty.alloc _ _).alloc _ _).wellFormed
  global_lt := Nat.zero_lt_one
  global_top := rfl
  detached := by
    intro r o f ho hf
    cases (closure?_of_get?_heap ho).symm.trans hf
  sole := by
    intro r r' o o' f ho _ hf _
    cases (closure?_of_get?_heap ho).symm.trans hf
  globals := by
    intro b hb
    cases hb
  unit_eq := ⟨get?_heap.mpr (Or.inr ⟨rfl, rfl⟩), flag?_heap.mpr (Or.inr rfl)⟩
  nil_eq := ⟨get?_heap.mpr (Or.inl ⟨rfl, rfl⟩), flag?_heap.mpr (Or.inl rfl)⟩

theorem alike_bare (s : Settings) (p q : Pacing) : Alike ⟨[], []⟩ (s.bare p) (s.bare q) := by
  refine ⟨fun r t => r = t ∧ (r = nil ∨ r = unit), ?_⟩
  refine ⟨s.tidy_bare p, s.tidy_bare q, ⟨List.nodup_nil, List.not_mem_nil, ?_⟩, ?_, ?_, ?_, ?_, ?_, ?_, rfl,
    fun _ _ => rfl⟩
  · intro f hf
    cases hf
  · refine ⟨?_, ?_, ?_, ?_, ?_, ?_⟩
    · rintro r t t' ⟨rfl, -⟩ ⟨rfl, -⟩
      rfl
    · rintro r r' t ⟨rfl, -⟩ ⟨rfl, -⟩
      rfl
    · rintro r t ⟨rfl, rfl | rfl⟩
      · exact ⟨_, _, get?_heap.mpr (Or.inl ⟨rfl, rfl⟩), get?_heap.mpr (Or.inl ⟨rfl, rfl⟩), .nil⟩
      · exact ⟨_, _, get?_heap.mpr (Or.inr ⟨rfl, rfl⟩), get?_heap.mpr (Or.inr ⟨rfl, rfl⟩), .unit⟩
    · rintro r t ⟨rfl, -⟩
      exact Iff.rfl
    · intro r hr
      exact ⟨r, rfl, flag?_heap.mp hr⟩
    · intro r hr
      exact ⟨r, rfl, flag?_heap.mp hr⟩
  · refine ⟨rfl, fun _ => rfl, rfl, rfl, ?_, .nil, ?_⟩
    · intro f hf
      cases hf
    · intro f hf
      cases hf
  · intro r t o f _ ho hf
    cases (closure?_of_get?_heap ho).symm.trans hf
  · refine ⟨rfl, rfl, ?_, ?_, ?_⟩ <;>
    · intro e he
      cases he
  · exact ⟨rfl, Or.inr rfl⟩
  · exact ⟨rfl, Or.inl rfl⟩

/-- Machines that are started alike are twins, whatever their pacing. -/
theorem alike_machine (s : Settings) (p q : Pacing) (fs : Builtin.Group) :
    Alike ⟨[], []⟩ (s.machine p fs) (s.machine q fs) :=
  Act.meets_forM (fun f _ _ => Act.meets_addFunction f.1 f.2) (s.alike_bare p q)

end Settings

end TinyScript
