import TinyScript.Proofs.Sandbox.Evaluation
import TinyScript.Proofs.Twin.Program

/-!
# The sandbox holds

A host runs programs, loads definitions and evaluates expressions on one machine, one after the other. If that machine
was started with the functions of the sandbox, everything goes the same way with other files, step by step, and no step
changes a file (`Host.serve_ignores_files`). That holds for programs that never end as well.
-/

namespace TinyScript

open Syntax (Program SyntaxError)

/-! ## Programs -/

namespace Act

theorem sealed_forM {α : Type} {f : α → Act Unit} {xs : List α} (hf : ∀ x ∈ xs, (f x).Sealed) :
    (xs.forM f).Sealed := by
  induction xs with
  | nil => exact .pure _
  | cons x xs ih =>
    exact (hf x List.mem_cons_self).bind fun _ => ih fun y hy => hf y (List.mem_cons_of_mem _ hy)

theorem sealed_addFunction (name : Text) {op : Primitive} (hop : op.usesFiles = false) :
    (addFunction name op).Sealed := by
  have hfunction : (Object.function ⟨name, .native op⟩).usesFiles = false := hop
  exact (sealed_allocRaw hfunction true).bind fun r => sealed_assign _ name r

/-- A start with the functions of the sandbox. -/
theorem sealed_boot {fs : Builtin.Group} (hfs : ∀ f ∈ fs, f.2.usesFiles = false) : (boot fs).Sealed := by
  refine (sealed_allocRaw rfl true).bind fun unit => (sealed_allocRaw rfl true).bind fun nil => ?_
  refine .bind (sealed_of_heap (fun _ => rfl) fun _ _ => rfl) fun _ => ?_
  exact sealed_forM fun f hf => sealed_addFunction f.1 (hfs f hf)

theorem sealed_defineAll (p : Program) : (defineAll p).Sealed := by
  refine .bind (sealed_of_heap (fun _ => rfl) fun _ _ => rfl) fun _ => ?_
  exact sealed_forM fun d _ => (Eval.sealed_define d).bind fun _ => .pure _

theorem sealed_loadText (src : Text) : (loadText src).Sealed := by
  unfold loadText
  split
  · exact .pure _
  · exact (sealed_defineAll _).bind fun _ => .pure _

end Act

namespace Eval

theorem sealed_evalBelow (env : FrameId) (e : Syntax.Expr) : (evalBelow env e).Sealed :=
  .lift (Act.sealed_fork env) fun frame => (sealed_eval frame e).bind fun r _ =>
    .lift (Act.sealed_leave frame) fun _ => .pure r

/-- Running a program parses and evaluates. -/
theorem sealed_runText (src : Text) : (runText src).Sealed := by
  refine .lift (Act.sealed_loadText src) fun a => ?_
  split
  · exact .pure _
  · refine .get (fun _ _ => rfl) fun m _ => ?_
    split
    · exact .pure _
    · exact (sealed_evalBelow _ _).bind fun r _ => .pure _

theorem sealed_evalText (src : Text) : (evalText src).Sealed := by
  unfold evalText
  split
  · exact .pure _
  · exact (sealed_evalBelow _ _).bind fun r _ => .pure _

/-- The machine after a number of steps of an evaluation, or at its end. -/
def reached {α : Type} (x : Eval α) (m : Machine) (k : Nat) : Machine :=
  ((x >>= fun _ => pure Ref.zero : Eval Ref) m).trace k []

/-- At every step the machines differ in the files alone. -/
theorem Sealed.reached {α : Type} {x : Eval α} (hx : x.Sealed) {m : Machine} (hm : m.Confined) (files : Host.Files)
    (k : Nat) : x.reached (m.withFiles files) k = (x.reached m k).withFiles files :=
  Step.Blind.trace (hx.bind (fun _ _ => .pure _) m hm files) .nil k

end Eval

/-! ## Fresh machines -/

namespace Settings

variable (s : Settings) (pacing : Pacing) {fs : Builtin.Group} (hfs : ∀ f ∈ fs, f.2.usesFiles = false)

include hfs

theorem confined_machine : (s.machine pacing fs).Confined :=
  (Act.sealed_boot hfs).confined (Heap.every_empty _)

theorem machine_withFiles (files : Host.Files) :
    { s with files := files }.machine pacing fs = (s.machine pacing fs).withFiles files :=
  congrArg Prod.snd ((Act.sealed_boot hfs).blind (m := s.blank pacing) (Heap.every_empty _) files)

theorem files_machine : (s.machine pacing fs).files = s.files :=
  (Act.sealed_boot hfs).files_eq (m := s.blank pacing) (Heap.every_empty _)

end Settings

/-- No function of the sandbox works on files. -/
theorem Builtin.usesFiles_of_mem_sandboxed {f : Text × Primitive} (hf : f ∈ Builtin.sandboxed) :
    f.2.usesFiles = false := by
  have hall : ∀ f ∈ Builtin.core ++ Builtin.encoding, f.2.usesFiles = false := by decide
  exact hall f (List.mem_mergeSort.1 hf)

/-! ## Hosts -/

/-- What a host can ask of a machine. -/
inductive Request where
  /-- Load the definitions of a text and call `main`. -/
  | run (src : Text)
  | load (src : Text)
  | eval (src : Text)

/-- What a host gets for it: an error, or the result in both styles. -/
inductive Reply where
  | ran (result : Except RunError (Text × Text))
  | loaded (result : Except SyntaxError Unit)
  | evaluated (result : Except SyntaxError (Text × Text))

/-- A value in both styles. -/
def Machine.styles (m : Machine) (r : Ref) : Text × Text := (m.render .tagged r, m.render .plain r)

theorem Machine.styles_withFiles (m : Machine) (files : Host.Files) : (m.withFiles files).styles = m.styles := by
  funext r
  rw [styles, styles, render_withFiles]

/-- Do what a host asks for. -/
def Request.perform : Request → Eval Reply
  | run src => do
    let result ← Eval.runText src
    let m ← getThe Machine
    return .ran (result.map m.styles)
  | load src => do return .loaded (← Act.loadText src)
  | eval src => do
    let result ← Eval.evalText src
    let m ← getThe Machine
    return .evaluated (result.map m.styles)

theorem Request.sealed_perform (q : Request) : q.perform.Sealed := by
  cases q with
  | run src =>
    refine (Eval.sealed_runText src).bind fun a _ => ?_
    exact .get (fun m files => by rw [Machine.styles_withFiles]) fun m _ => .pure _
  | load src => exact .lift (Act.sealed_loadText src) fun a => .pure _
  | eval src =>
    refine (Eval.sealed_evalText src).bind fun a _ => ?_
    exact .get (fun m files => by rw [Machine.styles_withFiles]) fun m _ => .pure _

namespace Host

/-- Do all that a host asks for in order. After each request it sees the reply, and all that was printed
so far. -/
def serve : List Request → Eval (List (Reply × Text))
  | [] => return []
  | q :: qs => do
    let reply ← q.perform
    let m ← getThe Machine
    return (reply, m.output) :: (← serve qs)

theorem sealed_serve (qs : List Request) : (serve qs).Sealed := by
  induction qs with
  | nil => exact .pure _
  | cons q qs ih =>
    refine q.sealed_perform.bind fun reply _ => .get (fun _ _ => rfl) fun m _ => ?_
    exact ih.bind fun seen _ => .pure _

/-- **The sandbox holds.** On a machine with the functions of the sandbox, a host that asks for the same with
other files sees the same: it gets its replies with the same budget or does not get them, and the machine
at the end, and after every step up to there, is the same but for the files. These are as they were at
the start. -/
theorem serve_ignores_files (s : Settings) (pacing : Pacing) (qs : List Request) (files : Files) :
    let here := s.machine pacing Builtin.sandboxed
    let there := { s with files := files }.machine pacing Builtin.sandboxed
    (∀ budget, (serve qs).run budget there
        = ((serve qs).run budget here).map fun x => (x.1, x.2.withFiles files)) ∧
      (∀ budget seen m, (serve qs).run budget here = some (seen, m) → m.files = s.files) ∧
      ∀ k, (serve qs).reached there k = ((serve qs).reached here k).withFiles files ∧
        ((serve qs).reached here k).files = s.files := by
  intro here there
  have hfs := fun f => Builtin.usesFiles_of_mem_sandboxed (f := f)
  have hconfined : here.Confined := s.confined_machine pacing hfs
  have hthere : there = here.withFiles files := s.machine_withFiles pacing hfs files
  have hself : here.withFiles s.files = here := by
    rw [← s.files_machine pacing hfs]
    rfl
  have hserve := sealed_serve qs
  have hrun (budget : Nat) (files : Files) : (serve qs).run budget (here.withFiles files)
      = ((serve qs).run budget here).map fun x => (x.1, x.2.withFiles files) :=
    (hserve here hconfined files).run budget
  refine ⟨fun budget => ?_, fun budget seen m hseen => ?_, fun k => ⟨?_, ?_⟩⟩
  · rw [hthere, hrun]
  · -- the files that are there already, put there
    have hsame := hrun budget s.files
    rw [hself, hseen] at hsame
    exact congrArg (fun x => x.2.files) (Option.some.inj hsame)
  · rw [hthere, hserve.reached hconfined]
  · have hsame := hserve.reached hconfined s.files k
    rw [hself] at hsame
    exact congrArg Machine.files hsame

end Host

end TinyScript
