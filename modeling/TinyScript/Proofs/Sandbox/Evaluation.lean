import TinyScript.Proofs.Discipline.Evaluation
import TinyScript.Proofs.Sandbox.Sealed
import TinyScript.Proofs.Twin.Run

/-!
# Evaluations that leave the files alone

An evaluation is sealed if, on a confined machine, it asks for the same jobs whatever the files are, and goes on in the
same way with their results (`Step.Blind`). Only the next round of a loop over a generator carries a function along; it
must not carry one that works on files. All jobs are sealed then (`Eval.sealed_body`), so evaluations run in lockstep
with those on other files.
-/

namespace TinyScript

open Syntax (Expr BinOp UnaryOp)
open Act

/-! ## Sealed evaluations -/

/-- Whether a job carries a function that works on files. -/
def Job.usesFiles : Job → Bool
  | .pull _ generator _ _ _ => generator.usesFiles
  | _ => false

/-- Two evaluations that differ in the files of their machines only, and go on so to the same result, one that
`V` allows. -/
inductive Step.Blind {α : Type} (files : Host.Files) (V : α → Prop) : Step α → Step α → Prop
  | done {a : α} {m : Machine} (hm : m.Confined) (ha : V a) : Blind files V (.done a m) (.done a (m.withFiles files))
  | call {job : Job} {m : Machine} {k k' : Ref → Machine → Step α} (hm : m.Confined)
    (hjob : job.usesFiles = false)
    (hk : ∀ r m, m.Confined → Blind files V (k r m) (k' r (m.withFiles files))) :
    Blind files V (.call job m k) (.call job (m.withFiles files) k')

theorem Step.Blind.bind {α β : Type} {files : Host.Files} {V : α → Prop} {W : β → Prop} {x x' : Step α}
    {f f' : α → Machine → Step β} (hx : Blind files V x x')
    (hf : ∀ a m, V a → m.Confined → Blind files W (f a m) (f' a (m.withFiles files))) :
    Blind files W (x.bind f) (x'.bind f') := by
  induction hx with
  | done hm ha => exact hf _ _ ha hm
  | call hm hjob _ ih => exact .call hm hjob ih

namespace Eval

variable {α β : Type}

/-- On a confined machine the evaluation has nothing to do with the files, and its result is one that `V`
allows. -/
def Sealed (x : Eval α) (V : α → Prop := fun _ => True) : Prop :=
  ∀ m, m.Confined → ∀ files, Step.Blind files V (x m) (x (m.withFiles files))

namespace Sealed

variable {x : Eval α} {f : α → Eval β} {V : α → Prop} {W : β → Prop}

theorem bind (hx : x.Sealed V) (hf : ∀ a, V a → (f a).Sealed W) : (x >>= f).Sealed W :=
  fun m hm files => (hx m hm files).bind fun a m ha hm => hf a ha m hm files

/-- Any result at all. -/
theorem pure (a : α) : Sealed (Pure.pure a) := fun _ hm _ => .done hm trivial

/-- An action that asks for no job. -/
theorem act {y : Act α} (hy : y.Sealed) : Sealed (liftM y) := by
  intro m hm files
  show Step.Blind files _ (.done (y.run m).1 (y.run m).2)
    (.done (y.run (m.withFiles files)).1 (y.run (m.withFiles files)).2)
  rw [hy.blind hm]
  exact .done (hy.confined hm) trivial

/-- After an action that asks for no job. -/
theorem lift {y : Act α} (hy : y.Sealed) (hf : ∀ a, (f a).Sealed W) : Sealed (liftM y >>= f) W :=
  bind (act hy) fun a _ => hf a

/-- After looking at the machine, but not at its files. -/
theorem get {f : Machine → Eval β} (hblind : ∀ m files, f (m.withFiles files) = f m)
    (hf : ∀ m, m.Confined → (f m).Sealed W) : Sealed (getThe Machine >>= f) W := by
  intro m hm files
  show Step.Blind files W (f m m) (f (m.withFiles files) (m.withFiles files))
  rw [hblind]
  exact hf m hm m hm files

theorem object {f : Object → Eval β} (r : Ref) (hf : ∀ o, o.usesFiles = false → (f o).Sealed W) :
    Sealed (liftM (Act.object r) >>= f) W :=
  get (f := fun m => f (m.object r)) (fun _ _ => rfl) fun _ hm => hf _ (hm.object r)

theorem request {job : Job} (hjob : job.usesFiles = false) : Sealed (Eval.request job) :=
  fun _ hm _ => .call hm hjob fun _ _ hm => .done hm trivial

end Sealed

/-- Sealed evaluations, as a discipline. -/
def sealing : Discipline where
  acts := Act.sealing
  Obeys x V := x.Sealed V
  Sees o := o.usesFiles = false
  pure ha _ hm _ := .done hm ha
  bind := .bind
  act := .act
  object := .object

theorem sealed_eval (env : FrameId) (e : Expr) : (eval env e).Sealed := .request rfl

/-! ## Calls -/

theorem sealed_modifyDepth (f : Nat → Nat) : (modifyDepth f).Sealed :=
  sealed_of_heap (fun _ => rfl) fun _ _ => rfl

/-- A function that is no file builtin is sealed. -/
theorem sealed_runFunction {fn : Function} (hfn : fn.usesFiles = false) (name : Text) (args : List Ref) :
    (runFunction fn name args).Sealed := by
  obtain ⟨fname, code⟩ := fn
  cases code with
  | native op =>
    have hnative (frame : FrameId) : (native op frame fname).Sealed :=
      sealing.native (fun _ => .request rfl) (obeys_primitive hfn fname) frame
    refine .lift (sealed_fork _) fun frame => sealing.lift (obeys_allocHolding rfl args) fun list => ?_
    refine .lift (sealed_bind frame _ list) fun _ => (hnative frame).bind fun r _ => ?_
    exact .lift (sealed_leave frame) fun _ => .get (fun _ _ => rfl) fun m _ => .pure _
  | script params body closure =>
    unfold runFunction
    dsimp only
    split
    · exact sealing.newError _
    · refine .lift (sealed_fork _) fun frame => ?_
      refine .lift (sealed_of_heap (fun _ => rfl) fun _ _ => rfl) fun _ => ?_
      exact (sealed_eval frame body).bind fun r _ => .lift (sealed_leave frame) fun _ => .pure r

theorem sealed_callFunction {fn : Function} (hfn : fn.usesFiles = false) (name : Text) (args : List Ref) :
    (callFunction fn name args).Sealed := by
  refine .lift (sealed_modifyDepth _) fun _ => .get (fun _ _ => rfl) fun m _ => ?_
  dsimp only
  split
  · exact .bind (sealing.newError _) fun r _ => .lift (sealed_modifyDepth _) fun _ => .pure r
  · exact (sealed_runFunction hfn name args).bind fun r _ => .lift (sealed_modifyDepth _) fun _ => .pure r

theorem sealed_apply (fn : Ref) (args : List Ref) : (apply fn args).Sealed := by
  refine .lift sealed_pinMark fun mark => .lift (sealed_pinAll _) fun _ => .object fn fun o ho => ?_
  split
  · exact (sealed_callFunction ho _ args).bind fun r _ => .lift (sealed_unpinTo mark) fun _ => .pure r
  · exact .bind (sealing.newError _) fun r _ => .lift (sealed_unpinTo mark) fun _ => .pure r

/-! ## Loops -/

theorem sealed_visit (loop : Loop) (item : Ref) (tally : Tally) : (visit loop item tally).Sealed := by
  refine .lift (sealed_fork _) fun frame => .lift (sealed_bind frame _ item) fun _ => ?_
  have hpassing : (visitPassing loop frame tally).Sealed :=
    sealing.visitPassing (T := fun _ => True) (fun e _ => sealed_eval frame e)
      (sealed_eval frame loop.body) trivial (fun _ _ _ => trivial)
      fun _ slot _ r _ => ⟨.act (sealed_repin slot r), trivial⟩
  have hrest : Sealed (do let result ← visitPassing loop frame tally; Act.leave frame; return result) :=
    hpassing.bind fun a _ => .lift (sealed_leave frame) fun _ => .pure a
  cases tally with
  | collected results => exact hrest
  | carried name slot value => exact .lift (sealed_bind frame name value) fun _ => hrest

/-- A generator is called like any function. -/
theorem sealed_pull (loop : Loop) {generator : Function} (hgenerator : generator.usesFiles = false) (slot : Nat)
    (state : Ref) (tally : Tally) : (pull loop generator slot state tally).Sealed :=
  sealing.pull (T := fun _ => True) (fun item tally _ => sealed_visit loop item tally) trivial
    (sealed_callFunction hgenerator _ [state]) (fun r => .act (sealed_repin slot r)) fun _ _ _ => .request hgenerator

theorem sealed_evalLoop (loop : Loop) (iter : Expr) (tally : Tally) : (evalLoop loop iter tally).Sealed := by
  refine .bind (sealing.evalPinned (sealed_eval loop.env iter)) fun r _ => .object r fun o ho => ?_
  split
  · exact sealing.finish r tally
  · exact sealing.visitAll (T := fun _ => True) (fun item tally _ => sealed_visit loop item tally) _
      trivial
  · refine .lift (sealed_alloc rfl) fun state => .lift sealed_pinMark fun slot => ?_
    exact .lift (sealed_pin state) fun _ => .request ho
  · exact sealing.newError _

/-! ## Expressions -/

theorem sealed_evalLambda (env : FrameId) (params : List Text) (body : Expr) :
    (evalLambda env params body).Sealed :=
  .bind (sealed_of_heap (fun _ => rfl) fun _ _ => rfl) fun _ => sealed_alloc rfl

theorem sealed_define (d : Syntax.Def) : (define d).Sealed := by
  refine (sealed_allocRaw rfl true).bind fun r => ?_
  refine .bind (.update (fun m hm => ?_) fun m files => ?_) fun _ => ?_
  · split
    · exact hm
    · split
      · next heap hheap => exact Heap.Every.fades hm (Heap.fades_setRoot? hheap)
      · exact hm
  · have hframes : (m.withFiles files).frames = m.frames := rfl
    have hheap : (m.withFiles files).heap = m.heap := rfl
    rw [hframes, hheap]
    split
    · rfl
    · split <;> rfl
  · exact (sealed_assign _ _ r).bind fun _ => .pure r

/-- No node uses files by itself. -/
theorem sealed_evalNode (env : FrameId) (e : Expr) : (evalNode env e).Sealed := by
  cases e with
  | lit kind raw => exact sealing.act (obeys_evalLit kind raw)
  | lookup name => exact sealing.evalLookup name
  | bin op l r => exact sealing.evalBin op (sealed_eval env l) (sealed_eval env r)
  | unary op r => exact sealing.evalUnary op (sealed_eval env r)
  | letIn assigns body =>
    have hassigns (frame : FrameId) : (evalAssigns env frame assigns).Sealed :=
      sealing.evalAssigns (fun a _ => sealed_eval env a.2) fun a _ r => .act (sealed_bind frame a.1 r)
    refine .lift (sealed_fork env) fun frame => (hassigns frame).bind fun _ _ => ?_
    exact (sealed_eval frame body).bind fun r _ => .lift (sealed_leave frame) fun _ => .pure r
  | ifElse conds otherwise =>
    exact sealing.evalConds (sealed_eval env otherwise) (fun c _ => sealed_eval env c.1) fun c _ => sealed_eval env c.2
  | call callee args =>
    exact sealing.evalCall (fun e _ => sealed_eval env e) fun fn refs hfn => sealed_callFunction hfn callee refs
  | list items => exact sealing.evalList fun e _ => sealed_eval env e
  | dict entries => exact sealing.evalDict fun e _ => sealed_eval env e.2
  | lambda params body => exact .act (sealed_evalLambda env params body)
  | forIn handle iter filter body => exact sealed_evalLoop _ iter _
  | reduce carry init handle iter filter body =>
    refine (sealed_eval env init).bind fun value _ => .lift sealed_pinMark fun slot => ?_
    exact .lift (sealed_pin value) fun _ => sealed_evalLoop _ iter _
  | define name params body => exact .act (sealed_define _)
  | missing => exact sealing.newError _

/-- Every job that carries no function that works on files leaves the files alone. -/
theorem sealed_body {job : Job} (hjob : job.usesFiles = false) : (body job).Sealed := by
  cases job with
  | eval env e =>
    refine .lift sealed_pinMark fun mark => (sealed_evalNode env e).bind fun r _ => ?_
    exact .lift (sealed_unpinTo mark) fun _ => .pure r
  | apply fn args => exact sealed_apply fn args
  | pull loop generator slot state tally => exact sealed_pull loop hjob slot state tally

end Eval

/-! ## Lockstep -/

namespace Step.Blind

variable {α : Type} {files : Host.Files} {x x' : Step Ref} {stack stack' : List (Ref → Machine → Step Ref)}

/-- Stacks of what is to be done, which go on alike. -/
def Stacks (files : Host.Files) : List (Ref → Machine → Step Ref) → List (Ref → Machine → Step Ref) → Prop :=
  List.Forall₂ fun k k' => ∀ r m, m.Confined → Blind files (fun _ => True) (k r m) (k' r (m.withFiles files))

/-- **Runs on machines with other files go alike.** -/
theorem exec (hx : Blind files (fun _ => True) x x') (hstack : Stacks files stack stack') (budget : Nat) :
    x'.exec budget stack' = (x.exec budget stack).map (Prod.map id (·.withFiles files)) ∧
      ∀ a, x.exec budget stack = some a → a.2.Confined := by
  induction budget generalizing x x' stack stack' with
  | zero =>
    rw [Step.exec, Step.exec]
    exact ⟨rfl, fun _ ha => by cases ha⟩
  | succ budget ih =>
    cases hx with
    | done hm =>
      cases hstack with
      | nil =>
        refine ⟨rfl, ?_⟩
        rintro _ ⟨⟩
        exact hm
      | cons hk hrest => exact ih (hk _ _ hm) hrest
    | call hm hjob hk => exact ih (Eval.sealed_body hjob _ hm files) (.cons hk hstack)

/-- With other files an evaluation ends with the same budget and the same result. -/
theorem run {V : α → Prop} {x x' : Step α} (hx : Blind files V x x') (budget : Nat) :
    x'.run budget = (x.run budget).map (Prod.map id (·.withFiles files)) := by
  induction hx with
  | done hm => rfl
  | @call job m k k' hm hjob _ ih =>
    obtain ⟨hexec, hconfined⟩ := (Eval.sealed_body hjob m hm files).exec .nil budget
    rw [Step.run, Step.run, hexec]
    cases hjobs : (Eval.body job m).exec budget [] with
    | none => rfl
    | some a => exact ih a.1 a.2 (hconfined a hjobs)

/-- However many steps were made, the machines differ in their files only. -/
theorem trace (hx : Blind files (fun _ => True) x x') (hstack : Stacks files stack stack') (k : Nat) :
    x'.trace k stack' = (x.trace k stack).withFiles files := by
  induction k generalizing x x' stack stack' with
  | zero => cases hx <;> rfl
  | succ k ih =>
    cases hx with
    | done hm =>
      cases hstack with
      | nil => rfl
      | cons hk hrest => exact ih (hk _ _ hm) hrest
    | call hm hjob hk => exact ih (Eval.sealed_body hjob _ hm files) (.cons hk hstack)

end Step.Blind

end TinyScript
