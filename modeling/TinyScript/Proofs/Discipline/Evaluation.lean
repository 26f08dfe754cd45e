import TinyScript.Proofs.Discipline.Operator

/-!
# Disciplines of evaluations

What evaluations do between jobs is done by actions, and most of it by actions that obey every discipline. A
property of evaluations that such actions have, and that composition keeps, is a discipline of evaluations.
So much of the evaluator obeys as the jobs that it asks for do. What is left to each discipline are jobs,
frames, calls and functions that are made.
-/

namespace TinyScript.Eval

open Syntax (Expr BinOp UnaryOp)

/-- A property of evaluations, and of their results, that composition keeps. -/
structure Discipline where
  /-- The discipline of the actions between jobs. -/
  acts : Act.Discipline
  /-- The evaluations with this property whose results are such. -/
  Obeys {α : Type} : Eval α → (α → Prop) → Prop
  Sees : Object → Prop
  pure {α : Type} {V : α → Prop} {a : α} : V a → Obeys (Pure.pure a) V
  bind {α β : Type} {x : Eval α} {f : α → Eval β} {V : α → Prop} {W : β → Prop} :
    Obeys x V → (∀ a, V a → Obeys (f a) W) → Obeys (x >>= f) W
  act {α : Type} {y : Act α} : acts.Obeys y → Obeys (liftM y) fun _ => True
  object {β : Type} {f : Object → Eval β} {W : β → Prop} (r : Ref) : (∀ o, Sees o → Obeys (f o) W) →
    Obeys (liftM (Act.object r) >>= f) W

namespace Discipline

variable (E : Discipline) {α β : Type} {W : β → Prop}

/-- The evaluation has this property. -/
abbrev Follows (x : Eval α) : Prop := E.Obeys x fun _ => True

theorem result (a : α) : E.Follows (Pure.pure a) := E.pure trivial

/-- An action in front of an evaluation. -/
theorem lift {y : Act α} (hy : E.acts.Obeys y) {f : α → Eval β} (hf : ∀ a, E.Obeys (f a) W) :
    E.Obeys (liftM y >>= f) W :=
  E.bind (E.act hy) fun a _ => hf a

theorem newError (t : Text) : E.Follows (liftM (Act.newError t)) := E.act (Act.obeys_newError t)

/-- Looking a name up changes nothing. -/
theorem resolve? (f : FrameId) (name : Text) : E.acts.Obeys (Act.resolve? f name) :=
  E.acts.aside (fun _ => {}) fun _ _ => rfl

section Parts

variable {env : FrameId}

/-- What was evaluated is pinned, above the pins of the job. -/
theorem evalPinned {e : Expr} (he : E.Follows (eval env e)) : E.Follows (evalPinned env e) :=
  E.bind he fun r _ => E.lift (E.acts.pin r) fun _ => E.result r

theorem evalItems {es : List Expr} (hes : ∀ e ∈ es, E.Follows (eval env e)) (acc : List Ref) :
    E.Follows (evalItems env es acc) := by
  induction es generalizing acc with
  | nil => exact E.result _
  | cons e es ih =>
    obtain ⟨he, hes⟩ := List.forall_mem_cons.mp hes
    exact E.bind (E.evalPinned he) fun r _ => ih hes (r :: acc)

/-- Arguments are evaluated up to the first error. -/
theorem evalArgs {es : List Expr} (hes : ∀ e ∈ es, E.Follows (eval env e)) (acc : List Ref) :
    E.Follows (evalArgs env es acc) := by
  induction es generalizing acc with
  | nil => exact E.result _
  | cons e es ih =>
    obtain ⟨he, hes⟩ := List.forall_mem_cons.mp hes
    refine E.bind (E.evalPinned he) fun r _ => E.object r fun o _ => ?_
    split
    · exact E.result _
    · exact ih hes (r :: acc)

/-- All values are evaluated in the frame outside, and bound in the new one. -/
theorem evalAssigns {frame : FrameId} {assigns : List (Text × Expr)}
    (hassigns : ∀ a ∈ assigns, E.Follows (eval env a.2))
    (hbind : ∀ a ∈ assigns, ∀ r, E.Follows (liftM (Act.bind frame a.1 r))) :
    E.Follows (evalAssigns env frame assigns) := by
  induction assigns with
  | nil => exact E.result _
  | cons a rest ih =>
    obtain ⟨ha, hassigns⟩ := List.forall_mem_cons.mp hassigns
    obtain ⟨hname, hbind⟩ := List.forall_mem_cons.mp hbind
    exact E.bind ha fun r _ => E.bind (hname r) fun _ _ => ih hassigns hbind

/-- The first condition that is true selects a branch. -/
theorem evalConds {otherwise : Expr} {conds : List (Expr × Expr)} (hotherwise : E.Follows (eval env otherwise))
    (hconds : ∀ c ∈ conds, E.Follows (eval env c.1)) (hbranches : ∀ c ∈ conds, E.Follows (eval env c.2)) :
    E.Follows (evalConds env otherwise conds) := by
  induction conds with
  | nil => exact hotherwise
  | cons c rest ih =>
    obtain ⟨hcond, hconds⟩ := List.forall_mem_cons.mp hconds
    obtain ⟨hbranch, hbranches⟩ := List.forall_mem_cons.mp hbranches
    refine E.bind hcond fun r _ => E.object r fun o _ => ?_
    split
    · exact E.newError _
    · exact E.result _
    · split
      · exact hbranch
      · exact ih hconds hbranches

/-- Values are put in one by one. -/
theorem evalDict {entries : List (Text × Expr)} (hentries : ∀ e ∈ entries, E.Follows (eval env e.2)) :
    E.Follows (evalNode env (.dict entries)) := by
  have hput (d : Ref) : E.Follows (evalEntries env d entries) := by
    induction entries with
    | nil => exact E.result _
    | cons e rest ih =>
      obtain ⟨he, hrest⟩ := List.forall_mem_cons.mp hentries
      exact E.bind he fun r _ => E.lift (E.acts.dictPut d e.1 r) fun _ => ih hrest
  refine E.lift (E.acts.alloc rfl) fun d => E.lift (E.acts.pin d) fun _ => ?_
  exact E.bind (hput d) fun _ _ => E.result d

theorem evalList {items : List Expr} (hitems : ∀ e ∈ items, E.Follows (eval env e)) :
    E.Follows (evalNode env (.list items)) :=
  E.bind (E.evalItems hitems []) fun refs _ => E.act (Act.obeys_allocHolding rfl refs)

theorem evalLookup (name : Text) : E.Follows (evalNode env (.lookup name)) := by
  refine E.lift (E.resolve? env name) fun r => ?_
  split
  · exact E.result _
  · exact E.newError _

theorem evalBin (op : BinOp) {l r : Expr} (hl : E.Follows (eval env l)) (hr : E.Follows (eval env r)) :
    E.Follows (evalNode env (.bin op l r)) :=
  E.bind (E.evalPinned hl) fun l _ => E.bind (E.evalPinned hr) fun r _ => E.act (Act.obeys_applyBinary op l r)

theorem evalUnary (op : UnaryOp) {r : Expr} (hr : E.Follows (eval env r)) :
    E.Follows (evalNode env (.unary op r)) :=
  E.bind (E.evalPinned hr) fun r _ => E.act (Act.obeys_applyUnary op r)

/-- A call, if what is called may be. -/
theorem evalCall {callee : Text} {args : List Expr} (hargs : ∀ e ∈ args, E.Follows (eval env e))
    (hcall : ∀ fn refs, E.Sees (.function fn) → E.Follows (callFunction fn callee refs)) :
    E.Follows (evalCall env callee args) := by
  refine E.lift (E.resolve? env callee) fun fn => ?_
  split
  · exact E.newError _
  · refine E.lift (E.acts.pin _) fun _ => E.object _ fun o ho => ?_
    split
    · refine E.bind (E.evalArgs hargs []) fun a _ => ?_
      split
      · exact E.result _
      · exact hcall _ _ ho
    · exact E.newError _

end Parts

/-! ## Natives -/

section Natives

variable (happly : ∀ fn, E.Follows (request (.apply fn [])))

include happly

/-- The function that is timed is applied again and again. -/
theorem applyTimes (fn : Ref) (start : UInt64) (n calls : Nat) (elapsed : UInt64) :
    E.Follows (applyTimes fn start n calls elapsed) := by
  induction n generalizing calls elapsed with
  | zero => exact E.result _
  | succ n ih =>
    refine E.bind (happly fn) fun r _ => E.object r fun o _ => ?_
    split
    · exact E.result _
    · refine E.lift Act.obeys_readClock fun now => ?_
      dsimp only
      split
      · exact E.result _
      · exact ih _ _

theorem timeit (name : Text) (args : List Ref) : E.Follows (timeit name args) := by
  refine E.lift (obeys_timingArgs args) fun a => ?_
  split
  · exact E.newError _
  · refine E.lift Act.obeys_readClock fun start => E.bind (E.applyTimes happly _ start _ _ _) fun a _ => ?_
    split
    · exact E.result _
    · refine E.lift (Act.obeys_print _) fun _ => E.lift (Act.obeys_print _) fun _ => ?_
      exact E.act (E.acts.alloc rfl)

/-- A native function with arguments in the frame of the call. -/
theorem native {op : Primitive} {name : Text} (hop : ∀ args, E.acts.ObeysTry (Act.primitive op name args))
    (frame : FrameId) : E.Follows (native op frame name) := by
  refine E.lift (Act.obeys_args frame) fun args => ?_
  split
  · exact E.timeit happly name args
  · exact E.act (Act.obeys_settle name (hop args))

end Natives

/-! ## Loops -/

theorem finish (stop : Ref) (tally : Tally) : E.Follows (finish stop tally) := by
  unfold Eval.finish
  split
  · exact E.result _
  · split
    · exact E.act (Act.obeys_allocHolding rfl _)
    · exact E.result _

section Rounds

variable {loop : Loop} {T : Tally → Prop}

/-- A round, in the frame that was made for it. The tally stays one of those that go with the loop. -/
theorem visitPassing {frame : FrameId} {tally : Tally} (hfilter : ∀ e ∈ loop.filter, E.Follows (eval frame e))
    (hbody : E.Follows (eval frame loop.body)) (htally : T tally)
    (hcollect : ∀ results r, tally = .collected results → T (.collected (r :: results)))
    (hcarry : ∀ name slot value r, tally = .carried name slot value →
      E.Follows (liftM (Act.repin slot r)) ∧ T (.carried name slot r)) :
    E.Obeys (visitPassing loop frame tally) fun a => T a.2 := by
  have hpasses : E.Follows (passes frame loop.filter) := by
    cases hloop : loop.filter with
    | none => exact E.result _
    | some filter =>
      refine E.bind (hfilter filter hloop) fun r _ => E.object r fun o _ => ?_
      split <;> exact E.result _
  refine E.bind hpasses fun a _ => ?_
  split
  · exact E.pure htally
  · exact E.pure htally
  · refine E.bind hbody fun r _ => E.object r fun o _ => ?_
    cases tally with
    | collected results =>
      dsimp only
      split
      · exact E.pure htally
      · exact E.lift (E.acts.pin r) fun _ => E.pure (hcollect results r rfl)
    | carried name slot value =>
      obtain ⟨hrepin, hcarried⟩ := hcarry name slot value r rfl
      exact E.bind hrepin fun _ _ => E.pure hcarried

variable (hvisit : ∀ item tally, T tally → E.Obeys (visit loop item tally) fun a => T a.2)

include hvisit

/-- Every item of a list in turn. -/
theorem visitAll (items : List Ref) {tally : Tally} (htally : T tally) : E.Follows (visitAll loop items tally) := by
  induction items generalizing tally with
  | nil => exact E.finish _ tally
  | cons item items ih =>
    refine E.bind (hvisit item tally htally) fun a ha => ?_
    dsimp only
    split
    · exact E.result _
    · exact ih ha

/-- The next round of a loop over a generator is a job of its own. -/
theorem pull {generator : Function} {slot : Nat} {state : Ref} {tally : Tally} (htally : T tally)
    (hcall : E.Follows (callFunction generator "generator" [state]))
    (hrepin : ∀ r, E.Follows (liftM (Act.repin slot r)))
    (hpull : ∀ state tally, T tally → E.Follows (request (.pull loop generator slot state tally))) :
    E.Follows (pull loop generator slot state tally) := by
  refine E.bind hcall fun step _ => E.object step fun o _ => ?_
  split
  · exact E.finish step tally
  · refine E.object _ fun head _ => ?_
    split
    · exact E.finish _ tally
    · refine E.bind (hrepin step) fun _ _ => E.bind (hvisit _ tally htally) fun a ha => ?_
      dsimp only
      split
      · exact E.result _
      · exact hpull step a.2 ha
  · exact E.finish _ tally

end Rounds

end Discipline

end TinyScript.Eval
