import TinyScript.Proofs.Discipline.Evaluation
import TinyScript.Proofs.Evolution.Evolves

/-!
# What evaluations make of a machine

A job that evaluates an expression or applies a function may change no pin that was there before, and drops all the
others at its end (`Machine.Settles`). A further round of a loop may change the pins of the loop as well. That every job
ends so, if the jobs it asks for do, is `Outcomes.sound_evolving`.
-/

namespace TinyScript

open Syntax (Expr)

variable {tally : Tally}

/-- What an evaluation on a machine ends with: the pins are as many as before, and the same. -/
structure Machine.Settles (m m' : Machine) : Prop where
  evolves : m.Evolves m.pins.size [] m'
  size_eq : m'.pins.size = m.pins.size

theorem Machine.Evolves.settle {m m' : Machine} (h : m.Evolves m.pins.size [] m') :
    m.Settles ((Act.unpinTo m.pins.size).run m').2 := by
  have hsize : m.pins.size ≤ m'.pins.size := h.floor_le le_rfl
  refine ⟨h.trans (Act.evolves_unpinTo le_rfl m' hsize), ?_⟩
  show (m'.pins.shrink m.pins.size).size = m.pins.size
  rw [Array.size_shrink]
  omega

theorem Machine.Settles.evolves_any {m m' : Machine} (h : m.Settles m') {floor : Nat} {own : List FrameId}
    (hfloor : floor ≤ m.pins.size) : m.Evolves floor own m' :=
  h.evolves.mono hfloor (List.nil_subset own)

/-- The pin of a value carried along is not below the floor. -/
def Tally.Fits (floor : Nat) : Tally → Prop
  | .collected _ => True
  | .carried _ slot _ => floor ≤ slot

theorem Tally.fits_zero (tally : Tally) : tally.Fits 0 := by
  cases tally with
  | collected => trivial
  | carried _ slot _ => exact Nat.zero_le slot

/-- What jobs end with. -/
def Outcomes.evolving : Outcomes
  | .eval _ _, m, _, m' => m.Settles m'
  | .apply _ _, m, _, m' => m.Settles m'
  | .pull _ _ slot _ tally, m, _, m' =>
    ∀ floor, floor ≤ slot → tally.Fits floor → floor ≤ m.pins.size → m.Evolves floor [] m'

namespace Eval

variable {α β : Type} {floor : Nat} {own : List FrameId}

/-- What the evaluation does to a machine is on the list, if jobs end as they should, and `V` holds of its
result. -/
def Evolves (floor : Nat) (own : List FrameId) (x : Eval α) (V : α → Prop := fun _ => True) : Prop :=
  ∀ m : Machine, floor ≤ m.pins.size → (x m).Ensures .evolving m.pacing fun a m' => m.Evolves floor own m' ∧ V a

namespace Evolves

variable {x : Eval α} {f : α → Eval β} {V : α → Prop} {W : β → Prop}

theorem bind (hx : x.Evolves floor own V) (hf : ∀ a, V a → (f a).Evolves floor own W) :
    (x >>= f).Evolves floor own W := by
  intro m hm
  refine (hx m hm).bind fun a m₁ h₁ => h₁.1.unchanged.1 ▸ ?_
  refine (hf a h₁.2 m₁ (h₁.1.floor_le hm)).mono fun b m₂ h₂ => ?_
  exact ⟨h₁.1.trans h₂.1, h₂.2⟩

theorem pure {a : α} (ha : V a) : Evolves floor own (Pure.pure a) V := fun m _ => .done ⟨.refl m, ha⟩

/-- An action that asks for no job. -/
theorem act {y : Act α} (hy : y.Evolves floor own) : Evolves floor own (liftM y) :=
  fun m hm => .done ⟨hy m hm, trivial⟩

/-- After an action that asks for no job. -/
theorem lift {y : Act α} (hy : y.Evolves floor own) (hf : ∀ a, (f a).Evolves floor own W) :
    Evolves floor own (liftM y >>= f) W :=
  bind (act hy) fun a _ => hf a

theorem object {f : Object → Eval β} (r : Ref) (hf : ∀ o, (f o).Evolves floor own W) :
    Evolves floor own (liftM (Act.object r) >>= f) W :=
  fun m hm => hf (m.object r) m hm

/-- After counting the pins. Those below the floor are among them. -/
theorem mark {f : Nat → Eval β} (hf : ∀ mark, floor ≤ mark → (f mark).Evolves floor own W) :
    Evolves floor own (liftM Act.pinMark >>= f) W :=
  fun m hm => hf m.pins.size hm m hm

end Evolves

/-- From whatever the machine has become, the evaluation ends as `Q` says. -/
def Finishes (floor : Nat) (own : List FrameId) (m : Machine) (Q : α → Machine → Prop) (x : Eval α) : Prop :=
  ∀ m₁ : Machine, m.Evolves floor own m₁ → floor ≤ m₁.pins.size → (x m₁).Ensures .evolving m.pacing Q

namespace Finishes

variable {m : Machine} {x : Eval α} {f : α → Eval β} {V : α → Prop} {Q : β → Machine → Prop}

theorem bind (hx : x.Evolves floor own V) (hf : ∀ a, V a → (f a).Finishes floor own m Q) :
    Finishes floor own m Q (x >>= f) := by
  intro m₁ h₁ hm₁
  rw [← h₁.unchanged.1]
  refine (hx m₁ hm₁).bind fun a m₂ h₂ => h₁.unchanged.1 ▸ ?_
  exact hf a h₂.2 m₂ (h₁.trans h₂.1) (h₂.1.floor_le hm₁)

theorem lift {y : Act α} (hy : y.Evolves floor own) (hf : ∀ a, (f a).Finishes floor own m Q) :
    Finishes floor own m Q (liftM y >>= f) :=
  bind (.act hy) fun a _ => hf a

theorem get {f : Machine → Eval β} (hf : ∀ m', (f m').Finishes floor own m Q) :
    Finishes floor own m Q (getThe Machine >>= f) :=
  fun m₁ h₁ hm₁ => hf m₁ m₁ h₁ hm₁

theorem object {f : Object → Eval β} (r : Ref) (hf : ∀ o, (f o).Finishes floor own m Q) :
    Finishes floor own m Q (liftM (Act.object r) >>= f) :=
  fun m₁ h₁ hm₁ => hf (m₁.object r) m₁ h₁ hm₁

end Finishes

/-! ### Brackets

A frame that was made is left, a call that was begun is ended, and pins are dropped. -/

section Brackets

variable {parent : FrameId} {m : Machine} {V : α → Prop}

/-- An evaluation in a frame of its own, which it leaves at the end. -/
theorem Evolves.frame {f : FrameId → Eval α}
    (hf : ∀ m : Machine, (f m.frames.arena.size).Finishes floor (m.frames.arena.size :: own) ((Act.fork parent).run m).2
      fun a m' => m.Evolves floor own m' ∧ V a) : Evolves floor own (liftM (Act.fork parent) >>= f) V :=
  fun m hm => hf m _ (.refl _) hm

/-- The frame is left, and then nothing happens any more. -/
theorem Finishes.leave {k : Eval α} (hk : ∀ m', (k m').Ensures .evolving m.pacing fun a m'' => m'' = m' ∧ V a) :
    Finishes floor (m.frames.arena.size :: own) ((Act.fork parent).run m).2 (fun a m' => m.Evolves floor own m' ∧ V a)
      (liftM (Act.leave m.frames.arena.size) >>= fun _ => k) := by
  intro m₁ h₁ _
  refine (hk _).mono fun a m₂ h₂ => ?_
  rw [h₂.1]
  exact ⟨.frame parent h₁, h₂.2⟩

/-- The frame is left, and there is a result. -/
theorem Finishes.result {a : α} (ha : V a) :
    Finishes floor (m.frames.arena.size :: own) ((Act.fork parent).run m).2 (fun a m' => m.Evolves floor own m' ∧ V a)
      (do Act.leave m.frames.arena.size; return a) :=
  .leave fun _ => .done ⟨rfl, ha⟩

theorem Evolves.call {x : Eval α}
    (hx : ∀ m : Machine, x.Finishes floor own { m with depth := m.depth + 1 } fun a m' => m.Evolves floor own m' ∧ V a) :
    Evolves floor own (do modifyDepth (· + 1); x) V :=
  fun m hm => hx m _ (.refl _) hm

theorem Finishes.back {a : α} (ha : V a) :
    Finishes floor own { m with depth := m.depth + 1 } (fun a m' => m.Evolves floor own m' ∧ V a)
      (do modifyDepth (· - 1); return a) :=
  fun _ h₁ _ => .done ⟨.call h₁, ha⟩

/-- No pin that is there may change from here on. -/
theorem Finishes.mark {f : Nat → Eval α} {Q : α → Machine → Prop} (hf : (f m.pins.size).Finishes m.pins.size [] m Q) :
    ((liftM Act.pinMark >>= f : Eval α) m).Ensures .evolving m.pacing Q :=
  hf m (.refl m) le_rfl

theorem Finishes.drop (a : α) :
    Finishes m.pins.size [] m (fun _ m' => m.Settles m') (do Act.unpinTo m.pins.size; return a) :=
  fun _ h₁ _ => .done h₁.settle

end Brackets

/-! ## Jobs and calls -/

theorem evolves_eval (env : FrameId) (e : Expr) : (eval env e).Evolves floor own := fun _ hm =>
  .call rfl fun _ _ h => .done ⟨h.evolves_any hm, trivial⟩

/-- What an evaluation may do, as a discipline. -/
def evolution (floor : Nat) (own : List FrameId) : Discipline where
  acts := Act.evolution floor own
  Obeys x V := x.Evolves floor own V
  Sees _ := True
  pure := .pure
  bind := .bind
  act := .act
  object r hf := .object r fun o => hf o trivial

theorem evolves_newError (t : Text) : Evolves floor own (liftM (Act.newError t)) := (evolution floor own).newError t

theorem evolves_native (op : Primitive) (frame : FrameId) (name : Text) : (native op frame name).Evolves floor own := by
  refine (evolution floor own).native (fun fn => ?_) (Act.seesFiles_evolution.obeys_primitive op name) frame
  exact fun _ hm => .call rfl fun _ _ h => .done ⟨h.evolves_any hm, trivial⟩

theorem evolves_runFunction (fn : Function) (name : Text) (args : List Ref) :
    (runFunction fn name args).Evolves floor own := by
  obtain ⟨fname, code⟩ := fn
  cases code with
  | native op =>
    refine .frame fun m => .bind (.act (Act.obeys_allocHolding (D := Act.evolution _ _) rfl args)) fun list _ => ?_
    refine .lift (Act.evolves_bind List.mem_cons_self _ list) fun _ => ?_
    exact .bind (evolves_native op _ fname) fun r _ => .leave fun _ => .done ⟨rfl, trivial⟩
  | script params body closure =>
    unfold runFunction
    dsimp only
    split
    · exact evolves_newError _
    · refine .frame fun m => .bind (.act fun _ _ => .bind (params.zip args) List.mem_cons_self) fun _ _ => ?_
      exact .bind (evolves_eval _ body) fun r _ => .result trivial

theorem evolves_callFunction (fn : Function) (name : Text) (args : List Ref) :
    (callFunction fn name args).Evolves floor own := by
  refine .call fun m => .get fun m' => ?_
  dsimp only
  split
  · exact .bind (evolves_newError _) fun r _ => .back trivial
  · exact .bind (evolves_runFunction fn name args) fun r _ => .back trivial

/-! ## Loops -/

theorem evolves_visit (loop : Loop) (item : Ref) (htally : tally.Fits floor) :
    (visit loop item tally).Evolves floor own fun a => a.2.Fits floor := by
  refine .frame fun m => .lift (Act.evolves_bind List.mem_cons_self _ item) fun _ => ?_
  have hpassing : (visitPassing loop m.frames.arena.size tally).Evolves floor (m.frames.arena.size :: own)
      fun a => a.2.Fits floor := by
    refine (evolution _ _).visitPassing (fun e _ => evolves_eval _ e) (evolves_eval _ loop.body) htally
      (fun _ _ _ => trivial) ?_
    rintro name slot value r rfl
    exact ⟨.act (Act.evolves_repin htally r), htally⟩
  have hrest : Finishes floor (m.frames.arena.size :: own) ((Act.fork loop.env).run m).2
      (fun a m' => m.Evolves floor own m' ∧ a.2.Fits floor)
      (do let result ← visitPassing loop m.frames.arena.size tally; Act.leave m.frames.arena.size; return result) :=
    .bind hpassing fun a ha => .result ha
  cases tally with
  | collected results => exact hrest
  | carried name slot value => exact .lift (Act.evolves_bind List.mem_cons_self name value) fun _ => hrest

theorem evolves_request_pull (loop : Loop) (generator : Function) {slot : Nat} (hslot : floor ≤ slot) (state : Ref)
    (htally : tally.Fits floor) :
    (request (.pull loop generator slot state tally)).Evolves floor own := fun _ hm =>
  .call rfl fun _ _ h => .done ⟨(h floor hslot htally hm).mono le_rfl (List.nil_subset own), trivial⟩

/-- A round of a loop over a generator, and what it asks for. -/
theorem evolves_pull (loop : Loop) (generator : Function) {slot : Nat} (hslot : floor ≤ slot) (state : Ref)
    (htally : tally.Fits floor) : (pull loop generator slot state tally).Evolves floor own := by
  refine (evolution floor own).pull (fun item _ => evolves_visit loop item) htally
    (evolves_callFunction generator _ [state]) (fun r => .act (Act.evolves_repin hslot r)) ?_
  exact fun state _ => evolves_request_pull loop generator hslot state

theorem evolves_evalLoop (loop : Loop) (iter : Expr) (htally : tally.Fits floor) :
    (evalLoop loop iter tally).Evolves floor own := by
  refine .bind ((evolution floor own).evalPinned (evolves_eval loop.env iter)) fun r _ => .object r fun o => ?_
  split
  · exact (evolution floor own).finish r tally
  · exact (evolution floor own).visitAll (fun item _ => evolves_visit loop item) _ htally
  · -- the state of a generator has a slot among the pins of its own, so above the floor
    refine .lift (Act.evolves_alloc rfl) fun state => .mark fun slot hslot => ?_
    exact .lift (Act.evolves_pin state) fun _ => evolves_request_pull loop _ hslot state htally
  · exact evolves_newError _

/-! ## Expressions -/

theorem evolves_evalLambda (env : FrameId) (params : List Text) (body : Expr) :
    (evalLambda env params body).Evolves floor own := by
  intro m hm
  -- the captured names are in their frame before a collection may happen
  let captured : Machine := { m with frames := (m.frames.newClosure (m.frames.capturedFrom env)).1 }
  let o : Object := .function ⟨Text.empty, .script params body (some m.frames.arena.size)⟩
  have hcollect : captured.Evolves floor own (Act.collect.run captured).2 := Act.evolves_collect captured hm
  exact .lambda params body _ hcollect

/-- **Every kind of expression** does what the list allows. -/
theorem evolves_evalNode (env : FrameId) (e : Expr) : (evalNode env e).Evolves floor own := by
  cases e with
  | lit kind raw => exact (evolution floor own).act (obeys_evalLit kind raw)
  | lookup name => exact (evolution floor own).evalLookup name
  | bin op l r => exact (evolution floor own).evalBin op (evolves_eval env l) (evolves_eval env r)
  | unary op r => exact (evolution floor own).evalUnary op (evolves_eval env r)
  | letIn assigns body =>
    refine .frame fun m =>
      .bind ((evolution _ _).evalAssigns (fun a _ => evolves_eval env a.2) fun a _ r => ?_) fun _ _ => ?_
    · exact .act (Act.evolves_bind List.mem_cons_self a.1 r)
    · exact .bind (evolves_eval _ body) fun r _ => .result trivial
  | ifElse conds otherwise =>
    refine (evolution floor own).evalConds (evolves_eval env otherwise) ?_ ?_ <;> exact fun c _ => evolves_eval env _
  | call callee args =>
    refine (evolution floor own).evalCall (fun e _ => evolves_eval env e) ?_
    exact fun fn refs _ => evolves_callFunction fn callee refs
  | list items => exact (evolution floor own).evalList fun e _ => evolves_eval env e
  | dict entries => exact (evolution floor own).evalDict fun e _ => evolves_eval env e.2
  | lambda params body => exact .act (evolves_evalLambda env params body)
  | forIn handle iter filter body => exact evolves_evalLoop _ iter trivial
  | reduce carry init handle iter filter body =>
    -- and so has the value that is carried
    refine (evolves_eval env init).bind fun value _ => .mark fun slot hslot => ?_
    exact .lift (Act.evolves_pin value) fun _ => evolves_evalLoop _ iter hslot
  | define name params body => exact .act fun _ _ => .define ⟨name, params, body⟩
  | missing => exact evolves_newError _

/-- Evaluating an expression drops all pins that it made. -/
theorem ensures_eval (env : FrameId) (e : Expr) (m : Machine) :
    (eval env e m).Ensures .evolving m.pacing fun _ m' => m.Settles m' :=
  .call rfl fun _ _ h => .done h

/-- So does applying a function. -/
theorem ensures_apply (fn : Ref) (args : List Ref) (m : Machine) :
    (apply fn args m).Ensures .evolving m.pacing fun _ m' => m.Settles m' := by
  refine Finishes.mark (.lift (Act.evolves_pinAll _) fun _ => .object fn fun o => ?_)
  split
  · exact .bind (evolves_callFunction _ _ args) fun r _ => .drop r
  · exact .bind (evolves_newError _) fun r _ => .drop r

end Eval

/-- Every job ends as it should, if the jobs that it asks for do. -/
theorem Outcomes.sound_evolving : Outcomes.evolving.Sound where
  body job m := by
    cases job with
    | eval env e => exact Eval.Finishes.mark (.bind (Eval.evolves_evalNode env e) fun r _ => .drop r)
    | apply fn args => exact Eval.ensures_apply fn args m
    | pull loop generator slot state tally =>
      -- the pull keeps to every floor that it fits, and it fits the lowest
      let Floor := { floor : Nat // floor ≤ slot ∧ tally.Fits floor ∧ floor ≤ m.pins.size }
      have : Nonempty Floor := ⟨0, Nat.zero_le _, tally.fits_zero, Nat.zero_le _⟩
      have hpull (i : Floor) : (Eval.pull loop generator slot state tally m).Ensures .evolving m.pacing
          fun _ m' => m.Evolves i.1 [] m' :=
        (Eval.evolves_pull loop generator i.2.1 state i.2.2.1 m i.2.2.2).mono fun _ _ h => h.1
      exact (Step.Ensures.all hpull).mono fun _ _ h floor hslot htally hm => h ⟨floor, hslot, htally, hm⟩
  pacing {job m r m'} h := by
    cases job with
    | eval | apply => exact h.evolves.unchanged.1
    | pull _ _ _ _ tally => exact (h 0 (Nat.zero_le _) tally.fits_zero (Nat.zero_le _)).unchanged.1

end TinyScript
