import TinyScript.Proofs.Discipline.Evaluation
import TinyScript.Proofs.Course.Rooms

/-!
# Evaluations stay on course

Whatever an evaluation does to a machine between two jobs is on the list of `Machine.Course`. `Step.Lawful` says so for
what it has done up to its next job and, whatever has become of the machine meanwhile, for what it does with the result.
Every job that fits the rooms is lawful, and so are all jobs that it asks for (`Eval.lawful_body`).
-/

namespace TinyScript

open Syntax (Expr)
open List

variable {tally : Tally} {names : Text → Prop} {loop : Loop} {frame env : FrameId}

/-! ## Jobs that fit -/

/-- The name under which a value is carried along. -/
def Tally.Carries : Tally → Text → Prop
  | .collected _, _ => False
  | .carried carry _ _, name => name = carry

/-- The names that may be bound in a round of a loop. -/
def Loop.Binds (loop : Loop) (tally : Tally) (name : Text) : Prop :=
  name = loop.handle ∨ tally.Carries name ∨ (∃ e ∈ loop.filter, e.Binds name) ∨ loop.body.Binds name

theorem Loop.binds_congr (loop : Loop) {tally' : Tally} (h : tally'.Carries = tally.Carries) :
    loop.Binds tally' = loop.Binds tally := by
  funext name
  rw [Loop.Binds, Loop.Binds, h]

/-- There is room for what the job binds. -/
def Job.Fits (rooms : Rooms) : Job → Prop
  | .eval env e => rooms.Allow env e.Binds
  | .apply _ _ => True
  | .pull loop generator _ _ tally => rooms.Allow loop.env (loop.Binds tally) ∧ generator.code.Fits rooms

/-- A job fits where more rooms are. -/
theorem Job.Fits.more {rooms rooms' : Rooms} {job : Job} (h : job.Fits rooms) (hrooms : rooms ⊆ rooms') :
    job.Fits rooms' := by
  cases job with
  | eval env e => exact Rooms.Allow.more h hrooms
  | apply fn args => trivial
  | pull loop generator slot state tally => exact ⟨h.1.more hrooms, h.2.more hrooms⟩

/-! ## Lawful evaluations -/

/-- From the machine `m` on, the evaluation stays on course, and its result is one that `V` allows. -/
inductive Step.Lawful {α : Type} (V : α → Prop) : Rooms → Machine → Step α → Prop
  | done {rooms rooms' : Rooms} {m m' : Machine} {a : α} (h : Machine.Course rooms m rooms' m') (ha : V a) :
    Lawful V rooms m (.done a m')
  | call {rooms rooms' : Rooms} {m m' : Machine} {job : Job} {k : Ref → Machine → Step α}
    (h : Machine.Course rooms m rooms' m') (hjob : job.Fits rooms')
    (hk : ∀ (rooms₁ : Rooms) (r : Ref) (m₁ : Machine), rooms' ⊆ rooms₁ → m₁.Kept rooms₁ → Lawful V rooms₁ m₁ (k r m₁)) :
    Lawful V rooms m (.call job m' k)

namespace Step.Lawful

variable {α β : Type} {V : α → Prop} {W : β → Prop} {rooms rooms' : Rooms} {m m' : Machine} {x : Step α}

/-- What is lawful later is lawful from the start. -/
theorem after (hx : x.Lawful V rooms' m') (h : Machine.Course rooms m rooms' m') : x.Lawful V rooms m := by
  cases hx with
  | done h' ha => exact .done (h.trans h') ha
  | call h' hjob hk => exact .call (h.trans h') hjob hk

theorem bind {f : α → Machine → Step β} (hx : x.Lawful V rooms m) (hm : m.Kept rooms)
    (hf : ∀ a, V a → ∀ (rooms' : Rooms) (m' : Machine), rooms ⊆ rooms' → m'.Kept rooms' →
      (f a m').Lawful W rooms' m') : (x.bind f).Lawful W rooms m := by
  induction hx with
  | done h ha => exact (hf _ ha _ _ h.subset (h.kept hm)).after h
  | call h hjob _ ih =>
    refine .call h hjob fun rooms₁ r m₁ hmore hm₁ => ih rooms₁ r m₁ hmore hm₁ hm₁ fun a ha rooms₂ m₂ hmore' => ?_
    exact hf a ha rooms₂ m₂ (List.Subset.trans (List.Subset.trans h.subset hmore) hmore')

end Step.Lawful

theorem Machine.Course.setsDict {rooms : Rooms} {d : Ref} {m m' : Machine} (h : m.SetsDict d m') :
    Course rooms m rooms m' := by
  rcases h with rfl | ⟨t, t', hd, hstore⟩
  · exact .refl rooms _
  · exact .trans (.setDict hd t') (.aside hstore.heap hstore.frames)

/-- To stay on course without a new frame is a discipline of actions. -/
def Act.course : Act.Discipline where
  Obeys x := ∀ (rooms : Rooms) (m : Machine), Machine.Course rooms m rooms (x.run m).2
  Drops _ := True
  pure _ rooms m := .refl rooms m
  bind hx hf rooms m := (hx rooms m).trans (hf _ rooms _)
  get _ hf rooms m := hf m rooms m
  aside hstore _ _ m := .aside (hstore m).heap (hstore m).frames
  mark hf rooms m := hf _ trivial rooms m
  unpinTo _ _ _ := .aside rfl rfl
  pin _ _ _ := .aside rfl rfl
  pinAll _ _ _ := .aside rfl rfl
  alloc ho _ _ := .alloc (Act.closure?_of_isFunction ho)
  dictPut d key v _ m := .setsDict (m.setsDict_dictPut d key v)
  dictErase d key _ m := .setsDict (m.setsDict_dictErase d key)

theorem Act.seesFiles_course : Act.course.SeesFiles :=
  ⟨fun hf rooms m => hf m rooms m, fun hstore _ m => .aside (hstore m).heap (hstore m).frames⟩

namespace Eval

variable {α β : Type} {rooms rooms' : Rooms}

/-- On every machine whose rooms are recorded, these among them, the program stays on course, and its result
is one that `V` allows. -/
def Lawful (rooms : Rooms) (x : Eval α) (V : α → Prop := fun _ => True) : Prop :=
  ∀ (rooms' : Rooms) (m : Machine), rooms ⊆ rooms' → m.Kept rooms' → (x m).Lawful V rooms' m

namespace Lawful

variable {x : Eval α} {f : α → Eval β} {V : α → Prop} {W : β → Prop}

theorem more (hx : x.Lawful rooms V) (hrooms : rooms ⊆ rooms') : x.Lawful rooms' V :=
  fun rooms'' m hmore hm => hx rooms'' m (List.Subset.trans hrooms hmore) hm

theorem bind (hx : x.Lawful rooms V) (hf : ∀ a, V a → (f a).Lawful rooms W) : (x >>= f).Lawful rooms W :=
  fun rooms' m hrooms hm => (hx rooms' m hrooms hm).bind hm fun a ha rooms'' m' hmore hm' =>
    hf a ha rooms'' m' (List.Subset.trans hrooms hmore) hm'

theorem pure {a : α} (ha : V a) : Lawful rooms (Pure.pure a) V := fun rooms' m _ _ => .done (.refl rooms' m) ha

/-- Any result at all. -/
theorem result (a : α) : Lawful rooms (Pure.pure a) := pure trivial

/-- An action that asks for no job and makes no frame. -/
theorem act {y : Act α} (hy : Act.course.Obeys y) : Lawful rooms (liftM y) :=
  fun rooms' m _ _ => .done (hy rooms' m) trivial

/-- After an action that asks for no job and makes no frame. -/
theorem lift {y : Act α} (hy : Act.course.Obeys y) (hf : ∀ a, (f a).Lawful rooms W) : Lawful rooms (liftM y >>= f) W :=
  bind (act hy) fun a _ => hf a

/-- After an action that changes neither objects nor frames. -/
theorem aside {y : Act α} (hheap : ∀ m, (y.run m).2.heap = m.heap) (hframes : ∀ m, (y.run m).2.frames = m.frames)
    (hf : ∀ a, (f a).Lawful rooms W) : Lawful rooms (liftM y >>= f) W :=
  lift (fun _ m => .aside (hheap m) (hframes m)) hf

theorem get {f : Machine → Eval β} (hf : ∀ m, (f m).Lawful rooms W) : Lawful rooms (getThe Machine >>= f) W :=
  fun rooms' m hrooms hm => hf m rooms' m hrooms hm

/-- After looking at an object, which has its room if it is a function with captured names. -/
theorem object {f : Object → Eval β} (r : Ref)
    (hf : ∀ o (rooms' : Rooms), rooms ⊆ rooms' → o.Fits rooms' → (f o).Lawful rooms' W) :
    Lawful rooms (liftM (Act.object r) >>= f) W :=
  fun rooms' m hrooms hm => hf (m.object r) rooms' hrooms (hm.object r) rooms' m (List.Subset.refl _) hm

/-- After looking at an object only to decide what to do. -/
theorem glance {f : Object → Eval β} (r : Ref) (hf : ∀ o, (f o).Lawful rooms W) :
    Lawful rooms (liftM (Act.object r) >>= f) W :=
  object r fun o _ hrooms _ => (hf o).more hrooms

theorem request {job : Job} (hjob : job.Fits rooms) : (request job).Lawful rooms :=
  fun rooms' m hrooms _ =>
    .call (.refl rooms' m) (hjob.more hrooms) fun rooms₁ _ m₁ _ _ => .done (.refl rooms₁ m₁) trivial

/-- After making a frame for names that there is room for. -/
theorem fork {f : FrameId → Eval β} {p : FrameId} (names : Text → Prop) (hallow : rooms.Allow p names)
    (hf : ∀ frame, (f frame).Lawful (⟨frame, names, false⟩ :: rooms) W) :
    Lawful rooms (liftM (Act.fork p) >>= f) W := by
  intro rooms' m hrooms hm
  have hfork : Machine.Course rooms' m (⟨m.frames.arena.size, names, false⟩ :: rooms') ((Act.fork p).run m).2 :=
    .fork (hallow.more hrooms)
  exact (hf m.frames.arena.size _ _ (cons_subset_cons _ hrooms) (hfork.kept hm)).after hfork

/-- After binding names in a frame that was made for that. -/
theorem bindAll {f : Unit → Eval β}
    (hframe : ⟨frame, names, false⟩ ∈ rooms) (bs : List (Text × Ref)) (hbs : ∀ b ∈ bs, names b.1)
    (hf : (f ()).Lawful rooms W) :
    Lawful rooms ((modifyThe Machine fun m => { m with frames := m.frames.bindAll frame bs } : Eval Unit) >>= f) W := by
  intro rooms' m hrooms hm
  have hbind : Machine.Course rooms' m rooms' { m with frames := m.frames.bindAll frame bs } :=
    .bind ⟨frame, names, false⟩ (hrooms hframe) rfl hbs
  exact (hf rooms' _ hrooms (hbind.kept hm)).after hbind

/-- Binding is lawful in a room for that name. -/
theorem bindName {f : Unit → Eval β} (hframe : ⟨frame, names, false⟩ ∈ rooms)
    {name : Text} (hname : names name) (r : Ref) (hf : (f ()).Lawful rooms W) :
    Lawful rooms (liftM (Act.bind frame name r) >>= f) W :=
  bindAll hframe [(name, r)] (List.forall_mem_singleton.mpr hname) hf

theorem leave {f : Unit → Eval β} (hframe : ⟨frame, names, false⟩ ∈ rooms)
    (hf : (f ()).Lawful rooms W) : Lawful rooms (liftM (Act.leave frame) >>= f) W := by
  intro rooms' m hrooms hm
  have hleave : Machine.Course rooms' m rooms' ((Act.leave frame).run m).2 :=
    .leave ⟨frame, names, false⟩ (hrooms hframe) rfl
  exact (hf rooms' _ hrooms (hleave.kept hm)).after hleave

end Lawful

/-! ## Jobs and calls -/

theorem lawful_eval {e : Expr} (hallow : rooms.Allow env e.Binds) : (eval env e).Lawful rooms :=
  .request hallow

/-- To stay on course where there are these rooms is a discipline of evaluations. -/
def course (rooms : Rooms) : Discipline where
  acts := Act.course
  Obeys x V := x.Lawful rooms V
  Sees _ := True
  pure := .pure
  bind := .bind
  act := .act
  object r hf := .glance r fun o => hf o trivial

theorem lawful_newError (t : Text) : Lawful rooms (liftM (Act.newError t)) := (course rooms).newError t

theorem lawful_native (op : Primitive) (frame : FrameId) (name : Text) : (native op frame name).Lawful rooms :=
  (course rooms).native (fun _ => .request trivial) (Act.seesFiles_course.obeys_primitive op name) frame

/-- The frame of a call has room for the parameters and for what the body binds. -/
theorem lawful_runFunction {fn : Function} (hfn : fn.code.Fits rooms) (name : Text) (args : List Ref) :
    (runFunction fn name args).Lawful rooms := by
  obtain ⟨fname, code⟩ := fn
  cases code with
  | native op =>
    refine .fork (Eq ("args" : Text)) (.inl rfl) fun frame => ?_
    refine .lift (Act.obeys_allocHolding (D := Act.course) rfl args) fun list => ?_
    refine .bindName mem_cons_self rfl list ?_
    exact (lawful_native op frame fname).bind fun r _ => .leave mem_cons_self (.get fun m => .result _)
  | script params body closure =>
    unfold runFunction
    dsimp only
    split
    · exact lawful_newError _
    · have hallow : rooms.Allow (closure.getD Frames.global) fun name => name ∈ params ∨ body.Binds name := by
        cases closure with
        | none => exact .inl rfl
        | some f => exact .inr ⟨_, hfn, rfl, fun _ => id⟩
      refine .fork _ hallow fun frame => .bindAll mem_cons_self _ (fun b hb => .inl ?_) ?_
      · exact (of_mem_zip hb).1
      · have hbody := Rooms.allow_self rooms frame fun name (hname : body.Binds name) => Or.inr (a := name ∈ params) hname
        exact (lawful_eval hbody).bind fun r _ => .leave mem_cons_self (.result r)

/-- The body of a function has a room of its own. -/
theorem lawful_callFunction {fn : Function} (hfn : fn.code.Fits rooms) (name : Text) (args : List Ref) :
    (callFunction fn name args).Lawful rooms := by
  have hback (r : Ref) : (do modifyDepth (· - 1); return r : Eval Ref).Lawful rooms :=
    .aside (fun _ => rfl) (fun _ => rfl) fun _ => .result r
  refine .aside (fun _ => rfl) (fun _ => rfl) fun _ => .get fun m => ?_
  dsimp only
  split
  · exact (lawful_newError _).bind fun r _ => hback r
  · exact (lawful_runFunction hfn name args).bind fun r _ => hback r

theorem lawful_apply (fn : Ref) (args : List Ref) : (apply fn args).Lawful rooms := by
  refine .aside (fun _ => rfl) (fun _ => rfl) fun mark => .lift (Act.course.pinAll _) fun _ => ?_
  refine .object fn fun o rooms' _ ho => ?_
  have hdrop (r : Ref) : (do Act.unpinTo mark; return r : Eval Ref).Lawful rooms' :=
    .lift (Act.course.unpinTo trivial) fun _ => .result r
  split
  · exact (lawful_callFunction ho _ args).bind fun r _ => hdrop r
  · exact (lawful_newError _).bind fun r _ => hdrop r

theorem lawful_evalCall (callee : Text) {args : List Expr}
    (hallow : ∀ e ∈ args, rooms.Allow env e.Binds) : (evalCall env callee args).Lawful rooms := by
  refine .aside (fun _ => rfl) (fun _ => rfl) fun fn => ?_
  split
  · exact lawful_newError _
  · refine .lift (Act.course.pin _) fun _ => .object _ fun o rooms' hrooms ho => ?_
    split
    · refine .bind ((course rooms').evalArgs (fun e he => lawful_eval ((hallow e he).more hrooms)) []) fun a _ => ?_
      split
      · exact .result _
      · exact lawful_callFunction ho callee _
    · exact lawful_newError _

/-! ## Loops -/

/-- A loop binds names in its own room. -/
theorem lawful_visit (item : Ref) (hallow : rooms.Allow loop.env (loop.Binds tally)) :
    (visit loop item tally).Lawful rooms fun a => a.2.Carries = tally.Carries := by
  refine .fork _ hallow fun frame => .bindName mem_cons_self (.inl rfl) item ?_
  have hpassing : (visitPassing loop frame tally).Lawful (⟨frame, loop.Binds tally, false⟩ :: rooms)
      fun a => a.2.Carries = tally.Carries := by
    -- the name of a value that is carried along stays the same
    refine (course _).visitPassing (T := fun t => t.Carries = tally.Carries) (fun e he => lawful_eval ?_)
      (lawful_eval ?_) rfl ?_ ?_
    · exact Rooms.allow_self rooms frame fun _ hname => .inr (.inr (.inl ⟨e, he, hname⟩))
    · exact Rooms.allow_self rooms frame fun _ hname => .inr (.inr (.inr hname))
    · rintro results r rfl
      rfl
    · rintro name slot value r rfl
      exact ⟨.act fun _ _ => .aside rfl rfl, rfl⟩
  have hrest : (do let result ← visitPassing loop frame tally; Act.leave frame; return result : Eval _).Lawful
      (⟨frame, loop.Binds tally, false⟩ :: rooms) fun a => a.2.Carries = tally.Carries :=
    hpassing.bind fun a ha => .leave mem_cons_self (.pure ha)
  cases tally with
  | collected results => exact hrest
  | carried name slot value => exact .bindName mem_cons_self (.inr (.inl rfl)) value hrest

/-- A further round has room for what the loop binds, whatever is carried along. -/
theorem lawful_visits (hallow : rooms.Allow loop.env (loop.Binds tally)) (item : Ref)
    (tally' : Tally) (htally : tally'.Carries = tally.Carries) :
    (visit loop item tally').Lawful rooms fun a => a.2.Carries = tally.Carries := by
  rw [← htally]
  exact lawful_visit item (loop.binds_congr htally ▸ hallow)

theorem lawful_pull {generator : Function} (slot : Nat) (state : Ref)
    (hallow : rooms.Allow loop.env (loop.Binds tally)) (hgenerator : generator.code.Fits rooms) :
    (pull loop generator slot state tally).Lawful rooms := by
  refine (course rooms).pull (lawful_visits hallow) rfl (lawful_callFunction hgenerator _ [state])
    (fun r => .act fun _ _ => .aside rfl rfl) fun state tally' htally => .request ⟨?_, hgenerator⟩
  exact loop.binds_congr htally ▸ hallow

theorem lawful_evalLoop {iter : Expr} (hiter : rooms.Allow loop.env iter.Binds)
    (hallow : rooms.Allow loop.env (loop.Binds tally)) : (evalLoop loop iter tally).Lawful rooms := by
  refine .bind ((course rooms).evalPinned (lawful_eval hiter)) fun r _ => .object r fun o rooms' hrooms ho => ?_
  split
  · exact (course rooms').finish r tally
  · exact (course rooms').visitAll (lawful_visits (hallow.more hrooms)) _ rfl
  · refine .lift (Act.course.alloc rfl) fun state => .aside (fun _ => rfl) (fun _ => rfl) fun slot => ?_
    exact .lift (Act.course.pin state) fun _ => .request ⟨hallow.more hrooms, ho⟩
  · exact lawful_newError _

/-! ## Expressions -/

/-- **Every kind of expression is lawful.** -/
theorem lawful_evalNode {e : Expr} (hallow : rooms.Allow env e.Binds) :
    (evalNode env e).Lawful rooms := by
  have hpart {c : Expr} (hc : c ∈ e.parts) : (course rooms).Follows (eval env c) :=
    lawful_eval (hallow.fewer fun _ => .part hc)
  cases e with
  | lit kind raw => exact (course rooms).act (obeys_evalLit kind raw)
  | lookup name => exact (course rooms).evalLookup name
  | bin op l r =>
    exact (course rooms).evalBin op (hpart (by simp [Expr.parts, Expr.children]))
      (hpart (by simp [Expr.parts, Expr.children]))
  | unary op r => exact (course rooms).evalUnary op (hpart (by simp [Expr.parts, Expr.children]))
  | letIn assigns body =>
    have hvalue (a : Text × Expr) (ha : a ∈ assigns) : a.2 ∈ (Expr.letIn assigns body).parts :=
      mem_append_left _ (mem_map_of_mem ha)
    have hbody : body ∈ (Expr.letIn assigns body).parts := mem_append_right _ (mem_singleton_self _)
    refine .fork _ hallow fun frame => ?_
    have hassigns :
        (evalAssigns env frame assigns).Lawful (⟨frame, (Expr.letIn assigns body).Binds, false⟩ :: rooms) := by
      refine (course _).evalAssigns (fun a ha => ?_) fun a ha r => ?_
      · exact Lawful.more (hpart (hvalue a ha)) (subset_cons_self _ _)
      · exact .bindName (f := fun _ => pure ()) mem_cons_self (.own (mem_map_of_mem ha)) r (.result ())
    refine hassigns.bind fun _ _ => (lawful_eval (Rooms.allow_self rooms frame fun _ => .part hbody)).bind fun r _ => ?_
    exact .leave mem_cons_self (.result r)
  | ifElse conds otherwise =>
    refine (course rooms).evalConds (hpart (mem_append_right _ (mem_singleton_self _))) (fun c hc => ?_)
      fun c hc => ?_
    · exact hpart (mem_append_left _ (mem_append_left _ (mem_map_of_mem hc)))
    · exact hpart (mem_append_left _ (mem_append_right _ (mem_map_of_mem hc)))
  | call callee args => exact lawful_evalCall callee fun e he => hallow.fewer fun _ => .part he
  | list items => exact (course rooms).evalList fun e he => hpart he
  | dict entries => exact (course rooms).evalDict fun e he => hpart (mem_map_of_mem he)
  | lambda params body => exact fun rooms' m _ _ => .done (.lambda env params body) trivial
  | forIn handle iter filter body =>
    refine lawful_evalLoop (hallow.fewer fun _ => .part mem_cons_self) (hallow.fewer fun name hname => ?_)
    rcases hname with rfl | hcarried | ⟨c, hc, hname⟩ | hname
    · exact .own (mem_singleton_self _)
    · exact hcarried.elim
    · exact .part (mem_cons_of_mem _ (mem_append_left _ (Option.mem_toList.mpr hc))) hname
    · exact .part (mem_cons_of_mem _ (mem_append_right _ (mem_singleton_self _))) hname
  | reduce carry init handle iter filter body =>
    refine .bind (hpart mem_cons_self) fun value _ => .aside (fun _ => rfl) (fun _ => rfl) fun slot => ?_
    refine .lift (Act.course.pin value) fun _ => lawful_evalLoop ?_ ?_ <;> refine hallow.fewer fun name hname => ?_
    · exact .part (mem_cons_of_mem _ mem_cons_self) hname
    rcases hname with rfl | rfl | ⟨c, hc, hname⟩ | hname
    · exact .own (mem_cons_of_mem _ (mem_singleton_self _))
    · exact .own mem_cons_self
    · refine .part (mem_cons_of_mem _ (mem_cons_of_mem _ (mem_append_left _ ?_))) hname
      exact Option.mem_toList.mpr hc
    · refine .part (mem_cons_of_mem _ (mem_cons_of_mem _ (mem_append_right _ ?_))) hname
      exact mem_singleton_self _
  | define name params body => exact .act fun _ _ => .define ⟨name, params, body⟩
  | missing => exact lawful_newError _

/-- Every job that there is room for stays on course, and asks only for such jobs. -/
theorem lawful_body {job : Job} (hjob : job.Fits rooms) : (body job).Lawful rooms := by
  cases job with
  | eval env e =>
    refine .aside (fun _ => rfl) (fun _ => rfl) fun mark => (lawful_evalNode hjob).bind fun r _ => ?_
    exact .lift (Act.course.unpinTo trivial) fun _ => .result r
  | apply fn args => exact lawful_apply fn args
  | pull loop generator slot state tally => exact lawful_pull slot state hjob.1 hjob.2

/-- A new frame below the global one has room for everything. -/
theorem lawful_evalBelow (e : Expr) : (evalBelow Frames.global e).Lawful rooms := by
  refine .fork e.Binds (.inl rfl) fun frame => ?_
  refine (lawful_eval (Rooms.allow_self rooms frame fun _ => id)).bind fun r _ => ?_
  exact .leave mem_cons_self (.result r)

end Eval

end TinyScript
