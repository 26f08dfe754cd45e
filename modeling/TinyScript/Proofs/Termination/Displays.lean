import TinyScript.Proofs.Collect.Dangling
import TinyScript.Proofs.Discipline.Evaluation
import TinyScript.Proofs.Evolution.Mutation
import TinyScript.Proofs.Syntax.Node
import TinyScript.Proofs.Syntax.Printing
import TinyScript.Proofs.Termination.Halting

/-!
# Programs whose loops run over list displays

A generator can go on for ever, but the rounds of a loop over a list display are known when it begins. What is left
are calls, each one level deeper than what it is called from. So the induction is on the number of levels that are
left, and within a level on the height of the expression. All functions on the heap have such loops only, which is
part of the invariant `Machine.Bounded`. With room for the limit times the height of the program, a run ends within
the stack (`Settings.runText_ends`).
-/

namespace TinyScript

open Syntax (Expr Program)
open List

variable {e : Expr} {p : Program} {o : Object}

/-! ## Loops over displays -/

namespace Syntax.Expr

/-- Whether an expression is a list display. -/
def isDisplay : Expr → Bool
  | list _ => true
  | _ => false

/-- Whether a node, if it is a loop, runs over a list display. -/
def loopsOverDisplay : Expr → Bool
  | forIn _ iter _ _ => iter.isDisplay
  | reduce _ _ _ iter _ _ => iter.isDisplay
  | _ => true

/-! ### Height -/

theorem sizeOf_lt_of_mem_children {c : Expr} (hc : c ∈ e.children) : sizeOf c < sizeOf e := by
  have hitem {l : List Expr} (hc : c ∈ l) : sizeOf c < sizeOf l := sizeOf_lt_of_mem hc
  have hpair {α β : Type} [SizeOf α] [SizeOf β] {l : List (α × β)} {a : α} {b : β} (hab : (a, b) ∈ l) :
      sizeOf a + sizeOf b < sizeOf l := by
    have hlt := sizeOf_lt_of_mem hab
    rw [Prod.mk.sizeOf_spec] at hlt
    omega
  cases e <;> simp only [children, mem_append, mem_cons, not_mem_nil, or_false, Option.mem_toList,
    mem_map, Prod.exists, exists_eq_right, exists_and_right] at hc
  all_goals simp only [bin.sizeOf_spec, unary.sizeOf_spec, letIn.sizeOf_spec, ifElse.sizeOf_spec, call.sizeOf_spec,
    list.sizeOf_spec, dict.sizeOf_spec, lambda.sizeOf_spec, forIn.sizeOf_spec, reduce.sizeOf_spec, define.sizeOf_spec]
  all_goals grind [Option.some.sizeOf_spec]

/-- The number of nodes on the longest way down. -/
def height (e : Expr) : Nat := (e.children.attach.map fun c => c.1.height).foldr max 0 + 1
termination_by sizeOf e
decreasing_by exact sizeOf_lt_of_mem_children c.2

theorem height_lt {c : Expr} (hc : c ∈ e.children) : c.height < e.height := by
  rw [height.eq_1 e]
  exact Nat.lt_succ_of_le (le_max_of_le (List.mem_map.mpr ⟨⟨c, hc⟩, mem_attach _ _, rfl⟩) le_rfl)

/-- Every loop in the expression runs over a list display, and nothing in it is higher than `height`. -/
def Displays (height : Nat) (e : Expr) : Prop := e.All fun x => x.loopsOverDisplay ∧ x.height ≤ height

theorem All.displays (h : e.All fun x => x.loopsOverDisplay) {n : Nat} (hn : e.height ≤ n) :
    e.Displays n := by
  induction h with
  | node h _ ih => exact .node ⟨h, hn⟩ fun c hc => ih c hc ((height_lt hc).le.trans hn)

end Syntax.Expr

/-- The height of the highest body of a program, and at least one. -/
def Syntax.Program.height (p : Program) : Nat := max 1 ((p.defs.map fun d => d.body.height).foldr max 0)

theorem Syntax.Program.height_le {d : Syntax.Def} (hd : d ∈ p.defs) : d.body.height ≤ p.height :=
  le_max_of_le_right (le_max_of_le (mem_map_of_mem hd) le_rfl)

/-- Every loop in the code runs over a list display, and its body is no higher than `height`. -/
def Code.Displays (height : Nat) : Code → Prop
  | .native _ => True
  | .script _ body _ => body.Displays height

/-- An object that, if it is a function, has such code. -/
def Object.Displays (height : Nat) : Object → Prop
  | .function f => f.code.Displays height
  | _ => True

theorem Object.displays_of_isFunction {height : Nat} (ho : o.isFunction = false) : o.Displays height := by
  cases o <;> trivial

/-! ## The invariant -/

/-- How high functions may be, and how many calls may be under way. -/
structure Bounds where
  height : Nat
  limit : Int

/-- There is a limit on calls, `depth` calls are under way, and all functions have loops over list displays
only and are not too high. -/
structure Machine.Bounded (b : Bounds) (depth : Nat) (m : Machine) : Prop where
  limit_eq : m.maxDepth = b.limit
  depth_eq : m.depth = depth
  heap : m.heap.WellFormed
  displays : m.heap.Every (Object.Displays b.height)

namespace Machine.Bounded

variable {b : Bounds} {depth : Nat} {m : Machine}

theorem object (hm : m.Bounded b depth) (r : Ref) : (m.object r).Displays b.height := by
  rw [Machine.object]
  cases ho : m.heap.get? r with
  | none => trivial
  | some o => exact hm.displays.get? ho

theorem sameStore {m' : Machine} (hm : m.Bounded b depth) (h : m.SameStore m') : m'.Bounded b depth :=
  ⟨h.maxDepth.trans hm.limit_eq, h.depth.trans hm.depth_eq, h.heap ▸ hm.heap, h.heap ▸ hm.displays⟩

/-- Other frames and other pins. -/
theorem surroundings (hm : m.Bounded b depth) (frames : Frames) (pins : Array Ref) (program : Option Program) :
    Bounded b depth { m with frames := frames, pins := pins, program := program } :=
  ⟨hm.limit_eq, hm.depth_eq, hm.heap, hm.displays⟩

theorem setHeap (hm : m.Bounded b depth) {heap : Heap} (hheap : heap.WellFormed)
    (hdisplays : heap.Every (Object.Displays b.height)) : Bounded b depth { m with heap := heap } :=
  ⟨hm.limit_eq, hm.depth_eq, hheap, hdisplays⟩

theorem alloc (hm : m.Bounded b depth) (ho : o.Displays b.height) (isRoot : Bool) :
    Bounded b depth { m with heap := (m.heap.alloc o isRoot).1 } :=
  hm.setHeap (hm.heap.alloc o isRoot).wellFormed (hm.displays.alloc ho isRoot)

theorem allocRaw (hm : m.Bounded b depth) (ho : o.Displays b.height) (isRoot : Bool) :
    ((Act.allocRaw o isRoot).run m).2.Bounded b depth :=
  hm.alloc ho isRoot

theorem setsDict (hm : m.Bounded b depth) {d : Ref} {m' : Machine} (h : m.SetsDict d m') :
    m'.Bounded b depth := by
  rcases h with rfl | ⟨-, t', -, hstore⟩
  · exact hm
  · have hset := hm.setHeap (hm.heap.set d (.dict t')).wellFormed (hm.displays.set d trivial)
    exact hset.sameStore hstore

theorem collect (hm : m.Bounded b depth) : (Act.collect.run m).2.Bounded b depth := by
  rw [collect_run]
  split
  · refine sameStore ?_ (.forceCollect m)
    obtain ⟨l, hthreaded, -⟩ := sweep_threaded (mark_threaded hm.heap)
    obtain ⟨heap, frames, hsweep⟩ := m.mark.1.sweep_frame
    have hevery := (hm.displays.fades m.fades_mark).fades m.mark.1.fades_sweep
    rw [hsweep] at hthreaded hevery ⊢
    exact ⟨hm.limit_eq, hm.depth_eq, hthreaded.wellFormed, hevery⟩
  · exact hm

theorem define (hm : m.Bounded b depth) {d : Syntax.Def} (hd : d.body.Displays b.height) :
    ((Eval.define d).run m).2.Bounded b depth := by
  obtain ⟨heap, hrun, hheap⟩ := m.define_run d
  have halloc := hm.alloc (o := d.object) hd true
  rw [hrun]
  rcases hheap with rfl | ⟨old, hroot⟩
  · exact ⟨hm.limit_eq, hm.depth_eq, halloc.heap, halloc.displays⟩
  · exact ⟨hm.limit_eq, hm.depth_eq, (Heap.setRoot?_false halloc.heap hroot).1.wellFormed,
      halloc.displays.fades (Heap.fades_setRoot? hroot)⟩

end Machine.Bounded

/-- To keep the invariant is a discipline of actions. -/
def Act.bounded (b : Bounds) (depth : Nat) : Discipline where
  Obeys x := ∀ m : Machine, m.Bounded b depth → (x.run m).2.Bounded b depth
  Drops _ := True
  pure _ _ hm := hm
  bind hx hf m hm := hf _ _ (hx m hm)
  get _ hf m hm := hf m m hm
  aside hstore _ m hm := hm.sameStore (hstore m)
  mark hf m hm := hf _ trivial m hm
  unpinTo _ _ hm := hm.surroundings _ _ _
  pin _ _ hm := hm.surroundings _ _ _
  pinAll _ _ hm := hm.surroundings _ _ _
  alloc ho _ hm := hm.collect.allocRaw (Object.displays_of_isFunction ho) false
  dictPut d key v m hm := hm.setsDict (m.setsDict_dictPut d key v)
  dictErase d key m hm := hm.setsDict (m.setsDict_dictErase d key)

theorem Act.seesFiles_bounded (b : Bounds) (depth : Nat) : (bounded b depth).SeesFiles :=
  ⟨fun hf m hm => hf m m hm, fun hstore m hm => hm.sameStore (hstore m)⟩

/-! ## Evaluation at a level -/

namespace Eval

variable {β : Type} {room : Nat} {b : Bounds} {depth : Nat}

namespace Halts

variable {W : β → Machine → Prop}

/-- After looking at an object, which has loops over list displays only if it is a function. -/
theorem object {f : Object → Eval β} (r : Ref)
    (hf : ∀ o, o.Displays b.height → (f o).Halts room (Machine.Bounded b depth) W) :
    Halts room (Machine.Bounded b depth) (liftM (Act.object r) >>= f) W :=
  fun m hm => hf (m.object r) (hm.object r) m hm

/-- An action that changes nothing but frames and pins, and then the rest. -/
theorem around {α : Type} {y : Act α} {f : α → Eval β} (hy : ∀ m : Machine, ∃ frames pins program,
    (y.run m).2 = { m with frames := frames, pins := pins, program := program })
    (hf : ∀ a, (f a).Halts room (Machine.Bounded b depth) W) :
    Halts room (Machine.Bounded b depth) (liftM y >>= f) W := by
  refine .lift (fun m hm => ?_) hf
  obtain ⟨frames, pins, program, hrun⟩ := hy m
  rw [hrun]
  exact hm.surroundings frames pins program

end Halts

/-- To come to an end at a level is a discipline of evaluations. -/
def bounded (room : Nat) (b : Bounds) (depth : Nat) : Discipline where
  acts := Act.bounded b depth
  Obeys x V := x.Halts room (Machine.Bounded b depth) fun a _ => V a
  Sees := Object.Displays b.height
  pure ha _ hm := .done ⟨hm, ha⟩
  bind hx hf m hm := (hx m hm).bind fun a m' h => hf a h.2 m' h.1
  act := .act
  object := .object

/-- The expression can be evaluated to an end in every frame. A list display gives a list. -/
def Ends (room : Nat) (b : Bounds) (depth : Nat) (e : Expr) : Prop :=
  ∀ env, (eval env e).Halts room (Machine.Bounded b depth)
    fun r m => e.isDisplay → ∃ items, m.object r = .list items

theorem ends_of_evalNode (h : ∀ env, (evalNode env e).Halts room (Machine.Bounded b depth)
    fun r m => e.isDisplay → ∃ items, m.object r = .list items) : Ends (room + 1) b depth e :=
  fun env => .request fun m hm => (h env m hm).bind fun _ _ h' => .done ⟨h'.1.surroundings _ _ _, h'.2⟩

theorem ends_of_plain (hplain : e.isDisplay = false)
    (h : ∀ env, (evalNode env e).Halts room (Machine.Bounded b depth)) : Ends (room + 1) b depth e := by
  refine ends_of_evalNode fun env m hm => (h env m hm).mono fun r m' h' => ⟨h'.1, fun hdisplay => ?_⟩
  rw [hplain] at hdisplay
  cases hdisplay

theorem Ends.pinned (he : Ends room b depth e) (env : FrameId) :
    (evalPinned env e).Halts room (Machine.Bounded b depth)
      fun r m => e.isDisplay → ∃ items, m.object r = .list items :=
  fun m hm => (he env m hm).bind fun _ _ h => .done ⟨h.1.surroundings _ _ _, h.2⟩

theorem Ends.follows (he : Ends room b depth e) (env : FrameId) : (bounded room b depth).Follows (eval env e) :=
  fun m hm => (he env m hm).mono fun _ _ h => ⟨h.1, trivial⟩

/-! ### Loops -/

section Rounds

variable {loop : Loop} (hfilter : ∀ f ∈ loop.filter, Ends room b depth f) (hbody : Ends room b depth loop.body)

include hfilter hbody in
theorem halts_visit (item : Ref) (tally : Tally) :
    (visit loop item tally).Halts room (Machine.Bounded b depth) := by
  refine .around (fun _ => ⟨_, _, _, rfl⟩) fun frame => .around (fun _ => ⟨_, _, _, rfl⟩) fun _ => ?_
  have hpassing : (visitPassing loop frame tally).Halts room (Machine.Bounded b depth) :=
    (bounded room b depth).visitPassing (T := fun _ => True) (fun e he => (hfilter e he).follows frame)
      (hbody.follows frame) trivial (fun _ _ _ => trivial)
      fun _ _ _ _ _ => ⟨.act fun _ hm => hm.surroundings _ _ _, trivial⟩
  have hrest : Halts room (Machine.Bounded b depth)
      (do let result ← visitPassing loop frame tally; Act.leave frame; return result) :=
    hpassing.bind fun a => .around (fun _ => ⟨_, _, _, rfl⟩) fun _ => .pure a
  cases tally with
  | collected results => exact hrest
  | carried name slot value => exact .around (fun _ => ⟨_, _, _, rfl⟩) fun _ => hrest

include hfilter hbody in
theorem halts_evalLoop {iter : Expr} (hiter : Ends room b depth iter) (hdisplay : iter.isDisplay) (tally : Tally) :
    (evalLoop loop iter tally).Halts room (Machine.Bounded b depth) := by
  intro m hm
  refine (hiter.pinned loop.env m hm).bind fun r m₁ h₁ => ?_
  -- no generator is asked for anything, as the display gave a list
  obtain ⟨items, hitems⟩ := h₁.2 hdisplay
  refine .lift (Prod.ext hitems rfl) ((bounded room b depth).visitAll (T := fun _ => True) ?_ items trivial m₁ h₁.1)
  exact fun item tally _ => halts_visit hfilter hbody item tally

end Rounds

/-! ### Calls from a level -/

/-- Functions can be called to an end from this level. -/
def CallsEnd (room : Nat) (b : Bounds) (depth : Nat) : Prop := ∀ (fn : Function) (name : Text) (args : List Ref),
  fn.code.Displays b.height → (callFunction fn name args).Halts room (Machine.Bounded b depth)

theorem CallsEnd.within {room' : Nat} (h : CallsEnd room b depth) (hroom : room ≤ room') : CallsEnd room' b depth :=
  fun fn name args hfn => (h fn name args hfn).within hroom

theorem CallsEnd.apply (hcalls : CallsEnd room b depth) (fn : Ref) (args : List Ref) :
    (apply fn args).Halts room (Machine.Bounded b depth) := by
  refine .around (fun _ => ⟨_, _, _, rfl⟩) fun mark =>
    .around (fun _ => ⟨_, _, _, rfl⟩) fun _ => .object fn fun o ho => ?_
  split
  · exact (hcalls _ _ args ho).bind fun r => .around (fun _ => ⟨_, _, _, rfl⟩) fun _ => .pure r
  · exact .bind ((bounded room b depth).newError _) fun r => .around (fun _ => ⟨_, _, _, rfl⟩) fun _ => .pure r

/-- A list display gives a list. -/
theorem ends_list {items : List Expr} (hitems : ∀ e ∈ items, Ends room b depth e) :
    Ends (room + 1) b depth (.list items) := by
  refine ends_of_evalNode fun env m hm => ?_
  refine ((bounded room b depth).evalItems (fun e he => (hitems e he).follows env) [] m hm).bind fun refs m₁ h₁ =>
    .done ⟨?_, ?_⟩
  · exact Act.obeys_allocHolding (D := Act.bounded b depth) rfl refs m₁ h₁.1
  · intro _
    let pinned : Machine := { m₁ with pins := m₁.pins ++ refs }
    have hpinned : (Act.collect.run pinned).2.Bounded b depth := (h₁.1.surroundings _ _ _).collect
    refine ⟨refs, ?_⟩
    exact congrArg (Option.getD · _) (hpinned.heap.get?_alloc_iff.mpr (.inl ⟨rfl, rfl⟩))

/-- If calls end, so does everything that is evaluated at this level, with as many jobs more as it is high. -/
theorem CallsEnd.ends (hcalls : CallsEnd room b depth) {n : Nat} (he : e.Displays b.height)
    (hn : e.height ≤ n) : Ends (n + room) b depth e := by
  induction n generalizing e with
  | zero => exact absurd hn (by rw [Expr.height]; omega)
  | succ n ih =>
    have hpart {c : Expr} (hc : c ∈ e.children) : Ends (n + room) b depth c :=
      ih (he.child hc) (Nat.le_of_lt_succ ((Expr.height_lt hc).trans_le hn))
    have hwithin := hcalls.within (Nat.le_add_left room n)
    rw [Nat.add_right_comm]
    cases e with
    | lit kind raw => exact ends_of_plain rfl fun env => .act (obeys_evalLit (D := Act.bounded b depth) kind raw)
    | lookup name => exact ends_of_plain rfl fun env => (bounded _ b depth).evalLookup name
    | bin op l r =>
      have hl := hpart (c := l) (by simp [Expr.children])
      have hr := hpart (c := r) (by simp [Expr.children])
      exact ends_of_plain rfl fun env => (bounded _ b depth).evalBin op (hl.follows env) (hr.follows env)
    | unary op r =>
      have hr := hpart (c := r) (by simp [Expr.children])
      exact ends_of_plain rfl fun env => (bounded _ b depth).evalUnary op (hr.follows env)
    | letIn assigns body =>
      have hbody := hpart (c := body) (by simp [Expr.children])
      refine ends_of_plain rfl fun env => .around (fun _ => ⟨_, _, _, rfl⟩) fun frame => ?_
      refine .bind ((bounded _ b depth).evalAssigns (fun a ha => (hpart ?_).follows env) ?_) fun _ => ?_
      · exact mem_append_left _ (mem_map_of_mem ha)
      · exact fun a _ r => .act fun _ hm => hm.surroundings _ _ _
      · exact (hbody frame).bind fun r => .around (fun _ => ⟨_, _, _, rfl⟩) fun _ => .pure r
    | ifElse conds otherwise =>
      have hotherwise := hpart (c := otherwise) (by simp [Expr.children])
      refine ends_of_plain rfl fun env => (bounded _ b depth).evalConds (hotherwise.follows env) ?_ ?_ <;>
        refine fun c hc => (hpart ?_).follows env <;> refine mem_append_left _ ?_
      · exact mem_append_left _ (mem_map_of_mem hc)
      · exact mem_append_right _ (mem_map_of_mem hc)
    | call callee args =>
      refine ends_of_plain rfl fun env => (bounded _ b depth).evalCall (fun a ha => (hpart ha).follows env) ?_
      exact fun fn refs hfn => hwithin fn callee refs hfn
    | list items => exact ends_list fun c hc => hpart hc
    | dict entries =>
      refine ends_of_plain rfl fun env => (bounded _ b depth).evalDict fun e he => (hpart ?_).follows env
      exact mem_map_of_mem he
    | lambda params body =>
      refine ends_of_plain rfl fun env => .act fun m hm => ?_
      have hbody : body.Displays b.height := he.child mem_cons_self
      exact (hm.surroundings _ m.pins m.program).collect.allocRaw
        (o := .function ⟨.empty, .script params body (some m.frames.arena.size)⟩) hbody false
    | forIn handle iter filter body =>
      refine ends_of_plain rfl fun env => halts_evalLoop (fun f hf => hpart ?_) (hpart ?_) (hpart ?_) he.own.1 _
      all_goals simp_all [Expr.children]
    | reduce carry init handle iter filter body =>
      have hinit := hpart (c := init) (by simp [Expr.children])
      refine ends_of_plain rfl fun env => (hinit env).bind fun value => ?_
      refine .around (fun _ => ⟨_, _, _, rfl⟩) fun slot => .around (fun _ => ⟨_, _, _, rfl⟩) fun _ => ?_
      refine halts_evalLoop (fun f hf => hpart ?_) (hpart ?_) (hpart ?_) he.own.1 _
      all_goals simp_all [Expr.children]
    | define name params body =>
      have hbody : body.Displays b.height := he.child mem_cons_self
      exact ends_of_plain rfl fun env => .act fun m hm => hm.define (d := ⟨name, params, body⟩) hbody
    | missing => exact ends_of_plain rfl fun env => (bounded _ b depth).newError _

theorem CallsEnd.runFunction (hcalls : CallsEnd room b depth) (hheight : 1 ≤ b.height) (fn : Function)
    (hfn : fn.code.Displays b.height) (name : Text) (args : List Ref) :
    (runFunction fn name args).Halts (b.height + room) (Machine.Bounded b depth) := by
  obtain ⟨fname, code⟩ := fn
  cases code with
  | native op =>
    refine .around (fun _ => ⟨_, _, _, rfl⟩) fun frame => ?_
    refine .lift (Act.obeys_allocHolding (D := Act.bounded b depth) rfl args) fun list => ?_
    refine .around (fun _ => ⟨_, _, _, rfl⟩) fun _ => .bind ((bounded _ b depth).native ?_ ?_ frame) fun r => ?_
    · exact fun fn => (Halts.request (hcalls.apply fn [])).within (by omega)
    · exact (Act.seesFiles_bounded b depth).obeys_primitive op fname
    · exact .around (fun _ => ⟨_, _, _, rfl⟩) fun _ => .get fun m hm => .done ⟨hm, trivial⟩
  | script params body closure =>
    unfold Eval.runFunction
    dsimp only
    split
    · exact (bounded _ b depth).newError _
    · refine .around (fun _ => ⟨_, _, _, rfl⟩) fun frame => .around (fun _ => ⟨_, _, _, rfl⟩) fun _ => ?_
      exact (hcalls.ends hfn hfn.own.2 frame).bind fun r => .around (fun _ => ⟨_, _, _, rfl⟩) fun _ => .pure r

/-- A call is begun, one level deeper. -/
theorem Halts.deeper {f : Machine → Eval Ref} (hf : ∀ m : Machine, m.Bounded b (depth + 1) →
    (f m m).Halts room fun _ m' => m'.Bounded b depth ∧ True) :
    Halts room (Machine.Bounded b depth) (do modifyDepth (· + 1); let m ← getThe Machine; f m) :=
  fun m hm => hf { m with depth := m.depth + 1 } ⟨hm.limit_eq, congrArg (· + 1) hm.depth_eq, hm.heap, hm.displays⟩

/-- A call that ends at its own level is taken back. -/
theorem Halts.back {x : Eval Ref} (hx : x.Halts room (Machine.Bounded b (depth + 1))) {m : Machine}
    (hm : m.Bounded b (depth + 1)) :
    ((do let r ← x; modifyDepth (· - 1); return r : Eval Ref) m).Halts room fun _ m' => m'.Bounded b depth ∧ True :=
  (hx m hm).bind fun _ _ h =>
    .done ⟨⟨h.1.limit_eq, congrArg (· - 1) h.1.depth_eq, h.1.heap, h.1.displays⟩, trivial⟩

/-- Under a limit, functions can be called to an end from every level. At the limit there is an error, and
below it the level of the call is nearer to the limit. -/
theorem callsEnd (hheight : 1 ≤ b.height) (hlimit : 0 < b.limit) {left depth : Nat}
    (hleft : b.limit.toNat - depth = left) :
    CallsEnd (left * b.height) b depth := by
  induction left generalizing depth with
  | zero =>
    intro fn name args hfn
    refine .deeper fun m hm => ?_
    dsimp only
    split
    · exact Halts.back ((bounded _ b (depth + 1)).newError _) hm
    · next hwithin =>
      rw [hm.limit_eq, hm.depth_eq, Bool.and_eq_true, decide_eq_true_eq, decide_eq_true_eq] at hwithin
      omega
  | succ left ih =>
    intro fn name args hfn
    rw [Nat.succ_mul, Nat.add_comm]
    refine .deeper fun m hm => ?_
    dsimp only
    split
    · exact Halts.back ((bounded _ b (depth + 1)).newError _) hm
    · exact Halts.back ((ih (by omega)).runFunction hheight fn hfn name args) hm

end Eval

/-! ## Programs -/

namespace Machine.Bounded

variable {b : Bounds} {depth : Nat} {m : Machine}

theorem addFunctions (hm : m.Bounded b depth) (fs : Builtin.Group) :
    ((Act.addFunctions fs).run m).2.Bounded b depth := by
  induction fs generalizing m with
  | nil => exact hm
  | cons f fs ih =>
    have halloc := hm.allocRaw (o := .function ⟨f.1, .native f.2⟩) trivial true
    exact ih (halloc.surroundings _ _ _)

theorem defineAll (hm : m.Bounded b depth) (hp : p.All fun x => x.loopsOverDisplay)
    (hheight : p.height ≤ b.height) : ((Act.defineAll p).run m).2.Bounded b depth := by
  refine Act.defineAll_run (P := fun _ m' => m'.Bounded b depth) (hm.surroundings _ _ _) fun _ d hd m' hm' => ?_
  have hbody : d.body.All fun x => x.loopsOverDisplay := (hp d hd).child mem_cons_self
  exact hm'.define (hbody.displays ((Program.height_le hd).trans hheight))

end Machine.Bounded

theorem Settings.bounded_machine (s : Settings) (pacing : Pacing) (fs : Builtin.Group) (height : Nat) :
    (s.machine pacing fs).Bounded ⟨height, s.maxDepth⟩ 0 := by
  have hblank : (s.blank pacing).Bounded ⟨height, s.maxDepth⟩ 0 :=
    ⟨rfl, rfl, Heap.threaded_empty.wellFormed, Heap.every_empty _⟩
  have hshared := (hblank.allocRaw (o := .unit) trivial true).allocRaw (o := .nil) trivial true
  refine Machine.Bounded.addFunctions ?_ fs
  exact ⟨hshared.limit_eq, hshared.depth_eq, hshared.heap, hshared.displays⟩

/-- What the program of a text gives is an object. -/
theorem Settings.valid_of_runText (s : Settings) {pacing : Pacing} {fs : Builtin.Group} {src : Text} {budget : Nat}
    {r : Ref} {m : Machine} (h : (Eval.runText src).run budget (s.machine pacing fs) = some (.ok r, m)) :
    m.heap.valid r = true := by
  obtain ⟨ρ, htwins⟩ := s.alike_machine pacing pacing fs
  have hend := Tie.run (Eval.ties_runText htwins src) budget
  rw [show (Eval.runText src (s.machine pacing fs)).run budget = some (.ok r, m) from h] at hend
  cases hend with
  | some hkeeps =>
    obtain ⟨σ, h, hr⟩ := hkeeps
    exact h.heaps.left_valid hr

namespace Eval

variable {b : Bounds}

theorem halts_runMain (hheight : 1 ≤ b.height) (hlimit : 0 < b.limit) :
    runMain.Halts (1 + b.limit.toNat * b.height) (Machine.Bounded b 0) := by
  have hlow : (Expr.call "main" []).height = 1 := by rw [Expr.height]; rfl
  have hmain : Expr.Displays b.height (.call "main" []) := .node ⟨rfl, hlow.trans_le hheight⟩ nofun
  have hends := (callsEnd hheight hlimit (Nat.sub_zero _)).ends hmain hlow.le
  exact .around (fun _ => ⟨_, _, _, rfl⟩) fun frame => (hends frame).bind fun r =>
    .around (fun _ => ⟨_, _, _, rfl⟩) fun _ => .pure r

/-- A program whose loops run over list displays can be run to an end. There is no result only if it has no
`main`. -/
theorem halts_runText (hlimit : 0 < b.limit) {src : Text} (hparse : Syntax.parseProgram src = .ok p)
    (hloops : p.All fun x => x.loopsOverDisplay) (hheight : p.height ≤ b.height) {m : Machine}
    (hm : m.Bounded b 0) (hsturdy : m.Sturdy) :
    (runText src m).Halts (1 + b.limit.toNat * b.height)
      fun a _ => (∃ r, a = .ok r) ∨ a = .error .noMain ∧ ∀ d ∈ p.defs, d.name ≠ "main" := by
  have hload : (Act.loadText src).run m = (.ok (), ((Act.defineAll p).run m).2) := by
    rw [Act.loadText, hparse]
    rfl
  have hdefined := hm.defineAll hloops hheight
  have hbound (d : Syntax.Def) (hd : d ∈ p.defs) := hsturdy.mem_globals_defineAll.mpr (.inr ⟨d, hd, rfl⟩)
  refine .lift hload (.get ?_)
  generalize ((Act.defineAll p).run m).2 = m₁ at hdefined hbound ⊢
  cases hmain : m₁.frames.resolveLocal? Frames.global "main" with
  | none =>
    refine .done (.inr ⟨rfl, fun d hd hname => ?_⟩)
    have hglobal : ("main" : Text) ∈ m₁.globals := hname ▸ hbound d hd
    exact Machine.mem_globals_iff.mp hglobal hmain
  | some main =>
    have hone : 1 ≤ p.height := le_max_left _ _
    exact (halts_runMain (hone.trans hheight) hlimit m₁ hdefined).bind fun r _ _ => .done (.inl ⟨r, rfl⟩)

end Eval

/-- On a fresh machine with a limit on the depth of calls, every program whose loops run over list displays
runs to an end, whatever its functions call, and gives an object, if the stack has room for a job more than the
limit times the height of the program. Only a program without `main` gives none. -/
theorem Settings.runText_ends (s : Settings) (hlimit : 1 ≤ s.maxDepth) (pacing : Pacing) (fs : Builtin.Group)
    {src : Text} {p : Program} (hparse : Syntax.parseProgram src = .ok p)
    (hloops : p.All fun x => x.loopsOverDisplay = true) :
    ∃ a m, (∃ enough, ∀ extra room, 1 + s.maxDepth.toNat * p.height ≤ room →
        (Eval.runText src).runWithin (enough + extra) room (s.machine pacing fs) = .ok (a, m)) ∧
      ((∃ r, a = .ok r ∧ m.heap.valid r = true) ∨ a = .error .noMain ∧ ∀ d ∈ p.defs, d.name ≠ "main") := by
  have hsturdy : (s.machine pacing fs).Sturdy := (Machine.Reached.fresh s pacing fs).sturdy
  have hhalts := Eval.halts_runText (b := ⟨p.height, s.maxDepth⟩) hlimit hparse hloops le_rfl
    (s.bounded_machine pacing fs p.height) hsturdy
  obtain ⟨a, m, ha, enough, hrun⟩ := hhalts.run
  refine ⟨a, m, ⟨enough, fun extra room hroom => ?_⟩, ha.imp_left ?_⟩
  · rw [← Nat.add_sub_cancel' hroom]
    exact hrun extra _
  · rintro ⟨r, rfl⟩
    exact ⟨r, rfl, s.valid_of_runText (Step.run_of_runWithin (hrun 0 0))⟩

/-- `def main() = for f in [fn() => main()] do f()` -/
def Syntax.Program.endless : Program :=
  ⟨[⟨"main", [], .forIn "f" (.list [.lambda [] (.call "main" [])]) none (.call "f" [])⟩]⟩

theorem Syntax.Program.parse_endless : Syntax.parseProgram endless.print = .ok endless := by
  have hmain : Syntax.IsName "main" := ⟨Syntax.tokenText_of_alone rfl, rfl⟩
  have hf : Syntax.IsName "f" := ⟨Syntax.tokenText_of_alone rfl, rfl⟩
  have hiter : Syntax.Printable (.list [.lambda [] (.call "main" [])]) :=
    .list (List.forall_mem_singleton.mpr (.lambda (forall_mem_nil _) (.call hmain (forall_mem_nil _))))
  refine Syntax.parseProgram_print (List.forall_mem_singleton.mpr (.define hmain (forall_mem_nil _) ?_))
  exact .forIn hf hiter nofun (.call hf (forall_mem_nil _))

theorem Syntax.Program.endless_loops : endless.All fun x => x.loopsOverDisplay := by
  refine List.forall_mem_singleton.mpr (.node rfl (List.forall_mem_singleton.mpr (.node rfl ?_)))
  have hcall (name : Text) : Expr.All (fun x => x.loopsOverDisplay) (.call name []) := .node rfl nofun
  refine List.forall_mem_cons.mpr ⟨.node rfl (List.forall_mem_singleton.mpr ?_),
    List.forall_mem_singleton.mpr (hcall "f")⟩
  exact .node rfl (List.forall_mem_singleton.mpr (hcall "main"))

/-- The functions of this program call each other for ever. -/
theorem Settings.runText_ends_endless :
    Syntax.parseProgram Syntax.Program.endless.print = .ok .endless ∧
      (Syntax.Program.endless.All fun x => x.loopsOverDisplay = true) ∧
      ∃ a m, (∃ enough, ∀ extra room, 1 + 3 * Syntax.Program.endless.height ≤ room →
          (Eval.runText Syntax.Program.endless.print).runWithin (enough + extra) room
            (Settings.machine { maxDepth := 3 } .always []) = .ok (a, m)) ∧
        ((∃ r, a = .ok r ∧ m.heap.valid r = true) ∨
          a = .error .noMain ∧ ∀ d ∈ Syntax.Program.endless.defs, d.name ≠ "main") :=
  ⟨Syntax.Program.parse_endless, Syntax.Program.endless_loops,
    Settings.runText_ends { maxDepth := 3 } (by decide) .always [] Syntax.Program.parse_endless
      Syntax.Program.endless_loops⟩

end TinyScript
