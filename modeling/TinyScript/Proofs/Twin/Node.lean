import TinyScript.Proofs.Twin.Loop

/-!
# Expressions on twins

Each kind of expression evaluated on twins, and with it every job (`Eval.ties_body`). New functions are the delicate
case. What a function captures is copied into a frame that no function has yet, and only then is the function allocated;
a collection at that moment keeps it since the frames it was copied from are registered.
-/

namespace TinyScript

open Syntax (Expr BinOp UnaryOp)
open Frames (global)

/-! ## Literals and operators -/

theorem Literal.isLeaf_of_number? {t : Text} {o : Object} (h : Literal.number? t = some o) : o.isLeaf := by
  rw [Literal.number?] at h
  split at h
  · obtain ⟨w, -, rfl⟩ := Option.map_eq_some_iff.mp h
    rfl
  split at h
  · obtain ⟨k, -, hk⟩ := Option.bind_eq_some_iff.mp h
    split at hk
    · cases hk
      rfl
    · cases hk
  · obtain ⟨i, -, hi⟩ := Option.bind_eq_some_iff.mp h
    split at hi
    · cases hi
      rfl
    · cases hi

namespace Operator

/-- Operators give no containers. -/
theorem isLeaf_of_binary {op : BinOp} {l r o : Object} (h : binary op l r = .ok o) : o.isLeaf := by
  unfold binary at h
  dsimp only at h
  repeat' split at h
  all_goals first
    | cases h; rfl
    | cases h

theorem isLeaf_of_unary {op : UnaryOp} {r o : Object} (h : unary op r = .ok o) : o.isLeaf := by
  unfold unary at h
  repeat' split at h
  all_goals first
    | cases h; rfl
    | cases h

/-- Operators do not tell objects apart that agree. -/
theorem binary_eq {ρ : Pairing} (op : BinOp) {l r l' r' : Object} (hl : l.Agree ρ l') (hr : r.Agree ρ r') :
    binary op l r = binary op l' r' := by
  cases hl <;> cases hr <;> rfl

theorem unary_eq {ρ : Pairing} (op : UnaryOp) {r r' : Object} (hr : r.Agree ρ r') :
    unary op r = unary op r' := by
  cases op <;> cases hr <;> rfl

end Operator

namespace Act

variable {Γ : Scope} {ρ : Pairing} {m n : Machine}

theorem meets_ofResult (h : Twins Γ ρ m n) {result : Except Operator.Fault Object}
    (hresult : ∀ o, result = .ok o → o.isLeaf) :
    Meets (Keeps Γ fun σ => σ) (ofResult result) m (ofResult result) n := by
  cases result with
  | error e => exact meets_leaf h rfl
  | ok o => exact meets_leaf h (hresult o rfl)

/-- An operand is valid, and an error on both sides or on none. -/
theorem meets_errorOperand? (h : Twins Γ ρ m n) {r s : Ref} (hr : ρ r s) :
    Meets (fun a m' b n' => Option.Rel ρ a b ∧ Twins Γ ρ m' n') (errorOperand? r) m (errorOperand? s) n := by
  obtain ⟨o, p, ho, hp, hagree⟩ := h.heaps.agree hr
  refine Meets.get ?_
  rw [ho, hp]
  dsimp only
  rw [hagree.isError_eq]
  split
  · exact ⟨.some hr, h⟩
  · exact ⟨.none, h⟩

theorem meets_applyBinary (h : Twins Γ ρ m n) (op : BinOp) {l l' r r' : Ref} (hl : ρ l l') (hr : ρ r r') :
    Meets (Keeps Γ fun σ => σ) (applyBinary op l r) m (applyBinary op l' r') n := by
  refine Meets.bind (meets_errorOperand? h hl) ?_
  rintro a m₁ b n₁ ⟨hrel, h₁⟩
  cases hrel with
  | some he => exact ⟨ρ, h₁, he⟩
  | none =>
    refine Meets.bind (meets_errorOperand? h₁ hr) ?_
    rintro a m₂ b n₂ ⟨hrel, h₂⟩
    cases hrel with
    | some he => exact ⟨ρ, h₂, he⟩
    | none =>
      refine Meets.object h₂ hl fun o p _ _ hagree => ?_
      refine Meets.object h₂ hr fun o' p' _ _ hagree' => ?_
      rw [Operator.binary_eq op hagree hagree']
      exact meets_ofResult h₂ fun _ => Operator.isLeaf_of_binary

theorem meets_applyUnary (h : Twins Γ ρ m n) (op : UnaryOp) {r r' : Ref} (hr : ρ r r') :
    Meets (Keeps Γ fun σ => σ) (applyUnary op r) m (applyUnary op r') n := by
  refine Meets.bind (meets_errorOperand? h hr) ?_
  rintro a m₁ b n₁ ⟨hrel, h₁⟩
  cases hrel with
  | some he => exact ⟨ρ, h₁, he⟩
  | none =>
    refine Meets.object h₁ hr fun o p _ _ hagree => ?_
    rw [Operator.unary_eq op hagree]
    exact meets_ofResult h₁ fun _ => Operator.isLeaf_of_unary

/-- A new function without captured names, a root. -/
theorem meets_allocFunction (h : Twins Γ ρ m n) (f : Function) (hf : (Object.function f).closure? = none) :
    Meets (fun r m' s n' => Twins Γ (ρ.add r s) m' n' ∧ m'.heap.get? r = some (.function f))
      (allocRaw (.function f) true) m (allocRaw (.function f) true) n := by
  refine ⟨meets_allocRaw h (.function f) true ?_, (allocRaw_run h.left.wellFormed _ _).1⟩
  intro g hg
  rw [hf] at hg
  cases hg

end Act

namespace Eval

variable {Γ : Scope} {ρ : Pairing} {m n : Machine}

theorem meets_evalLit (h : Twins Γ ρ m n) (kind : Syntax.LitKind) (raw : Text) :
    Act.Meets (Keeps Γ fun σ => σ) (evalLit kind raw) m (evalLit kind raw) n := by
  cases kind with
  | number =>
    rw [evalLit]
    cases hnumber : Literal.number? raw with
    | none => exact Act.meets_leaf h rfl
    | some o => exact Act.meets_leaf h (Literal.isLeaf_of_number? hnumber)
  | nil => exact ⟨ρ, h, h.nil⟩
  | _ => exact Act.meets_leaf h rfl

/-! ## Functions -/

end Eval

/-- A new frame for captured names belongs to no function. -/
theorem Machine.Tidy.vacant_newClosure {m : Machine} (h : m.Tidy)
    (hregistered : ∀ f ∈ m.frames.registered, f < m.frames.arena.size) (bs : List (Text × Ref)) :
    { m with frames := (m.frames.newClosure bs).1 }.Vacant m.frames.arena.size where
  detached :=
    { ne_global := h.global_ne.symm
      notMem := fun hmem => Nat.lt_irrefl _ (hregistered _ hmem)
      parent_eq := by
        show (m.frames.newClosure bs).1.parent? m.frames.arena.size = some global
        rw [Frames.parent?_newClosure, if_pos rfl] }
  not_owns := by
    rintro ⟨r, o, ho, hclosure⟩
    exact Nat.lt_irrefl _ (h.detached ho hclosure).lt_size

/-- A collection keeps a frame that belongs to no function. -/
theorem Machine.Shrinks.vacant {m m' : Machine} (hm : m.Shrinks m') {f : FrameId} (hf : m.Vacant f) :
    m'.Vacant f ∧ m'.frames.binds f = m.frames.binds f := by
  have hnone {r : Ref} {o : Object} (ho : m.heap.get? r = some o) (hclosure : o.closure? = some f) : False :=
    hf.not_owns ⟨r, o, ho, hclosure⟩
  refine ⟨⟨⟨hf.detached.ne_global, hm.registered_eq ▸ hf.detached.notMem,
    (hm.parent_eq f).trans hf.detached.parent_eq⟩, ?_⟩, hm.binds_eq fun r o ho hclosure => (hnone ho hclosure).elim⟩
  rintro ⟨r, o, ho, hclosure⟩
  rw [hm.get?_eq (Heap.valid_of_get? ho)] at ho
  exact hnone ho hclosure

/-- What a function captures here is reachable, as long as the frame is registered. -/
theorem Machine.reachable_of_mem_capturedFrom {m : Machine} {env : FrameId} {b : Text × Ref}
    (henv : env = global ∨ env ∈ m.frames.registered) (hb : b ∈ m.frames.capturedFrom env)
    (hvalid : m.heap.valid b.2) (bs : List (Text × Ref)) :
    { m with frames := (m.frames.newClosure bs).1 }.Reachable b.2 := by
  obtain ⟨g, habove, hg, hbind⟩ := Frames.mem_capturedFrom_iff.mp hb
  have hparent (x p : FrameId) (hp : m.frames.parent? x = some p) :
      (m.frames.newClosure bs).1.parent? x = some p := by
    rw [Frames.parent?_newClosure, if_neg (Nat.ne_of_lt (Frames.lt_size_of_parent? hp)), hp]
  have hlt : g < m.frames.arena.size := by
    by_contra hnot
    rw [Frames.binds_of_size_le (Nat.le_of_not_lt hnot)] at hbind
    cases hbind
  have hbind' : b ∈ (m.frames.newClosure bs).1.binds g := by
    rw [Frames.binds_newClosure, if_neg (Nat.ne_of_lt hlt)]
    exact hbind
  rcases henv with rfl | henv
  · exact absurd habove.eq_global hg
  · exact .seed (.registered henv (habove.mono hparent) hbind') hvalid

namespace Eval

variable {Γ : Scope} {ρ : Pairing} {m n : Machine}

theorem meets_evalLambda (h : Twins Γ ρ m n) {env : FrameId} (henv : Γ.Env env) (params : List Text)
    (body : Expr) :
    Act.Meets (Keeps Γ fun σ => σ) (evalLambda env params body) m (evalLambda env params body) n := by
  let m₁ : Machine := { m with frames := (m.frames.newClosure (m.frames.capturedFrom env)).1 }
  let n₁ : Machine := { n with frames := (n.frames.newClosure (n.frames.capturedFrom env)).1 }
  let fn (f : FrameId) : Object := .function ⟨Text.empty, .script params body (some f)⟩
  have h₁ : Twins Γ ρ m₁ n₁ := h.newClosure
  have hm := h₁.left.shrinks_collect
  have hn := h₁.right.shrinks_collect
  -- the frame of the captured names has no function yet, so a collection does not drop its bindings
  have hvacant : m₁.Vacant m.frames.arena.size := by
    refine h.left.vacant_newClosure (fun f hf => ?_) _
    exact h.lt_size_of_mem (h.frames.leftRegistered ▸ hf)
  have hvacant' : n₁.Vacant m.frames.arena.size := by
    rw [h.frames.size_eq]
    refine h.right.vacant_newClosure (fun f hf => ?_) _
    exact h.frames.size_eq ▸ h.lt_size_of_mem (h.frames.rightRegistered ▸ hf)
  obtain ⟨hfree, hkept⟩ := hm.vacant hvacant
  obtain ⟨hfree', hkept'⟩ := hn.vacant hvacant'
  have hnames : m₁.frames.binds m.frames.arena.size = m.frames.capturedFrom env := by
    exact (Frames.binds_newClosure _ _ _).trans (if_pos rfl)
  have hnames' : n₁.frames.binds m.frames.arena.size = n.frames.capturedFrom env := by
    rw [h.frames.size_eq]
    exact (Frames.binds_newClosure _ _ _).trans (if_pos rfl)
  -- what is captured survives, since the frames it is captured from are registered
  have hbinds : (ρ.restrict (Act.collect.run m₁).2.heap (Act.collect.run n₁).2.heap).Binds
      ((Act.collect.run m₁).2.frames.binds m.frames.arena.size)
      ((Act.collect.run n₁).2.frames.binds m.frames.arena.size) := by
    rw [hkept, hkept', hnames, hnames']
    refine (h.capturedFrom henv).mono fun b hb c hc hpair => ⟨hpair, ?_, ?_⟩
    · refine hm.kept (Machine.reachable_of_mem_capturedFrom ?_ hb (h.heaps.left_valid hpair) _)
      exact henv.imp id fun hmem => h.frames.leftRegistered ▸ hmem
    · refine hn.kept (Machine.reachable_of_mem_capturedFrom ?_ hc (h.heaps.right_valid hpair) _)
      exact henv.imp id fun hmem => h.frames.rightRegistered ▸ hmem
  have halloc := Act.meets_allocRaw h₁.collect (o := fn m.frames.arena.size) (.function _) false ?_
  · have hkeeps : Act.Meets (Keeps Γ fun σ => σ) (Act.allocRaw (fn m.frames.arena.size) false) (Act.collect.run m₁).2
        (Act.allocRaw (fn n.frames.arena.size) false) (Act.collect.run n₁).2 := by
      rw [← h.frames.size_eq]
      exact halloc.mono fun r m' s n' h' => ⟨_, h', Or.inr ⟨rfl, rfl⟩⟩
    exact hkeeps
  · intro f hf
    cases hf
    exact ⟨hfree, hfree', hbinds⟩

/-- The machine in which a name is no longer bound to a root. -/
def released (name : Text) (m : Machine) : Machine :=
  match m.frames.resolveLocal? global name with
  | none => m
  | some old =>
    match m.heap.setRoot? old false with
    | some heap => { m with heap := heap }
    | none => m

/-- The function that a name was bound to is no root any more, on both sides. -/
theorem twins_released (h : Twins Γ ρ m n) (name : Text) :
    Twins Γ ρ (released name m) (released name n) ∧
      ∀ r, (released name m).heap.get? r = m.heap.get? r := by
  have hfind : Option.Rel ρ (m.frames.resolveLocal? global name)
      (n.frames.resolveLocal? global name) := h.frames.globals.find? name
  rw [released, released]
  cases hold : m.frames.resolveLocal? global name with
  | none =>
    rw [hold] at hfind
    generalize n.frames.resolveLocal? global name = b at hfind ⊢
    cases hfind
    exact ⟨h, fun _ => rfl⟩
  | some old =>
    have hmem : ∃ c ∈ m.frames.binds global, c.2 = old := by
      obtain ⟨c, hc, hold⟩ := Option.map_eq_some_iff.mp hold
      exact ⟨c, List.mem_of_find?_eq_some hc, hold⟩
    obtain ⟨c, hc, rfl⟩ := hmem
    obtain ⟨f, hf⟩ := h.left.globals c hc
    rw [hold] at hfind
    generalize n.frames.resolveLocal? global name = b at hfind ⊢
    cases hfind with
    | some hpair =>
      obtain ⟨heap, hheap, hm⟩ := Machine.unrooted h.left.wellFormed (h.heaps.left_valid hpair)
      obtain ⟨heap', hheap', hn⟩ := Machine.unrooted h.right.wellFormed (h.heaps.right_valid hpair)
      dsimp only
      rw [hheap, hheap']
      exact ⟨h.unroot hpair hf hm hn, hm.get?_eq⟩

theorem meets_define (h : Twins Γ ρ m n) (d : Syntax.Def) :
    Act.Meets (Keeps Γ fun σ => σ) (define d) m (define d) n := by
  refine Act.Meets.bind (Act.meets_allocFunction h ⟨d.name, .script d.params d.body none⟩ rfl) ?_
  rintro r m₁ s n₁ ⟨h₁, hget⟩
  obtain ⟨h₂, hsame⟩ := twins_released h₁ d.name
  have hassign := h₂.assign d.name (Or.inr ⟨rfl, rfl⟩) ((hsame r).trans hget)
  exact ⟨_, hassign, Or.inr ⟨rfl, rfl⟩⟩

/-! ## Nodes -/

theorem ties_evalAssigns {env frame : FrameId} (assigns : List (Text × Expr)) (h : Twins Γ ρ m n)
    (henv : Γ.Env env) (hframe : frame ∈ Γ.frames.map Prod.fst) :
    Ties (Keeps Γ fun _ _ _ => True) (evalAssigns env frame assigns) m (evalAssigns env frame assigns) n := by
  induction assigns generalizing ρ m n with
  | nil => exact .pure ⟨ρ, h, trivial⟩
  | cons a rest ih =>
    refine (ties_eval h henv a.2).bind ?_
    rintro r m₁ s n₁ ⟨σ, h₁, hr⟩
    refine Ties.lift (Act.meets_bind h₁ hframe a.1 hr) ?_
    rintro _ m₂ _ n₂ ⟨-, h₂⟩
    exact ih h₂

theorem ties_evalConds {env : FrameId} (otherwise : Expr) (conds : List (Expr × Expr)) (h : Twins Γ ρ m n)
    (henv : Γ.Env env) :
    Ties (Keeps Γ fun σ => σ) (evalConds env otherwise conds) m (evalConds env otherwise conds) n := by
  induction conds generalizing ρ m n with
  | nil => exact ties_eval h henv otherwise
  | cons c rest ih =>
    refine (ties_eval h henv c.1).bind ?_
    rintro r m₁ s n₁ ⟨σ, h₁, hr⟩
    refine Ties.object h₁ hr ?_
    intro o p _ _ hagree
    have htruthy := hagree.truthy_eq
    cases hagree with
    | unit => exact Ties.act (Act.meets_leaf h₁ rfl)
    | error t => exact .pure ⟨σ, h₁, hr⟩
    | _ =>
      dsimp only
      rw [htruthy]
      split
      · exact ties_eval h₁ henv c.2
      · exact ih h₁

theorem ties_evalEntries {env : FrameId} (entries : List (Text × Expr)) (h : Twins Γ ρ m n) (henv : Γ.Env env)
    {d e : Ref} (hd : Γ.Holds d e) :
    Ties (Keeps Γ fun _ _ _ => True) (evalEntries env d entries) m (evalEntries env e entries) n := by
  induction entries generalizing ρ m n with
  | nil => exact .pure ⟨ρ, h, trivial⟩
  | cons a rest ih =>
    refine (ties_eval h henv a.2).bind ?_
    rintro r m₁ s n₁ ⟨σ, h₁, hr⟩
    refine Ties.lift (Act.meets_dictPut h₁ (h₁.holds hd) a.1 hr) ?_
    rintro _ m₂ _ n₂ ⟨-, h₂⟩
    exact ih h₂

/-- Every expression. Pins may be left, for the job to drop. -/
theorem ties_evalNode (h : Twins Γ ρ m n) {env : FrameId} (henv : Γ.Env env) (e : Expr) :
    Ties (Grows Γ fun _ σ => σ) (evalNode env e) m (evalNode env e) n := by
  cases e with
  | lit kind raw => exact Ties.grows (Ties.act (meets_evalLit h kind raw))
  | lookup name =>
    refine Ties.lift (Act.meets_resolve? h henv name) ?_
    rintro a m₁ b n₁ ⟨hrel, h₁⟩
    cases hrel with
    | none => exact Ties.grows (Ties.act (Act.meets_leaf h₁ rfl))
    | some hr => exact .pure ⟨Γ, ρ, .refl Γ, h₁, hr⟩
  | bin op left right =>
    refine (ties_evalPinned h henv left).bind ?_
    rintro _ m₁ _ n₁ ⟨σ, p, rfl, rfl, h₁⟩
    have hbelow := Scope.Below.push Γ p
    refine Ties.widen hbelow ((ties_evalPinned h₁ (hbelow.env henv) right).bind ?_)
    rintro _ m₂ _ n₂ ⟨τ, q, rfl, rfl, h₂⟩
    have hbelow' := Scope.Below.push (Γ.push p) q
    have hp := h₂.holds (hbelow'.holds (Scope.holds_push Γ p))
    have hq := h₂.holds (Scope.holds_push (Γ.push p) q)
    exact Ties.widen hbelow' (Ties.grows (Ties.act (Act.meets_applyBinary h₂ op hp hq)))
  | unary op right =>
    refine (ties_evalPinned h henv right).bind ?_
    rintro _ m₁ _ n₁ ⟨σ, p, rfl, rfl, h₁⟩
    have hp := h₁.holds (Scope.holds_push Γ p)
    exact Ties.widen (.push Γ p) (Ties.grows (Ties.act (Act.meets_applyUnary h₁ op hp)))
  | letIn assigns body =>
    refine Ties.grows (Ties.lift (Act.meets_fork h henv.anchors) ?_)
    rintro frame m₁ _ n₁ ⟨rfl, h₁⟩
    have hframe : frame ∈ (Γ.enter frame env).frames.map Prod.fst := List.mem_cons_self
    have henv' : (Γ.enter frame env).Env env := henv.imp id (List.mem_cons_of_mem _)
    refine (ties_evalAssigns assigns h₁ henv' hframe).bind ?_
    rintro _ m₂ _ n₂ ⟨σ, h₂, -⟩
    refine (ties_eval h₂ (Or.inr hframe) body).bind ?_
    rintro r m₃ s n₃ ⟨τ, h₃, hr⟩
    exact Ties.stays (Act.meets_leave h₃ h.closed) fun _ m₄ n₄ h₄ => .pure ⟨τ, h₄, hr⟩
  | ifElse conds otherwise => exact Ties.grows (ties_evalConds otherwise conds h henv)
  | call callee args => exact ties_evalCall h henv callee args
  | list items =>
    refine (ties_evalItems items h henv .nil).bind ?_
    rintro rs m₁ ss n₁ ⟨Γ₁, σ, hbelow, h₁, hrs⟩
    exact Ties.widen hbelow (Ties.grows (Ties.act (Act.meets_newList h₁ (hrs.imp fun _ _ => h₁.holds))))
  | dict entries =>
    refine Ties.lift (Act.meets_newDict h) ?_
    rintro r m₁ s n₁ ⟨σ, h₁, hr⟩
    refine Ties.lift (Act.meets_pin h₁ hr) ?_
    rintro _ m₂ _ n₂ ⟨p, rfl, rfl, -, -, h₂⟩
    have hbelow := Scope.Below.push Γ p
    have hp := Scope.holds_push Γ p
    refine Ties.widen hbelow ((ties_evalEntries entries h₂ (hbelow.env henv) hp).bind ?_)
    rintro _ m₃ _ n₃ ⟨τ, h₃, -⟩
    exact .pure ⟨Γ.push p, τ, .refl _, h₃, h₃.holds hp⟩
  | lambda params body => exact Ties.grows (Ties.act (meets_evalLambda h henv params body))
  | forIn handle iter filter body =>
    have hstart : Twins ⟨Γ.pins ++ [], Γ.frames⟩ ρ m n := by simpa using h
    exact ties_evalLoop h.closed henv hstart iter (.collected [])
  | reduce carry init handle iter filter body =>
    refine (ties_eval h henv init).bind ?_
    rintro r m₁ s n₁ ⟨σ, h₁, hr⟩
    refine Ties.mark h₁ (Ties.lift (Act.meets_pin h₁ hr) ?_)
    rintro _ m₂ _ n₂ ⟨p, rfl, rfl, -, -, h₂⟩
    exact ties_evalLoop h.closed henv h₂ iter (.carried carry p)
  | define name params body => exact Ties.grows (Ties.act (meets_define h ⟨name, params, body⟩))
  | missing => exact Ties.grows (Ties.act (Act.meets_leaf h rfl))

/-- Every job that twins may ask for ends as it should. -/
theorem ties_body {job job' : Job} {R : Post Ref Ref} (hready : Ready job m job' n R) :
    Ties R (body job) m (body job') n := by
  cases hready with
  | eval h henv e =>
    -- whatever pins the node left are dropped here
    refine Ties.mark h ((ties_evalNode h henv e).bind ?_)
    rintro r m₁ s n₁ ⟨Γ', σ, hbelow, h₁, hr⟩
    exact Ties.stays (Act.meets_unpinTo h₁ hbelow h.closed) fun _ m₂ n₂ h₂ => .pure ⟨σ, h₂, hr⟩
  | apply h hfn hargs => exact ties_apply h hfn hargs
  | pull hclosed henv h hiter htally => exact ties_pull hclosed henv h hiter htally

end Eval

end TinyScript
