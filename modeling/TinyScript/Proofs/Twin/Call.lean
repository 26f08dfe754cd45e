import TinyScript.Proofs.Twin.Tie

/-!
# Calls on twins

A function that is pinned is called with arguments that are pinned. A native function finds its arguments in a list
bound in the frame of the call (`Act.args_run`). A function of the language runs below the frame of its captured names,
which is kept since the function is pinned.
-/

namespace TinyScript

open Syntax (Expr)
open Frames (global)

variable {frame : FrameId}

/-- An evaluation that was stopped by an error on both sides, or went through. -/
inductive Stopped {α β : Type} (ρ : Pairing) (V : α → β → Prop) : Except Ref α → Except Ref β → Prop
  | error {r s : Ref} : ρ r s → Stopped ρ V (.error r) (.error s)
  | ok {a : α} {b : β} : V a b → Stopped ρ V (.ok a) (.ok b)

theorem Scope.Below.env {Γ Γ' : Scope} (hbelow : Γ.Below Γ') {f : FrameId} (hf : Γ.Env f) : Γ'.Env f := by
  obtain ⟨pins, rfl⟩ := hbelow
  exact hf

theorem Scope.Below.knows {Γ Γ' : Scope} (hbelow : Γ.Below Γ') {f : Function} (hf : Γ.Knows f) :
    Γ'.Knows f := by
  obtain ⟨pins, rfl⟩ := hbelow
  obtain ⟨e, he, hobj⟩ := hf
  exact ⟨e, List.mem_append_left _ he, hobj⟩

namespace Twins

variable {Γ : Scope} {ρ : Pairing} {m n : Machine}

/-- A pinned object that is no dict is the one that was pinned. -/
theorem leftObject_eq (h : Twins Γ ρ m n) {e : Pin} (he : e ∈ Γ.pins) {o : Object}
    (ho : m.heap.get? e.left = some o) (hkind : o.kind ≠ .dict) : e.leftObject = o := by
  obtain ⟨o', ho', hbecame⟩ := h.pins.left_became e he
  rw [ho] at ho'
  cases ho'
  exact (hbecame.eq' hkind).symm

theorem rightObject_eq (h : Twins Γ ρ m n) {e : Pin} (he : e ∈ Γ.pins) {p : Object}
    (hp : n.heap.get? e.right = some p) (hkind : p.kind ≠ .dict) : e.rightObject = p := by
  obtain ⟨p', hp', hbecame⟩ := h.pins.right_became e he
  rw [hp] at hp'
  cases hp'
  exact (hbecame.eq' hkind).symm

theorem knows (h : Twins Γ ρ m n) {r s : Ref} (hr : Γ.Holds r s) {f : Function}
    (ho : m.heap.get? r = some (.function f)) : Γ.Knows f := by
  obtain ⟨e, he, rfl, rfl⟩ := hr
  exact ⟨e, he, h.leftObject_eq he ho (by simp [Object.kind])⟩

/-- No reference on both sides, or valid ones on both. -/
theorem orZero_cases (h : Twins Γ ρ m n) {r s : Ref} (hr : ρ.OrZero r s) :
    (r.isZero ∧ s.isZero) ∨ (r.isZero = false ∧ s.isZero = false ∧ ρ r s) := by
  rcases hr with ⟨rfl, rfl⟩ | hr
  · exact Or.inl ⟨rfl, rfl⟩
  · refine Or.inr ⟨?_, ?_, hr⟩
    · simpa [Ref.isZero] using Heap.gen_ne_zero_of_valid (h.heaps.left_valid hr)
    · simpa [Ref.isZero] using Heap.gen_ne_zero_of_valid (h.heaps.right_valid hr)

end Twins

/-! ## The arguments of native calls -/

namespace Act

variable {m : Machine}

theorem allocRaw_run (hwf : m.heap.WellFormed) (o : Object) (isRoot : Bool) :
    ((allocRaw o isRoot).run m).2.heap.get? ((allocRaw o isRoot).run m).1 = some o ∧
      ((allocRaw o isRoot).run m).2.frames = m.frames :=
  ⟨hwf.get?_alloc_iff.mpr (Or.inl ⟨rfl, rfl⟩), rfl⟩

theorem alloc_run (hwf : m.heap.WellFormed) (o : Object) :
    ((alloc o).run m).2.heap.get? ((alloc o).run m).1 = some o := by
  have hcollect : (collect.run m).2.heap.WellFormed := by
    rw [Machine.collect_run]
    split
    · obtain ⟨h', l', totals, notes, hrun, -, ht, -⟩ := Machine.forceCollect_spec hwf
      rw [hrun]
      exact ht.wellFormed
    · exact hwf
  exact (allocRaw_run hcollect o false).1

/-- A new list has the items it was made of, and making it leaves registered frames alone. -/
theorem newList_run (hm : m.Tidy) (items : List Ref) :
    ((newList items).run m).2.heap.get? ((newList items).run m).1 = some (.list items) ∧
      ∀ f ∈ m.frames.registered, ((newList items).run m).2.frames.binds f = m.frames.binds f := by
  let pinned : Machine := { m with pins := m.pins ++ items }
  have htidy : pinned.Tidy := hm.congr {}
  have hshrinks := htidy.shrinks_collect
  obtain ⟨hget, hframes⟩ := allocRaw_run hshrinks.wellFormed (.list items) false
  refine ⟨hget, fun f hf => ?_⟩
  show (((allocRaw (.list items) false).run (collect.run pinned).2).2.frames).binds f = m.frames.binds f
  rw [hframes]
  exact hshrinks.binds_eq fun r o ho hclosure => absurd hf (htidy.detached ho hclosure).notMem

/-- The arguments of a native call are the items of the list in its frame. -/
theorem args_run {r : Ref} {items : List Ref}
    (hbinds : m.frames.binds frame = [(("args" : Text), r)]) (hr : m.heap.get? r = some (.list items)) :
    (Act.args frame).run m = (items, m) := by
  have hlocal : m.frames.resolveLocal? frame "args" = some r := by
    rw [Frames.resolveLocal?, hbinds]
    simp
  simp only [Act.args, StateT.run_bind, StateT.run_get, pure_bind, hlocal, hr]
  rfl

end Act

namespace Eval

variable {Γ : Scope} {ρ : Pairing} {m n : Machine} {args args' : List Ref}

/-! ## Evaluating and pinning -/

theorem ties_eval (h : Twins Γ ρ m n) {env : FrameId} (henv : Γ.Env env) (e : Expr) :
    Ties (Keeps Γ fun σ => σ) (eval env e) m (eval env e) n :=
  Ties.request (.eval h henv e)

theorem ties_evalPinned (h : Twins Γ ρ m n) {env : FrameId} (henv : Γ.Env env) (e : Expr) :
    Ties (fun r m' s n' => ∃ σ p, p.left = r ∧ p.right = s ∧ Twins (Γ.push p) σ m' n') (evalPinned env e) m
      (evalPinned env e) n := by
  refine (ties_eval h henv e).bind ?_
  rintro r m₁ s n₁ ⟨σ, h₁, hr⟩
  refine Ties.lift (Act.meets_pin h₁ hr) ?_
  rintro _ m₂ _ n₂ ⟨p, hleft, hright, -, -, h₂⟩
  exact .pure ⟨σ, p, hleft, hright, h₂⟩

theorem ties_evalItems {env : FrameId} (es : List Expr) (h : Twins Γ ρ m n) (henv : Γ.Env env)
    {acc acc' : List Ref} (hacc : List.Forall₂ Γ.Holds acc acc') :
    Ties (Grows Γ fun Γ' _ => List.Forall₂ Γ'.Holds) (evalItems env es acc) m (evalItems env es acc') n := by
  induction es generalizing Γ ρ m n acc acc' with
  | nil => exact .pure ⟨Γ, ρ, .refl Γ, h, List.rel_reverse hacc⟩
  | cons e es ih =>
    refine (ties_evalPinned h henv e).bind ?_
    rintro _ m₁ _ n₁ ⟨σ, p, rfl, rfl, h₁⟩
    have hbelow := Scope.Below.push Γ p
    exact Ties.widen hbelow (ih h₁ (hbelow.env henv)
      (.cons (Scope.holds_push Γ p) (hacc.imp fun _ _ => hbelow.holds)))

/-- Arguments are evaluated up to the first error, and stay pinned. -/
theorem ties_evalArgs {env : FrameId} (es : List Expr) (h : Twins Γ ρ m n) (henv : Γ.Env env)
    {acc acc' : List Ref} (hacc : List.Forall₂ Γ.Holds acc acc') :
    Ties (Grows Γ fun Γ' σ => Stopped σ (List.Forall₂ Γ'.Holds)) (evalArgs env es acc) m
      (evalArgs env es acc') n := by
  induction es generalizing Γ ρ m n acc acc' with
  | nil => exact .pure ⟨Γ, ρ, .refl Γ, h, .ok (List.rel_reverse hacc)⟩
  | cons e es ih =>
    refine (ties_evalPinned h henv e).bind ?_
    rintro _ m₁ _ n₁ ⟨σ, p, rfl, rfl, h₁⟩
    have hbelow := Scope.Below.push Γ p
    have hp := h₁.holds (Scope.holds_push Γ p)
    refine Ties.object h₁ hp ?_
    intro o o' _ _ hagree
    rw [hagree.isError_eq]
    split
    · exact .pure ⟨Γ.push p, σ, hbelow, h₁, .error hp⟩
    · exact Ties.widen hbelow (ih h₁ (hbelow.env henv)
        (.cons (Scope.holds_push Γ p) (hacc.imp fun _ _ => hbelow.holds)))

/-! ## Timing -/

theorem tries_timingArgs (h : Twins Γ ρ m n) (hargs : List.Forall₂ Γ.Holds args args') :
    Act.Tries (Alike Γ) (fun a m' b n' => Twins Γ ρ m' n' ∧ Γ.Holds a.1 b.1 ∧ a.2 = b.2) (timingArgs args) m
      (timingArgs args') n := by
  obtain _ | ⟨hfn, hrest⟩ := hargs
  · exact .throw rfl ⟨ρ, h⟩
  · unfold timingArgs
    dsimp only
    rw [hrest.length_eq]
    split
    · exact .throw_bind ⟨ρ, h⟩
    · refine Act.Tries.object h (h.holds hfn) ?_
      intro o p _ _ hagree
      cases hagree with
      | function f =>
        obtain _ | ⟨hk, -⟩ := hrest
        · exact .pure ⟨h, hfn, rfl⟩
        · refine (Act.tries_positiveArg h _ (h.holds hk)).bind ?_
          rintro k m₁ _ n₁ ⟨rfl, h₁⟩
          exact .pure ⟨h₁, hfn, rfl⟩
      | _ => exact .throw rfl ⟨ρ, h⟩

/-- A function that is pinned is there for every call. -/
theorem ties_applyTimes {fn fn' : Ref} (hfn : Γ.Holds fn fn') (start : UInt64) (k calls : Nat)
    (elapsed : UInt64) (h : Twins Γ ρ m n) :
    Ties (Keeps Γ fun σ => Stopped σ Eq) (applyTimes fn start k calls elapsed) m
      (applyTimes fn' start k calls elapsed) n := by
  induction k generalizing calls elapsed ρ m n with
  | zero => exact .pure ⟨ρ, h, .ok rfl⟩
  | succ k ih =>
    refine (Ties.request (.apply h (h.holds hfn) .nil)).bind ?_
    rintro r m₁ s n₁ ⟨σ, h₁, hr⟩
    refine Ties.object h₁ hr ?_
    intro o p _ _ hagree
    rw [hagree.isError_eq]
    split
    · exact .pure ⟨σ, h₁, .error hr⟩
    · refine Ties.stays (Act.meets_readClock h₁) fun now m₂ n₂ h₂ => ?_
      dsimp only
      split
      · exact .pure ⟨σ, h₂, .ok rfl⟩
      · exact ih (calls + 1) _ h₂

theorem ties_timeit (h : Twins Γ ρ m n) (name : Text) (hargs : List.Forall₂ Γ.Holds args args') :
    Ties (Keeps Γ fun σ => σ) (timeit name args) m (timeit name args') n := by
  refine Ties.lift (tries_timingArgs h hargs) ?_
  rintro (e | ⟨fn, k⟩) m₁ (e' | ⟨fn', k'⟩) n₁ hend
  · obtain ⟨rfl, σ, h₁⟩ := hend
    exact Ties.act (Act.meets_leaf h₁ rfl)
  · exact hend.elim
  · exact hend.elim
  · obtain ⟨h₁, hfn, rfl⟩ := hend
    refine Ties.stays (Act.meets_readClock h₁) fun start m₂ n₂ h₂ => ?_
    refine (ties_applyTimes hfn start k 0 0 h₂).bind ?_
    rintro a m₃ b n₃ ⟨σ, h₃, hstopped⟩
    cases hstopped with
    | error hr => exact .pure ⟨σ, h₃, hr⟩
    | @ok a b heq =>
      subst heq
      obtain ⟨calls, elapsed⟩ := a
      refine Ties.stays (Act.meets_print h₃ _) fun _ m₄ n₄ h₄ => ?_
      refine Ties.stays (Act.meets_print h₄ _) fun _ m₅ n₅ h₅ => ?_
      exact Ties.act (Act.meets_leaf h₅ rfl)

/-! ## Running a function -/

/-- A primitive in the frame of its call, with the arguments of the call. -/
theorem ties_native (h : Twins Γ ρ m n) (op : Primitive) (name : Text)
    (hm : (Act.args frame).run m = (args, m)) (hn : (Act.args frame).run n = (args', n))
    (hargs : List.Forall₂ Γ.Holds args args') :
    Ties (Keeps Γ Pairing.OrZero) (native op frame name) m (native op frame name) n := by
  have hread : Act.Meets (fun as m' bs n' => as = args ∧ bs = args' ∧ Twins Γ ρ m' n') (Act.args frame) m
      (Act.args frame) n := by
    rw [Act.Meets, hm, hn]
    exact ⟨rfl, rfl, h⟩
  refine Ties.lift hread ?_
  rintro _ m₁ _ n₁ ⟨rfl, rfl, h₁⟩
  have hsettle := Act.meets_settle h₁ op name (hargs.imp fun _ _ => h₁.holds)
  cases op with
  | timeit =>
    refine (ties_timeit h₁ name hargs).mono ?_
    rintro r m₂ s n₂ ⟨σ, h₂, hr⟩
    exact ⟨σ, h₂, Or.inr hr⟩
  | _ => exact Ties.act hsettle

/-- The arguments are found where they were put. -/
theorem args_bind {k : Machine} {r : Ref} {items : List Ref} (hk : frame < k.frames.arena.size)
    (hbinds : k.frames.binds frame = []) (hr : k.heap.get? r = some (.list items)) :
    (Act.args frame).run ((Act.bind frame "args" r).run k).2 = (items, ((Act.bind frame "args" r).run k).2) := by
  refine Act.args_run (r := r) ?_ hr
  show (k.frames.modifyBinds frame (· ++ [(("args" : Text), r)])).binds frame = _
  rw [Frames.binds_modifyBinds, if_pos ⟨rfl, hk⟩, hbinds]
  rfl

/-- A new frame binds nothing. -/
theorem meets_fork_empty (h : Twins Γ ρ m n) :
    Act.Meets (fun f m' g n' => f = g ∧ Twins (Γ.enter f global) ρ m' n' ∧ m'.frames.binds f = [] ∧
      n'.frames.binds g = []) (Act.fork global) m (Act.fork global) n := by
  refine ⟨h.fork_eq global global, h.fork (Or.inl rfl), ?_, ?_⟩
  · exact (Frames.binds_fork _ _ _).trans (Frames.binds_of_size_le (Nat.le_refl _))
  · exact (Frames.binds_fork _ _ _).trans (Frames.binds_of_size_le (Nat.le_refl _))

/-- A list of pinned references is made without a change to a frame that is registered. -/
theorem meets_newList_items (h : Twins Γ ρ m n) (hmem : frame ∈ Γ.frames.map Prod.fst)
    (hargs : List.Forall₂ Γ.Holds args args') :
    Act.Meets (fun r m' s n' => Keeps Γ (fun σ => σ) r m' s n' ∧
      (m'.heap.get? r = some (.list args) ∧ m'.frames.binds frame = m.frames.binds frame) ∧
      n'.heap.get? s = some (.list args') ∧ n'.frames.binds frame = n.frames.binds frame) (Act.newList args) m
      (Act.newList args') n := by
  obtain ⟨hget, hbinds⟩ := Act.newList_run h.left args
  obtain ⟨hget', hbinds'⟩ := Act.newList_run h.right args'
  refine ⟨Act.meets_newList h (hargs.imp fun _ _ => h.holds), ⟨hget, ?_⟩, hget', ?_⟩
  · exact hbinds frame (h.frames.leftRegistered ▸ hmem)
  · exact hbinds' frame (h.frames.rightRegistered ▸ hmem)

/-- A native function, with its arguments in a list in a frame of its own. -/
theorem ties_runNative (h : Twins Γ ρ m n) {fn : Function} {op : Primitive} (hcode : fn.code = .native op)
    (name : Text) (hargs : List.Forall₂ Γ.Holds args args') :
    Ties (Keeps Γ fun σ => σ) (runFunction fn name args) m (runFunction fn name args') n := by
  rw [runFunction, runFunction, hcode]
  dsimp only
  refine Ties.lift (meets_fork_empty h) ?_
  rintro frame m₁ _ n₁ ⟨rfl, h₁, hempty, hempty'⟩
  have hmem : frame ∈ (Γ.enter frame global).frames.map Prod.fst := List.mem_cons_self
  refine Ties.lift (meets_newList_items h₁ hmem hargs) ?_
  rintro r m₂ s n₂ ⟨⟨σ, h₂, hr⟩, ⟨hget, hbinds⟩, hget', hbinds'⟩
  have hlt₂ := h₂.lt_size_of_mem hmem
  -- the list stands alone in the frame, so reading the arguments gives back what was passed
  have hread := args_bind hlt₂ (hbinds.trans hempty) hget
  have hread' := args_bind (h₂.frames.size_eq ▸ hlt₂) (hbinds'.trans hempty') hget'
  have hbind := Act.meets_bind h₂ hmem "args" hr
  refine Ties.lift (R := fun _ m' _ n' => Twins (Γ.enter frame global) σ m' n' ∧
    (Act.args frame).run m' = (args, m') ∧ (Act.args frame).run n' = (args', n')) ⟨hbind.2, hread, hread'⟩ ?_
  rintro _ m₃ _ n₃ ⟨h₃, hm, hn⟩
  refine (ties_native h₃ op fn.name hm hn hargs).bind ?_
  rintro r m₄ s n₄ ⟨τ, h₄, hr⟩
  refine Ties.stays (Act.meets_leave h₄ h.closed) fun _ m₅ n₅ h₅ => ?_
  -- no value counts as the shared `unit`
  refine Ties.get (.pure ⟨τ, h₅, ?_⟩)
  rcases h₅.orZero_cases hr with ⟨hzero, hzero'⟩ | ⟨hzero, hzero', hr⟩
  · rw [if_pos hzero, if_pos hzero']
    exact h₅.unit
  · rw [if_neg (by simp [hzero]), if_neg (by simp [hzero'])]
    exact hr

theorem binds_zip (params : List Text) {rs ss : List Ref} (h : List.Forall₂ ρ rs ss) :
    ρ.Binds (params.zip rs) (params.zip ss) := by
  induction h generalizing params with
  | nil =>
    rw [List.zip_nil_right]
    exact .nil
  | cons hr _ ih =>
    cases params with
    | nil => exact .nil
    | cons p params => exact .cons ⟨rfl, hr⟩ (ih params)

/-- A function of the language, in a frame below that of its captured names. -/
theorem ties_runScript (h : Twins Γ ρ m n) {fn : Function} (hfn : Γ.Knows fn) {params : List Text} {body : Expr}
    {closure : Option FrameId} (hcode : fn.code = .script params body closure) (name : Text)
    (hargs : List.Forall₂ Γ.Holds args args') :
    Ties (Keeps Γ fun σ => σ) (runFunction fn name args) m (runFunction fn name args') n := by
  rw [runFunction, runFunction, hcode]
  dsimp only
  rw [hargs.length_eq]
  split
  · exact Ties.act (Act.meets_leaf h rfl)
  · -- the function is pinned, so the frame of its captured names is kept while it runs
    have hanchor : Γ.Anchors (closure.getD global) := by
      cases closure with
      | none => exact Or.inl rfl
      | some f =>
        obtain ⟨e, he, hobj⟩ := hfn
        refine Or.inr (Or.inr ⟨e, he, ?_⟩)
        rw [hobj]
        show fn.closure? = some f
        rw [Function.closure?, hcode]
    refine Ties.lift (Act.meets_fork h hanchor) ?_
    rintro frame m₁ _ n₁ ⟨rfl, h₁⟩
    have hmem : frame ∈ (Γ.enter frame (closure.getD global)).frames.map Prod.fst := List.mem_cons_self
    have hbound := h₁.bindAll hmem (binds_zip params (hargs.imp fun _ _ => h₁.holds))
    refine Ties.lift (R := fun _ m' _ n' => Twins (Γ.enter frame (closure.getD global)) ρ m' n') hbound ?_
    intro _ m₂ _ n₂ h₂
    refine (ties_eval h₂ (Or.inr hmem) body).bind ?_
    rintro r m₃ s n₃ ⟨σ, h₃, hr⟩
    exact Ties.stays (Act.meets_leave h₃ h.closed) fun _ m₄ n₄ h₄ => .pure ⟨σ, h₄, hr⟩

theorem ties_runFunction (h : Twins Γ ρ m n) {fn : Function} (hfn : Γ.Knows fn) (name : Text)
    (hargs : List.Forall₂ Γ.Holds args args') :
    Ties (Keeps Γ fun σ => σ) (runFunction fn name args) m (runFunction fn name args') n := by
  cases hcode : fn.code with
  | native op => exact ties_runNative h hcode name hargs
  | script params body closure => exact ties_runScript h hfn hcode name hargs

/-! ## Calling -/

theorem meets_modifyDepth (h : Twins Γ ρ m n) (f : Nat → Nat) :
    Act.Meets (Stays Γ ρ) (modifyDepth f) m (modifyDepth f) n :=
  Act.meets_of_run (fun _ => ()) (fun s => { s with depth := f s.depth }) (fun _ => rfl) h

/-- A pinned function called with pinned arguments. Twins are at the same depth, so they come to the limit
at the same time. -/
theorem ties_callFunction (h : Twins Γ ρ m n) {fn : Function} (hfn : Γ.Knows fn) (name : Text)
    (hargs : List.Forall₂ Γ.Holds args args') :
    Ties (Keeps Γ fun σ => σ) (callFunction fn name args) m (callFunction fn name args') n := by
  have hreturn (r : Ref) (m' : Machine) (s : Ref) (n' : Machine) (hr : Keeps Γ (fun σ => σ) r m' s n') :
      Ties (Keeps Γ fun σ => σ) (do modifyDepth (· - 1); return r) m' (do modifyDepth (· - 1); return s) n' := by
    obtain ⟨σ, h', hr⟩ := hr
    exact Ties.stays (meets_modifyDepth h' _) fun _ _ _ h'' => .pure ⟨σ, h'', hr⟩
  refine Ties.stays (meets_modifyDepth h _) fun _ m₁ n₁ h₁ => Ties.get ?_
  have hlimit : m₁.maxDepth = n₁.maxDepth := congrArg Machine.Surroundings.maxDepth h₁.surroundings
  have hdepth : m₁.depth = n₁.depth := congrArg Machine.Surroundings.depth h₁.surroundings
  rw [hlimit, hdepth]
  dsimp only
  split
  · exact Ties.lift (Act.meets_leaf h₁ rfl) hreturn
  · exact (ties_runFunction h₁ hfn name hargs).bind hreturn

theorem ties_apply (h : Twins Γ ρ m n) {fn fn' : Ref} (hfn : ρ fn fn') (hargs : List.Forall₂ ρ args args') :
    Ties (Keeps Γ fun σ => σ) (apply fn args) m (apply fn' args') n := by
  refine Ties.mark h ?_
  obtain ⟨pins, hleft, hright, hpinned⟩ := h.pinAll (.cons hfn hargs)
  let Δ : Scope := ⟨Γ.pins ++ pins, Γ.frames⟩
  have hreturn (r : Ref) (m' : Machine) (s : Ref) (n' : Machine) (hr : Keeps Δ (fun σ => σ) r m' s n') :
      Ties (Keeps Γ fun σ => σ) (do Act.unpinTo Γ.pins.length; return r) m'
        (do Act.unpinTo Γ.pins.length; return s) n' := by
    obtain ⟨σ, h', hr⟩ := hr
    exact Ties.stays (Act.meets_unpinTo h' ⟨pins, rfl⟩ h.closed) fun _ _ _ h'' => .pure ⟨σ, h'', hr⟩
  have hheld : List.Forall₂ Δ.Holds (fn :: args) (fn' :: args') := by
    rw [← hleft, ← hright, List.forall₂_map_left_iff, List.forall₂_map_right_iff, List.forall₂_same]
    exact fun e he => ⟨e, List.mem_append_right _ he, rfl, rfl⟩
  obtain _ | ⟨hfn₁, hargs₁⟩ := hheld
  refine Ties.lift (R := fun _ m' _ n' => Twins Δ ρ m' n') hpinned ?_
  intro _ m₁ _ n₁ h₁
  refine Ties.object h₁ hfn ?_
  intro o p ho _ hagree
  cases hagree with
  | function f => exact (ties_callFunction h₁ (h₁.knows hfn₁ ho) f.name hargs₁).bind hreturn
  | _ => exact Ties.lift (Act.meets_leaf h₁ rfl) hreturn

theorem ties_evalCall (h : Twins Γ ρ m n) {env : FrameId} (henv : Γ.Env env) (callee : Text) (args : List Expr) :
    Ties (Grows Γ fun _ σ => σ) (evalCall env callee args) m (evalCall env callee args) n := by
  refine Ties.lift (Act.meets_resolve? h henv callee) ?_
  rintro a m₁ b n₁ ⟨hrel, h₁⟩
  cases hrel with
  | none => exact Ties.grows (Ties.act (Act.meets_leaf h₁ rfl))
  | some hr =>
    refine Ties.lift (Act.meets_pin h₁ hr) ?_
    rintro _ m₂ _ n₂ ⟨e, rfl, rfl, -, -, h₂⟩
    have hbelow := Scope.Below.push Γ e
    have he := Scope.holds_push Γ e
    refine Ties.widen hbelow (Ties.object h₂ (h₂.holds he) ?_)
    intro o p ho _ hagree
    cases hagree with
    | function f =>
      refine (ties_evalArgs args h₂ (hbelow.env henv) .nil).bind ?_
      rintro c m₃ d n₃ ⟨Γ₃, σ, hbelow₃, h₃, hstopped⟩
      cases hstopped with
      | error hr => exact .pure ⟨Γ₃, σ, hbelow₃, h₃, hr⟩
      | ok hargs =>
        have hknows := hbelow₃.knows (h₂.knows he ho)
        exact Ties.widen hbelow₃ (Ties.grows (ties_callFunction h₃ hknows callee hargs))
    | _ => exact Ties.grows (Ties.act (Act.meets_leaf h₂ rfl))

end Eval

end TinyScript
