import TinyScript.Proofs.Twin.Store

/-!
# Reasoning about actions of twins

Two runs of one action are followed side by side. `Act.Meets` says that a pair of runs ends as a postcondition says,
and `Act.Meets.bind` goes through the parts of an action in order. There are three kinds of postcondition:

* `Stays Γ ρ`: the results are equal, and the machines are twins under the same pairing;
* `Keeps Γ V`: the machines are twins in the same scope, under a pairing for which `V` relates the results;
* `Grows Γ V`: pins may have been added.
-/

namespace TinyScript

variable {r s d : Ref} {o : Object}

/-- What two runs may end with: both results and both machines. -/
abbrev Post (α β : Type) := α → Machine → β → Machine → Prop

/-- Equal results and twins under the same pairing. -/
def Stays {α : Type} (Γ : Scope) (ρ : Pairing) : Post α α := fun a m b n => a = b ∧ Twins Γ ρ m n

/-- Twins in the same scope, and related results. -/
def Keeps {α β : Type} (Γ : Scope) (V : Pairing → α → β → Prop) : Post α β := fun a m b n =>
  ∃ ρ, Twins Γ ρ m n ∧ V ρ a b

/-- A scope with further pins. -/
def Scope.Below (Γ Γ' : Scope) : Prop := ∃ pins, Γ' = ⟨Γ.pins ++ pins, Γ.frames⟩

/-- Twins in a scope with further pins, and related results. -/
def Grows {α β : Type} (Γ : Scope) (V : Scope → Pairing → α → β → Prop) : Post α β := fun a m b n =>
  ∃ Γ' ρ, Γ.Below Γ' ∧ Twins Γ' ρ m n ∧ V Γ' ρ a b

namespace Scope.Below

variable {Γ Γ' Γ'' : Scope}

theorem refl (Γ : Scope) : Γ.Below Γ := ⟨[], by simp⟩

theorem trans (h : Γ.Below Γ') (h' : Γ'.Below Γ'') : Γ.Below Γ'' := by
  obtain ⟨pins, rfl⟩ := h
  obtain ⟨pins', rfl⟩ := h'
  exact ⟨pins ++ pins', by simp⟩

theorem push (Γ : Scope) (e : Pin) : Γ.Below (Γ.push e) := ⟨[e], rfl⟩

theorem holds (h : Γ.Below Γ') (hr : Γ.Holds r s) : Γ'.Holds r s := by
  obtain ⟨pins, rfl⟩ := h
  obtain ⟨e, he, hleft, hright⟩ := hr
  exact ⟨e, List.mem_append_left _ he, hleft, hright⟩

end Scope.Below

theorem Scope.holds_push (Γ : Scope) (e : Pin) : (Γ.push e).Holds e.left e.right :=
  ⟨e, List.mem_append_right _ List.mem_cons_self, rfl, rfl⟩

/-- Twins in a scope with further pins once these are dropped. -/
theorem Twins.unpin {Γ Γ' : Scope} {ρ : Pairing} {m n : Machine} (h : Twins Γ' ρ m n)
    (hbelow : Γ.Below Γ') (hclosed : Γ.Closed) :
    Twins Γ ρ { m with pins := m.pins.shrink Γ.pins.length }
      { n with pins := n.pins.shrink Γ.pins.length } := by
  obtain ⟨pins, rfl⟩ := hbelow
  exact h.unpinTo rfl hclosed

namespace Act

variable {α β γ δ ε : Type} {Γ Γ' : Scope} {ρ : Pairing} {m n : Machine}

/-- Two actions, each on its machine, end as a postcondition says. -/
def Meets (Q : Post α β) (x : Act α) (m : Machine) (y : Act β) (n : Machine) : Prop :=
  Q (x.run m).1 (x.run m).2 (y.run n).1 (y.run n).2

namespace Meets

variable {Q : Post γ δ} {R : Post α β} {x : Act α} {y : Act β} {f : α → Act γ} {g : β → Act δ}

/-- One action after another. -/
theorem bind (hx : Meets R x m y n) (hf : ∀ a m' b n', R a m' b n' → Meets Q (f a) m' (g b) n') :
    Meets Q (x >>= f) m (y >>= g) n :=
  hf _ _ _ _ hx

theorem mono {S : Post α β} (hx : Meets R x m y n) (hRS : ∀ a m' b n', R a m' b n' → S a m' b n') :
    Meets S x m y n :=
  hRS _ _ _ _ hx

/-- After an action that changes nothing a program could tell. -/
theorem stays {x : Act α} {g : α → Act δ} (hx : Meets (Stays Γ ρ) x m x n)
    (hf : ∀ a m' n', Twins Γ ρ m' n' → Meets Q (f a) m' (g a) n') : Meets Q (x >>= f) m (x >>= g) n := by
  refine bind hx ?_
  rintro a m' b n' ⟨rfl, h⟩
  exact hf a m' n' h

theorem get {f : Machine → Act γ} {g : Machine → Act δ} (hf : Meets Q (f m) m (g n) n) :
    Meets Q (MonadState.get >>= f) m (MonadState.get >>= g) n :=
  hf

/-- After looking at an object. -/
theorem object {f : Object → Act γ} {g : Object → Act δ} (h : Twins Γ ρ m n) (hr : ρ r s)
    (hf : ∀ o p, m.heap.get? r = some o → n.heap.get? s = some p → o.Agree ρ p →
      Meets Q (f o) m (g p) n) : Meets Q (Act.object r >>= f) m (Act.object s >>= g) n :=
  hf _ _ (h.get?_object hr).1 (h.get?_object hr).2 (h.object hr)

/-- After asking for the number of pins. -/
theorem mark {f : Nat → Act γ} {g : Nat → Act δ} (h : Twins Γ ρ m n)
    (hf : Meets Q (f Γ.pins.length) m (g Γ.pins.length) n) :
    Meets Q (pinMark >>= f) m (pinMark >>= g) n := by
  have hf' : Meets Q (f m.pins.size) m (g n.pins.size) n := by
    rw [h.pins.size_eq.1, h.pins.size_eq.2]
    exact hf
  exact hf'

end Meets

/-! ## Pins -/

/-- After pinning, the references are held, with the objects they name. -/
theorem meets_pin (h : Twins Γ ρ m n) (hr : ρ r s) :
    Meets (fun _ m' _ n' => ∃ e : Pin, e.left = r ∧ e.right = s ∧ m.heap.get? r = some e.leftObject ∧
      n.heap.get? s = some e.rightObject ∧ Twins (Γ.push e) ρ m' n') (pin r) m (pin s) n := by
  obtain ⟨o, p, ho, hp, -⟩ := h.heaps.agree hr
  exact ⟨⟨r, s, o, p⟩, rfl, rfl, ho, hp, h.pin hr ho hp⟩

/-- Back to the scope before the pins. -/
theorem meets_unpinTo (h : Twins Γ' ρ m n) (hbelow : Γ.Below Γ') (hclosed : Γ.Closed) :
    Meets (Stays Γ ρ) (unpinTo Γ.pins.length) m (unpinTo Γ.pins.length) n :=
  ⟨rfl, h.unpin hbelow hclosed⟩

end Act

/-! ## Surroundings -/

/-- A machine in other surroundings. -/
def Machine.placed (m : Machine) (s : Machine.Surroundings) : Machine :=
  { m with
    depth := s.depth
    maxDepth := s.maxDepth
    printed := s.printed
    refusesOutput := s.refusesOutput
    files := s.files
    missed := s.missed
    seed := s.seed
    clock := s.clock }

/-! ## Leaves -/

/-- Whether an object has no parts, whatever happens to it. -/
def Object.isLeaf : Object → Bool
  | .pair .. | .list _ | .dict _ | .function _ => false
  | _ => true

theorem Object.Agree.leaf {ρ : Pairing} (ho : o.isLeaf) : o.Agree ρ o := by
  cases o <;> first | (constructor; done) | cases ho

theorem Object.closure?_of_isLeaf (ho : o.isLeaf) : o.closure? = none := by
  cases o <;> first | rfl | cases ho

/-! ## Actions on the surroundings -/

namespace Act

variable {α : Type} {Γ : Scope} {ρ : Pairing} {m n : Machine}

/-- An action on the surroundings alone does the same to twins. -/
theorem meets_of_run {x : Act α} (result : Machine.Surroundings → α)
    (after : Machine.Surroundings → Machine.Surroundings)
    (hx : ∀ k, x.run k = (result k.surroundings, k.placed (after k.surroundings))) (h : Twins Γ ρ m n) :
    Meets (Stays Γ ρ) x m x n := by
  rw [Meets, hx m, hx n, h.surroundings]
  exact ⟨rfl, h.congr {} {} ⟨rfl, rfl⟩ rfl h.inStep⟩

theorem meets_note (h : Twins Γ ρ m n) (t : Text) : Meets (Stays Γ ρ) (note t) m (note t) n := by
  rw [Meets, Machine.note_run, Machine.note_run]
  exact ⟨rfl, h.congr {} {} ⟨rfl, rfl⟩ h.surroundings h.inStep⟩

theorem meets_print (h : Twins Γ ρ m n) (t : Text) : Meets (Stays Γ ρ) (print t) m (print t) n := by
  refine meets_of_run (fun s => !s.refusesOutput)
    (fun s => if s.refusesOutput then s else { s with printed := t :: s.printed }) (fun k => ?_) h
  show ((if k.refusesOutput = true then pure false
      else do modify fun m => { m with printed := t :: m.printed }; pure true : Act Bool)).run k
    = (!k.refusesOutput, k.placed (if k.refusesOutput = true then k.surroundings
        else { k.surroundings with printed := t :: k.surroundings.printed }))
  cases k.refusesOutput <;> rfl

theorem meets_readClock (h : Twins Γ ρ m n) : Meets (Stays Γ ρ) readClock m readClock n :=
  meets_of_run (fun s => s.clock + clockTick) (fun s => { s with clock := s.clock + clockTick })
    (fun _ => rfl) h

theorem meets_isFile (h : Twins Γ ρ m n) (path : Text) : Meets (Stays Γ ρ) (isFile path) m (isFile path) n := by
  refine meets_of_run (fun s => s.files.isFile path)
    (fun s => if s.files.isFile path then s else { s with missed := path :: s.missed }) (fun k => ?_) h
  rw [show k.surroundings.files = k.files from rfl]
  show (if k.files.isFile path = true then (true, k) else (false, { k with missed := path :: k.missed })) = _
  cases k.files.isFile path <;> rfl

/-! ## Allocations -/

/-- Allocating without a collection. -/
theorem meets_allocRaw (h : Twins Γ ρ m n) {p : Object} (hagree : o.Agree ρ p) (isRoot : Bool)
    (hclosure : ∀ f, o.closure? = some f →
      m.Vacant f ∧ n.Vacant f ∧ ρ.Binds (m.frames.binds f) (n.frames.binds f)) :
    Meets (fun r m' s n' => Twins Γ (ρ.add r s) m' n') (allocRaw o isRoot) m (allocRaw p isRoot) n :=
  h.alloc hagree isRoot hclosure

/-- Allocating objects that agree up to any pairing of what is pinned. -/
theorem meets_alloc (h : Twins Γ ρ m n) {p : Object}
    (hagree : ∀ σ : Pairing, (∀ r s, Γ.Holds r s → σ r s) → o.Agree σ p) (hclosure : o.closure? = none) :
    Meets (Keeps Γ fun σ => σ) (alloc o) m (alloc p) n := by
  have hcollect := h.collect
  refine Meets.bind (R := fun _ m' _ n' => ∃ σ, Twins Γ σ m' n') ⟨_, hcollect⟩ ?_
  rintro _ m' _ n' ⟨σ, h'⟩
  refine (meets_allocRaw h' (hagree σ fun r s => h'.holds) false ?_).mono ?_
  · intro f hf
    rw [hclosure] at hf
    cases hf
  · intro r m'' s n'' h''
    exact ⟨_, h'', Or.inr ⟨rfl, rfl⟩⟩

/-- Allocating while the parts are pinned. -/
theorem meets_allocHolding (h : Twins Γ ρ m n) {p : Object} {rs ss : List Ref} (hrs : List.Forall₂ ρ rs ss)
    (hagree : ∀ σ : Pairing, List.Forall₂ σ rs ss → o.Agree σ p) (hclosure : o.closure? = none) :
    Meets (Keeps Γ fun σ => σ) (allocHolding o rs) m (allocHolding p ss) n := by
  refine Meets.mark h ?_
  obtain ⟨pins, rfl, rfl, hpinned⟩ := h.pinAll hrs
  have hparts (σ : Pairing) (hσ : ∀ r s, Scope.Holds ⟨Γ.pins ++ pins, Γ.frames⟩ r s → σ r s) :
      o.Agree σ p := by
    refine hagree σ (List.forall₂_map_left_iff.mpr (List.forall₂_map_right_iff.mpr ?_))
    exact List.forall₂_same.mpr fun e he => hσ _ _ ⟨e, List.mem_append_right _ he, rfl, rfl⟩
  refine Meets.bind (R := fun _ m' _ n' => Twins ⟨Γ.pins ++ pins, Γ.frames⟩ ρ m' n') hpinned ?_
  intro _ m₁ _ n₁ h₁
  refine Meets.bind (meets_alloc h₁ hparts hclosure) ?_
  rintro r m₂ s n₂ ⟨σ, h₂, hr⟩
  exact (meets_unpinTo h₂ ⟨pins, rfl⟩ h.closed).stays fun _ _ _ h₃ => ⟨σ, h₃, hr⟩

/-- Allocating an object without parts. -/
theorem meets_leaf (h : Twins Γ ρ m n) (ho : o.isLeaf) :
    Meets (Keeps Γ fun σ => σ) (alloc o) m (alloc o) n :=
  meets_alloc h (fun _ _ => .leaf ho) (Object.closure?_of_isLeaf ho)

theorem meets_newDict (h : Twins Γ ρ m n) : Meets (Keeps Γ fun σ => σ) newDict m newDict n :=
  meets_alloc h (fun _ _ => .dict Table.paired_empty) rfl

theorem meets_newPair (h : Twins Γ ρ m n) {r' s' : Ref} (hr : ρ r r') (hs : ρ s s') :
    Meets (Keeps Γ fun σ => σ) (newPair r s) m (newPair r' s') n := by
  refine meets_allocHolding h (.cons hr (.cons hs .nil)) ?_ rfl
  rintro σ (_ | ⟨hr, _ | ⟨hs, -⟩⟩)
  exact .pair hr hs

theorem meets_newList (h : Twins Γ ρ m n) {rs ss : List Ref} (hrs : List.Forall₂ ρ rs ss) :
    Meets (Keeps Γ fun σ => σ) (newList rs) m (newList ss) n :=
  meets_allocHolding h hrs (fun _ hrs => .list hrs) rfl

/-- What an action does after one whose end is known. -/
theorem run_bind_of {α β : Type} {x : Act α} {f : α → Act β} {a : α} {m₁ : Machine} (hx : x.run m = (a, m₁)) :
    (x >>= f).run m = (f a).run m₁ := by
  rw [StateT.run_bind, hx]
  rfl

/-! ## Dicts -/

theorem dictPut_eq (d : Ref) (key : Text) (v : Ref) (m : Machine) :
    (dictPut d key v).run m = (match m.heap.get? d with
      | some (.dict t) => do
        modify fun m : Machine => { m with heap := m.heap.set d (.dict (t.put key v).1) }
        match (t.put key v).2 with
        | some g => note g.message
        | none => return ()
      | _ => (return () : Act Unit)).run m :=
  rfl

/-- What a dict becomes; a note may be taken. -/
theorem dictPut_of_dict {t : Table Ref} (hd : m.heap.get? d = some (.dict t)) (key : Text) (v : Ref) :
    ∃ notes, (dictPut d key v).run m
      = ((), { m with heap := m.heap.set d (.dict (t.put key v).1), notes := notes }) := by
  rw [dictPut_eq, hd]
  show ∃ notes, (match (t.put key v).2 with
    | some g => note g.message
    | none => (return () : Act Unit)).run { m with heap := m.heap.set d (.dict (t.put key v).1) } = _
  cases (t.put key v).2 with
  | none => exact ⟨m.notes, rfl⟩
  | some g => exact ⟨_, Machine.note_run _ _⟩

theorem dictPut_of_ne (hd : m.heap.get? d = some o) (hkind : o.kind ≠ .dict)
    (key : Text) (v : Ref) : (dictPut d key v).run m = ((), m) := by
  rw [dictPut_eq, hd]
  cases o <;> first | rfl | exact absurd rfl hkind

theorem meets_dictPut (h : Twins Γ ρ m n) {e v w : Ref} (hd : ρ d e) (key : Text) (hv : ρ v w) :
    Meets (Stays Γ ρ) (dictPut d key v) m (dictPut e key w) n := by
  obtain ⟨o, p, ho, hp, hagree⟩ := h.heaps.agree hd
  by_cases hkind : o.kind = .dict
  · cases hagree with
    | dict hpaired =>
      obtain ⟨notes, hm⟩ := dictPut_of_dict ho key v
      obtain ⟨notes', hn⟩ := dictPut_of_dict hp key w
      rw [Meets, hm, hn]
      exact ⟨rfl, (h.setDict hd ho hp (hpaired.put key hv)).congr {} {} ⟨rfl, rfl⟩ h.surroundings h.inStep⟩
    | _ => cases hkind
  · rw [Meets, dictPut_of_ne ho hkind, dictPut_of_ne hp (hagree.kind_eq ▸ hkind)]
    exact ⟨rfl, h⟩

theorem meets_dictErase (h : Twins Γ ρ m n) {e : Ref} (hd : ρ d e) (key : Text) :
    Meets (Stays Γ ρ) (dictErase d key) m (dictErase e key) n := by
  obtain ⟨o, p, ho, hp, hagree⟩ := h.heaps.agree hd
  refine Meets.get ?_
  rw [ho, hp]
  cases hagree with
  | @dict t u ht =>
    have herase := ht.erase? key
    dsimp only
    generalize t.erase? key = a at herase ⊢
    generalize u.erase? key = b at herase ⊢
    cases herase with
    | none => exact ⟨rfl, h⟩
    | some ht' => exact ⟨rfl, h.setDict hd ho hp ht'⟩
  | _ => exact ⟨rfl, h⟩

/-! ## Frames -/

/-- A new frame, below one that is kept, has the same index on both sides. -/
theorem meets_fork (h : Twins Γ ρ m n) {p : FrameId} (hp : Γ.Anchors p) :
    Meets (fun f m' g n' => f = g ∧ Twins (Γ.enter f p) ρ m' n') (fork p) m (fork p) n :=
  ⟨h.fork_eq p p, h.fork hp⟩

theorem meets_bind (h : Twins Γ ρ m n) {f : FrameId} (hf : f ∈ Γ.frames.map Prod.fst) (name : Text) (hr : ρ r s) :
    Meets (Stays Γ ρ) (Act.bind f name r) m (Act.bind f name s) n :=
  ⟨rfl, h.bindAll hf (.cons ⟨rfl, hr⟩ .nil)⟩

/-- Leaving the frame that was made last. -/
theorem meets_leave {pins : List Pin} {frames : List (FrameId × FrameId)} {f p : FrameId}
    (h : Twins ⟨pins, (f, p) :: frames⟩ ρ m n) (hclosed : Scope.Closed ⟨pins, frames⟩) :
    Meets (Stays ⟨pins, frames⟩ ρ) (leave f) m (leave f) n :=
  ⟨rfl, (h.leave hclosed).congr {} {} ⟨rfl, rfl⟩ h.surroundings h.inStep⟩

theorem meets_resolve? (h : Twins Γ ρ m n) {f : FrameId} (hf : Γ.Env f) (name : Text) :
    Meets (fun a m' b n' => Option.Rel ρ a b ∧ Twins Γ ρ m' n') (Act.resolve? f name) m (Act.resolve? f name) n :=
  ⟨h.resolve? hf name, h⟩

end Act

/-! ## Actions that can fail -/

/-- A result on both sides, or the same failure on both. -/
def Ends {ε α β : Type} (E : Machine → Machine → Prop) (Q : Post α β) : Post (Except ε α) (Except ε β)
  | .ok a, m, .ok b, n => Q a m b n
  | .error e, m, .error e', n => e = e' ∧ E m n
  | _, _, _, _ => False

namespace Act

variable {α β γ δ ε ι : Type} {Γ : Scope} {ρ : Pairing} {m n : Machine} {E : Machine → Machine → Prop}

/-- Two actions that can fail end as a postcondition says, or fail for the same reason. -/
def Tries (E : Machine → Machine → Prop) (Q : Post α β) (x : ExceptT ε Act α) (m : Machine)
    (y : ExceptT ε Act β) (n : Machine) : Prop :=
  Meets (Ends E Q) x.run m y.run n

namespace Tries

variable {Q : Post γ δ} {R : Post α β} {x : ExceptT ε Act α} {y : ExceptT ε Act β}
  {f : α → ExceptT ε Act γ} {g : β → ExceptT ε Act δ}

theorem bind (hx : Tries E R x m y n) (hf : ∀ a m' b n', R a m' b n' → Tries E Q (f a) m' (g b) n') :
    Tries E Q (x >>= f) m (y >>= g) n := by
  rw [Tries, ExceptT.run_bind, ExceptT.run_bind]
  refine Meets.bind hx ?_
  rintro (e | a) m' (e' | b) n' hend
  · exact hend
  · exact hend.elim
  · exact hend.elim
  · exact hf a m' b n' hend

theorem mono {E' : Machine → Machine → Prop} {S : Post α β} (hx : Tries E R x m y n)
    (hE : ∀ m' n', E m' n' → E' m' n') (hRS : ∀ a m' b n', R a m' b n' → S a m' b n') : Tries E' S x m y n := by
  refine Meets.mono hx ?_
  rintro (e | a) m' (e' | b) n' hend
  · exact ⟨hend.1, hE _ _ hend.2⟩
  · exact hend.elim
  · exact hend.elim
  · exact hRS _ _ _ _ hend

theorem pure {a : α} {b : β} (h : R a m b n) :
    Tries (ε := ε) E R (Pure.pure a) m (Pure.pure b) n := h

theorem throw {e e' : ε} (he : e = e') (h : E m n) :
    Tries E R (MonadExcept.throw e : ExceptT ε Act α) m (MonadExcept.throw e' : ExceptT ε Act β) n :=
  ⟨he, h⟩

/-- Nothing follows a failure. -/
theorem throw_bind {e : ε} (h : E m n) :
    Tries E Q (MonadExcept.throw e >>= f) m (MonadExcept.throw e >>= g) n :=
  bind (R := fun _ _ _ _ => False) (throw rfl h) fun _ _ _ _ => False.elim

/-- After an action that cannot fail. -/
theorem lift {x : Act α} {y : Act β} (hx : Meets R x m y n)
    (hf : ∀ a m' b n', R a m' b n' → Tries E Q (f a) m' (g b) n') :
    Tries E Q (liftM x >>= f) m (liftM y >>= g) n :=
  hf _ _ _ _ hx

/-- After an action whose result tells whether it failed. -/
theorem ends {F : Machine → Machine → Prop} {x : Act (Except ι α)} {y : Act (Except ι β)}
    {f : Except ι α → ExceptT ε Act γ} {g : Except ι β → ExceptT ε Act δ} (hx : Meets (Ends F R) x m y n)
    (herror : ∀ e m' n', F m' n' → Tries E Q (f (.error e)) m' (g (.error e)) n')
    (hok : ∀ a m' b n', R a m' b n' → Tries E Q (f (.ok a)) m' (g (.ok b)) n') :
    Tries E Q (liftM x >>= f) m (liftM y >>= g) n := by
  refine lift hx ?_
  rintro (e | a) m' (e' | b) n' hend
  · obtain ⟨rfl, hF⟩ := hend
    exact herror e m' n' hF
  · exact hend.elim
  · exact hend.elim
  · exact hok a m' b n' hend

/-- An action that cannot fail, as the last. -/
theorem last {x : Act α} {y : Act β} (hx : Meets R x m y n) :
    Tries (ε := ε) E R (liftM x) m (liftM y) n :=
  hx

theorem mark {f : Nat → ExceptT ε Act γ} {g : Nat → ExceptT ε Act δ} (h : Twins Γ ρ m n)
    (hf : Tries E Q (f Γ.pins.length) m (g Γ.pins.length) n) :
    Tries E Q (liftM pinMark >>= f) m (liftM pinMark >>= g) n :=
  Meets.mark (f := fun k => (f k).run) (g := fun k => (g k).run) h hf

theorem get {f : Machine → ExceptT ε Act γ} {g : Machine → ExceptT ε Act δ} (hf : Tries E Q (f m) m (g n) n) :
    Tries E Q (MonadState.get >>= f) m (MonadState.get >>= g) n :=
  hf

theorem object {f : Object → ExceptT ε Act γ} {g : Object → ExceptT ε Act δ} (h : Twins Γ ρ m n)
    (hr : ρ r s) (hf : ∀ o p, m.heap.get? r = some o → n.heap.get? s = some p → o.Agree ρ p →
      Tries E Q (f o) m (g p) n) :
    Tries E Q (liftM (Act.object r) >>= f) m (liftM (Act.object s) >>= g) n :=
  Meets.object (f := fun o => (f o).run) (g := fun p => (g p).run) h hr hf

end Tries

end Act

end TinyScript
