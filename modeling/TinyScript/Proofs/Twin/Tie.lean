import TinyScript.Machine.Eval
import TinyScript.Proofs.Twin.Builtin

/-!
# Reasoning about evaluations of twins

`Ready` says when twins may ask for a job: both for the same job, with paired references in it. `Tie` relates two
evaluations that ask for jobs side by side. That every job meets its postcondition is `Eval.ties_body`.

A loop keeps its pins in a fixed layout above those of the scope in which it began: the value carried through, what is
iterated over, the state of a generator, the results (`Tally.Held`).
-/

namespace TinyScript

open Syntax (Expr)

/-- The tallies of a loop on both sides, with the pins of what they hold: a value carried through, at an
index, or results. -/
inductive Tally.Held (base : Nat) : Tally → Tally → List Pin → List Pin → Prop
  | collected (results : List Pin) :
    Held base (.collected (results.map Pin.left).reverse) (.collected (results.map Pin.right).reverse) [] results
  | carried (name : Text) (value : Pin) :
    Held base (.carried name base value.left) (.carried name base value.right) [value] []

/-- The scope of a loop. -/
def Scope.looping (Γ : Scope) (carry : List Pin) (iter : Pin) (state results : List Pin) : Scope :=
  ⟨Γ.pins ++ (carry ++ iter :: (state ++ results)), Γ.frames⟩

/-- Jobs that twins may ask for, and what these end with. -/
inductive Ready : Job → Machine → Job → Machine → Post Ref Ref → Prop
  | eval {Γ : Scope} {ρ : Pairing} {m n : Machine} {env : FrameId} (h : Twins Γ ρ m n) (henv : Γ.Env env)
    (e : Expr) : Ready (.eval env e) m (.eval env e) n (Keeps Γ fun σ => σ)
  | apply {Γ : Scope} {ρ : Pairing} {m n : Machine} {fn fn' : Ref} {args args' : List Ref}
    (h : Twins Γ ρ m n) (hfn : ρ fn fn') (hargs : List.Forall₂ ρ args args') :
    Ready (.apply fn args) m (.apply fn' args') n (Keeps Γ fun σ => σ)
  | pull {Γ : Scope} {ρ : Pairing} {m n : Machine} {loop : Loop} {f : Function} {carry results : List Pin}
    {iter state : Pin} {tally tally' : Tally} (hclosed : Γ.Closed) (henv : Γ.Env loop.env)
    (h : Twins (Γ.looping carry iter [state] results) ρ m n) (hiter : iter.leftObject = .function f)
    (htally : Tally.Held Γ.pins.length tally tally' carry results) :
    Ready (.pull loop f (Γ.pins.length + carry.length + 1) state.left tally) m
      (.pull loop f (Γ.pins.length + carry.length + 1) state.right tally') n (Grows Γ fun _ σ => σ)

/-- Two evaluations that are done alike, or ask for the same job and go on alike. -/
inductive Tie {α β : Type} (Q : Post α β) : Step α → Step β → Prop
  | done {a : α} {m : Machine} {b : β} {n : Machine} (h : Q a m b n) : Tie Q (.done a m) (.done b n)
  | call {job job' : Job} {m n : Machine} {R : Post Ref Ref} {k : Ref → Machine → Step α}
    {k' : Ref → Machine → Step β} (hready : Ready job m job' n R)
    (hk : ∀ r m' s n', R r m' s n' → Tie Q (k r m') (k' s n')) :
    Tie Q (.call job m k) (.call job' n k')

namespace Tie

variable {α β γ δ : Type} {Q : Post γ δ} {R : Post α β}

theorem bind {x : Step α} {y : Step β} {f : α → Machine → Step γ} {g : β → Machine → Step δ}
    (hx : Tie R x y) (hf : ∀ a m b n, R a m b n → Tie Q (f a m) (g b n)) :
    Tie Q (x.bind f) (y.bind g) := by
  induction hx with
  | done h => exact hf _ _ _ _ h
  | call hready _ ih => exact .call hready fun r m s n hr => ih r m s n hr

theorem mono {S : Post α β} {x : Step α} {y : Step β} (hx : Tie R x y)
    (hRS : ∀ a m b n, R a m b n → S a m b n) : Tie S x y := by
  induction hx with
  | done h => exact .done (hRS _ _ _ _ h)
  | call hready _ ih => exact .call hready ih

end Tie

namespace Eval

variable {α β γ δ : Type} {Γ Γ' : Scope} {ρ : Pairing} {m n : Machine}

/-- Two evaluations, each on its machine, are tied. -/
def Ties (Q : Post α β) (x : Eval α) (m : Machine) (y : Eval β) (n : Machine) : Prop := Tie Q (x m) (y n)

namespace Ties

variable {Q : Post γ δ} {R : Post α β} {x : Eval α} {y : Eval β} {f : α → Eval γ} {g : β → Eval δ}

theorem bind (hx : Ties R x m y n) (hf : ∀ a m' b n', R a m' b n' → Ties Q (f a) m' (g b) n') :
    Ties Q (x >>= f) m (y >>= g) n :=
  Tie.bind hx hf

theorem mono {S : Post α β} (hx : Ties R x m y n) (hRS : ∀ a m' b n', R a m' b n' → S a m' b n') :
    Ties S x m y n :=
  Tie.mono hx hRS

theorem pure {a : α} {b : β} (h : R a m b n) : Ties R (Pure.pure a) m (Pure.pure b) n := .done h

/-- An action that asks for no job. -/
theorem act {x : Act α} {y : Act β} (hx : Act.Meets R x m y n) : Ties R (liftM x) m (liftM y) n := .done hx

/-- After an action that asks for no job. -/
theorem lift {x : Act α} {y : Act β} (hx : Act.Meets R x m y n)
    (hf : ∀ a m' b n', R a m' b n' → Ties Q (f a) m' (g b) n') :
    Ties Q (liftM x >>= f) m (liftM y >>= g) n :=
  bind (act hx) hf

theorem stays {x : Act α} {g : α → Eval δ} (hx : Act.Meets (Stays Γ ρ) x m x n)
    (hf : ∀ a m' n', Twins Γ ρ m' n' → Ties Q (f a) m' (g a) n') :
    Ties Q (liftM x >>= f) m (liftM x >>= g) n := by
  refine lift hx ?_
  rintro a m' _ n' ⟨rfl, h⟩
  exact hf a m' n' h

theorem object {f : Object → Eval γ} {g : Object → Eval δ} (h : Twins Γ ρ m n) {r s : Ref} (hr : ρ r s)
    (hf : ∀ o p, m.heap.get? r = some o → n.heap.get? s = some p → o.Agree ρ p → Ties Q (f o) m (g p) n) :
    Ties Q (liftM (Act.object r) >>= f) m (liftM (Act.object s) >>= g) n :=
  hf _ _ (h.get?_object hr).1 (h.get?_object hr).2 (h.object hr)

theorem mark {f : Nat → Eval γ} {g : Nat → Eval δ} (h : Twins Γ ρ m n)
    (hf : Ties Q (f Γ.pins.length) m (g Γ.pins.length) n) :
    Ties Q (liftM Act.pinMark >>= f) m (liftM Act.pinMark >>= g) n := by
  have hf' : Ties Q (f m.pins.size) m (g n.pins.size) n := by
    rw [h.pins.size_eq.1, h.pins.size_eq.2]
    exact hf
  exact hf'

theorem get {f : Machine → Eval γ} {g : Machine → Eval δ} (hf : Ties Q (f m) m (g n) n) :
    Ties Q (getThe Machine >>= f) m (getThe Machine >>= g) n :=
  hf

theorem request {job job' : Job} {S : Post Ref Ref} (hready : Ready job m job' n S) :
    Ties S (Eval.request job) m (Eval.request job') n :=
  .call hready fun _ _ _ _ hr => .done hr

/-- What holds from a larger scope on holds from the smaller one. -/
theorem widen {V : Scope → Pairing → α → β → Prop} (hbelow : Γ.Below Γ') (hx : Ties (Grows Γ' V) x m y n) :
    Ties (Grows Γ V) x m y n := by
  refine hx.mono ?_
  rintro a m' b n' ⟨Γ'', σ, hbelow', h, hab⟩
  exact ⟨Γ'', σ, hbelow.trans hbelow', h, hab⟩

/-- An evaluation that keeps its scope. -/
theorem grows {V : Pairing → α → β → Prop} (hx : Ties (Keeps Γ V) x m y n) :
    Ties (Grows Γ fun _ => V) x m y n :=
  hx.mono fun _ _ _ _ => Act.grows_of_keeps

end Ties

end Eval

end TinyScript
