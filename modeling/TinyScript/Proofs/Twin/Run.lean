import TinyScript.Machine.Program
import TinyScript.Proofs.Twin.Node

/-!
# Runs of twins

Since every job ends as it should (`Eval.ties_body`), twins that run the same evaluation run in lockstep: after the same
number of steps both are done, or neither is (`Tie.exec`, `Tie.run`). In none of the machines on the way does anything
dangle, and if both collect whenever they safely can, they do so equally often (`Tie.intact_trace`).
-/

namespace TinyScript

variable {budget : Nat} {m : Machine}

/-! ## Steps -/

namespace Step

variable {α : Type}

/-- The machine in which an evaluation stands. -/
def machine : Step α → Machine
  | done _ m => m
  | call _ m _ => m

/-- The machine after a number of steps, a job begun or ended being a step, or at the end. -/
def trace : Nat → Step Ref → List (Ref → Machine → Step Ref) → Machine
  | 0, x, _ => x.machine
  | _ + 1, done _ m, [] => m
  | k + 1, done r m, resume :: rest => (resume r m).trace k rest
  | k + 1, call job m resume, rest => (Eval.body job m).trace k (resume :: rest)

theorem trace_done_nil (k : Nat) (r : Ref) (m : Machine) : (done r m).trace k [] = m := by
  cases k <;> rfl

/-- A run that ends passes on to what is to be done with its result. -/
theorem exists_trace_of_exec {x : Step Ref} {inner : List (Ref → Machine → Step Ref)}
    {r : Ref} (h : x.exec budget inner = some (r, m)) (outer : List (Ref → Machine → Step Ref)) :
    ∃ k, ∀ j, x.trace (k + j) (inner ++ outer) = (done r m).trace j outer := by
  induction budget generalizing x inner with
  | zero => cases h
  | succ budget ih =>
    cases x with
    | done r' m' =>
      cases inner with
      | nil =>
        cases h
        exact ⟨0, fun j => by rw [Nat.zero_add]; rfl⟩
      | cons resume inner =>
        obtain ⟨k, hk⟩ := ih h
        refine ⟨k + 1, fun j => ?_⟩
        rw [Nat.add_right_comm]
        exact hk j
    | call job m' resume =>
      obtain ⟨k, hk⟩ := ih h
      refine ⟨k + 1, fun j => ?_⟩
      rw [Nat.add_right_comm]
      exact hk j

/-- A run that ends comes to its last machine. -/
theorem exists_trace_of_run {x : Step Ref} {r : Ref}
    (h : x.run budget = some (r, m)) : ∃ k, ∀ j, x.trace (k + j) [] = m := by
  induction x with
  | done r' m' =>
    cases h
    exact ⟨0, fun j => trace_done_nil _ r m⟩
  | call job m' resume ih =>
    rw [run] at h
    cases hexec : (Eval.body job m').exec budget [] with
    | none =>
      rw [hexec] at h
      cases h
    | some a =>
      rw [hexec] at h
      obtain ⟨k, hk⟩ := exists_trace_of_exec hexec [resume]
      obtain ⟨k', hk'⟩ := ih a.1 a.2 h
      -- one step to begin the job, `k` to do it, and one to take up its result
      refine ⟨k + (k' + 1) + 1, fun j => ?_⟩
      calc (call job m' resume).trace (k + (k' + 1) + 1 + j) []
        _ = (Eval.body job m').trace (k + (k' + j + 1)) [resume] := by
          rw [show k + (k' + 1) + 1 + j = k + (k' + j + 1) + 1 by omega, trace]
        _ = (resume a.1 a.2).trace (k' + j) [] := hk _
        _ = m := hk' j

theorem exec_add {x : Step Ref} {stack : List (Ref → Machine → Step Ref)} {a : Ref × Machine}
    (h : x.exec budget stack = some a) (extra : Nat) : x.exec (budget + extra) stack = some a := by
  induction budget generalizing x stack with
  | zero => cases h
  | succ budget ih =>
    rw [Nat.add_right_comm]
    cases x with
    | done r m =>
      cases stack with
      | nil => exact h
      | cons resume rest => exact ih h
    | call job m resume => exact ih h

/-- A larger budget gives the same result. -/
theorem run_add {x : Step α} {a : α × Machine} (h : x.run budget = some a) (extra : Nat) :
    x.run (budget + extra) = some a := by
  induction x with
  | done b m => exact h
  | call job m resume ih =>
    rw [run] at h ⊢
    cases hexec : (Eval.body job m).exec budget [] with
    | none =>
      rw [hexec] at h
      cases h
    | some b =>
      rw [hexec] at h
      rw [exec_add hexec extra]
      exact ih b.1 b.2 h

end Step

/-! ## Lockstep -/

/-- Nothing dangles in the machine, and the other has collected as often if both always do. -/
structure Machine.Intact (m n : Machine) : Prop where
  safe : m.moment.Safe
  inStep : m.InStep n

theorem Twins.intact {Γ : Scope} {ρ : Pairing} {n : Machine} (h : Twins Γ ρ m n) : m.Intact n :=
  ⟨h.safe, h.inStep⟩

/-- A postcondition under which nothing dangles. -/
def Post.Intact {α β : Type} (Q : Post α β) : Prop := ∀ {a m b n}, Q a m b n → m.Intact n

/-- Stacks of what is to be done, tied one by one: from what a job ends with to what the run ends with. -/
inductive Stacked (Q : Post Ref Ref) :
    Post Ref Ref → List (Ref → Machine → Step Ref) → List (Ref → Machine → Step Ref) → Prop
  | nil : Stacked Q Q [] []
  | cons {R S : Post Ref Ref} {k k' : Ref → Machine → Step Ref} {rest rest' : List (Ref → Machine → Step Ref)}
    (hk : ∀ r m s n, R r m s n → Tie S (k r m) (k' s n)) (hS : S.Intact) (hrest : Stacked Q S rest rest') :
    Stacked Q R (k :: rest) (k' :: rest')

/-- Two outcomes that a postcondition allows. -/
def Post.Outcome {α β : Type} (Q : Post α β) (x : α × Machine) (y : β × Machine) : Prop := Q x.1 x.2 y.1 y.2

theorem Ready.intact {job job' : Job} {n : Machine} {R : Post Ref Ref} (h : Ready job m job' n R) :
    m.Intact n ∧ R.Intact := by
  cases h with
  | eval h _ _ => exact ⟨h.intact, fun ⟨_, h', _⟩ => h'.intact⟩
  | apply h _ _ => exact ⟨h.intact, fun ⟨_, h', _⟩ => h'.intact⟩
  | pull _ _ h _ _ => exact ⟨h.intact, fun ⟨_, _, _, h', _⟩ => h'.intact⟩

namespace Tie

variable {α β : Type} {Q R : Post Ref Ref} {x y : Step Ref} {rest rest' : List (Ref → Machine → Step Ref)}

/-- Tied evaluations with tied stacks end with the same budget. -/
theorem exec (hx : Tie R x y) (hR : R.Intact) (hrest : Stacked Q R rest rest') (budget : Nat) :
    Option.Rel Q.Outcome (x.exec budget rest) (y.exec budget rest') := by
  induction budget generalizing x y rest rest' R with
  | zero => exact .none
  | succ budget ih =>
    cases hx with
    | done h =>
      cases hrest with
      | nil => exact .some h
      | cons hk hS hrest => exact ih (hk _ _ _ _ h) hS hrest
    | call hready hk =>
      -- what is to be done with the job's result goes onto the stacks
      exact ih (Eval.ties_body hready) hready.intact.2 (.cons hk hR hrest)

/-- Twins end the same evaluation with the same budget. -/
theorem run {Q : Post α β} {x : Step α} {y : Step β} (hx : Tie Q x y) (budget : Nat) :
    Option.Rel Q.Outcome (x.run budget) (y.run budget) := by
  induction hx with
  | done h => exact .some h
  | @call job job' m n R k k' hready _ ih =>
    have hexec := exec (Eval.ties_body hready) hready.intact.2 .nil budget
    rw [Step.run, Step.run]
    generalize (Eval.body job m).exec budget [] = a, (Eval.body job' n).exec budget [] = b at hexec
    cases hexec with
    | none => exact .none
    | some h => exact ih _ _ _ _ h

theorem intact_machine (hx : Tie R x y) (hR : R.Intact) : x.machine.Intact y.machine := by
  cases hx with
  | done h => exact hR h
  | call hready _ => exact hready.intact.1

/-- However many steps were made, nothing dangles, and the two are still in step. -/
theorem intact_trace (hx : Tie R x y) (hR : R.Intact) (hrest : Stacked Q R rest rest') (k : Nat) :
    (x.trace k rest).Intact (y.trace k rest') := by
  induction k generalizing x y rest rest' R with
  | zero => exact hx.intact_machine hR
  | succ k ih =>
    cases hx with
    | done h =>
      cases hrest with
      | nil => exact hR h
      | cons hk hS hrest => exact ih (hk _ _ _ _ h) hS hrest
    | call hready hk => exact ih (Eval.ties_body hready) hready.intact.2 (.cons hk hR hrest)

end Tie

end TinyScript
