import TinyScript.Proofs.Twin.Run

/-!
# Evaluations that come to an end

`Step.Halts room Q` says that an evaluation ends, and ends as `Q` says, with never more than `room` jobs under way at
once. With a large enough budget it runs to its end in a process whose stack has that much room (`Step.Halts.run`), and
it would have the same end without any bound (`Step.run_of_runWithin`). `Eval.Halts room P` is the same for programs
that are begun on any machine with `P`, and that keep `P`.
-/

namespace TinyScript

namespace Step

variable {α β : Type}

/-! ## The bounded stack -/

/-- A run that the stack had room for is a run. -/
theorem exec_of_execWithin {budget room : Nat} {x : Step Ref} {stack : List (Ref → Machine → Step Ref)}
    {a : Ref × Machine} (h : x.execWithin budget room stack = .ok a) : x.exec budget stack = some a := by
  induction budget generalizing room x stack with
  | zero => cases h
  | succ budget ih =>
    cases x with
    | done r m =>
      cases stack with
      | nil =>
        cases h
        rfl
      | cons k rest => exact ih h
    | call job m k =>
      cases room with
      | zero => cases h
      | succ room => exact ih h

theorem run_of_runWithin {budget room : Nat} {x : Step α} {a : α × Machine} (h : x.runWithin budget room = .ok a) :
    x.run budget = some a := by
  induction x with
  | done b m =>
    cases h
    rfl
  | call job m k ih =>
    cases room with
    | zero => cases h
    | succ room =>
      rw [runWithin] at h
      rw [run]
      cases hexec : (Eval.body job m).execWithin budget room [] with
      | error e =>
        rw [hexec] at h
        cases h
      | ok b =>
        rw [hexec] at h
        rw [exec_of_execWithin hexec]
        exact ih b.1 b.2 h

/-! ## Coming to an end -/

/-- The evaluation ends, and ends as `Q` says, with at most `room` jobs under way at once. -/
inductive Halts : {α : Type} → Nat → (α → Machine → Prop) → Step α → Prop
  | done {α : Type} {room : Nat} {Q : α → Machine → Prop} {a : α} {m : Machine} (h : Q a m) : Halts room Q (.done a m)
  | call {α : Type} {room : Nat} {Q : α → Machine → Prop} {R : Ref → Machine → Prop} {job : Job} {m : Machine}
    {k : Ref → Machine → Step α} (hbody : Halts room R (Eval.body job m))
    (hk : ∀ r m', R r m' → Halts (room + 1) Q (k r m')) : Halts (room + 1) Q (.call job m k)

theorem bind_done (x : Step α) : x.bind .done = x := by
  induction x with
  | done a m => rfl
  | call job m k ih =>
    rw [Step.bind]
    congr
    funext r m'
    exact ih r m'

namespace Halts

variable {room : Nat} {Q : α → Machine → Prop} {x : Step α}

theorem bind {R : β → Machine → Prop} {f : α → Machine → Step β} (hx : x.Halts room Q)
    (hf : ∀ a m, Q a m → (f a m).Halts room R) : (x.bind f).Halts room R := by
  induction hx generalizing β with
  | done h => exact hf _ _ h
  | call hbody _ _ ih => exact .call hbody fun r m hr => ih r m hr hf

theorem mono {R : α → Machine → Prop} (hx : x.Halts room Q) (hQR : ∀ a m, Q a m → R a m) : x.Halts room R := by
  rw [← x.bind_done]
  exact hx.bind fun a m h => .done (hQR a m h)

/-- More room does no harm. -/
theorem within {room' : Nat} (hx : x.Halts room Q) (hroom : room ≤ room') : x.Halts room' Q := by
  induction hx generalizing room' with
  | done h => exact .done h
  | call _ _ ihbody ihk =>
    obtain ⟨left, rfl⟩ : ∃ left, room' = left + 1 := ⟨room' - 1, by omega⟩
    exact .call (ihbody (Nat.le_of_succ_le_succ hroom)) fun r m hr => ihk r m hr hroom

/-- An evaluation that ends takes the same number of steps, whatever is done with its result. -/
theorem exec (hx : x.Halts room Q) : ∃ a m, Q a m ∧ ∃ n, ∀ (f : α → Machine → Step Ref) (budget extra : Nat)
    (stack : List (Ref → Machine → Step Ref)),
    (x.bind f).execWithin (n + budget) (room + extra) stack = (f a m).execWithin budget (room + extra) stack := by
  induction hx with
  | @done _ _ _ a m h => exact ⟨a, m, h, 0, fun f budget extra stack => by rw [Nat.zero_add]; rfl⟩
  | @call _ room _ _ job m k _ _ ihbody ihk =>
    obtain ⟨r, m₁, hr, n₁, hbody⟩ := ihbody
    obtain ⟨a, m₂, ha, n₂, hk⟩ := ihk r m₁ hr
    -- one step to begin the job, and one to take up its result
    refine ⟨a, m₂, ha, n₁ + (n₂ + 1) + 1, fun f budget extra stack => ?_⟩
    let resume : Ref → Machine → Step Ref := fun r m => (k r m).bind f
    rw [Nat.add_right_comm room 1 extra]
    calc ((Step.call job m k).bind f).execWithin (n₁ + (n₂ + 1) + 1 + budget) (room + extra + 1) stack
      _ = (Eval.body job m).execWithin (n₁ + (n₂ + budget + 1)) (room + extra) (resume :: stack) := by
        rw [show n₁ + (n₂ + 1) + 1 + budget = n₁ + (n₂ + budget + 1) + 1 by omega]
        rfl
      _ = (Step.done r m₁).execWithin (n₂ + budget + 1) (room + extra) (resume :: stack) := by
        rw [← hbody .done, bind_done]
      _ = ((k r m₁).bind f).execWithin (n₂ + budget) (room + extra + 1) stack := rfl
      _ = (f a m₂).execWithin budget (room + extra + 1) stack := by
        rw [Nat.add_right_comm room extra 1]
        exact hk f budget extra stack

/-- An evaluation that ends runs to its end with a large enough budget, if the stack has the room. -/
theorem run (hx : x.Halts room Q) : ∃ a m, Q a m ∧
    ∃ enough, ∀ extra more, x.runWithin (enough + extra) (room + more) = .ok (a, m) := by
  induction hx with
  | @done _ _ _ a m h => exact ⟨a, m, h, 0, fun _ _ => rfl⟩
  | @call _ room _ _ job m k hbody _ _ ihk =>
    obtain ⟨r, m₁, hr, n, hexec⟩ := hbody.exec
    obtain ⟨a, m₂, ha, n₂, hk⟩ := ihk r m₁ hr
    refine ⟨a, m₂, ha, n + (n₂ + 1), fun extra more => ?_⟩
    have hjob : (Eval.body job m).execWithin (n + (n₂ + 1) + extra) (room + more) [] = .ok (r, m₁) := by
      rw [← (Eval.body job m).bind_done, Nat.add_assoc, hexec .done, Nat.add_right_comm]
      rfl
    have hrest := hk (n + 1 + extra) more
    rw [show n₂ + (n + 1 + extra) = n + (n₂ + 1) + extra by omega, Nat.add_right_comm room 1 more] at hrest
    rw [Nat.add_right_comm room 1 more, Step.runWithin, hjob]
    exact hrest

/-- After an action with a known outcome. -/
theorem lift {m m' : Machine} {y : Act α} {a : α} {f : α → Eval β} {Q : β → Machine → Prop}
    (hrun : y.run m = (a, m')) (hf : (f a m').Halts room Q) : ((liftM y >>= f : Eval β) m).Halts room Q := by
  obtain ⟨rfl, rfl⟩ : (y.run m).1 = a ∧ (y.run m).2 = m' := by simp [hrun]
  exact hf

/-- After looking at the machine. -/
theorem get {m : Machine} {f : Machine → Eval β} {Q : β → Machine → Prop} (hf : (f m m).Halts room Q) :
    ((getThe Machine >>= f : Eval β) m).Halts room Q :=
  hf

end Halts

end Step

namespace Eval

variable {α β : Type} {room : Nat} {P : Machine → Prop}

/-- Begun on a machine with `P`, the program ends on one, with a result and a machine that `V` allows, and with at
most `room` jobs under way at once. -/
def Halts (room : Nat) (P : Machine → Prop) (x : Eval α) (V : α → Machine → Prop := fun _ _ => True) : Prop :=
  ∀ m, P m → (x m).Halts room fun a m' => P m' ∧ V a m'

namespace Halts

variable {x : Eval α} {f : α → Eval β} {V : α → Machine → Prop} {W : β → Machine → Prop}

theorem bind (hx : x.Halts room P V) (hf : ∀ a, (f a).Halts room P W) : (x >>= f).Halts room P W :=
  fun m hm => (hx m hm).bind fun a m' h => hf a m' h.1

theorem pure (a : α) : Halts room P (Pure.pure a) := fun _ hm => .done ⟨hm, trivial⟩

/-- An action that asks for no job. -/
theorem act {y : Act α} (hy : ∀ m, P m → P (y.run m).2) : Halts room P (liftM y) := fun m hm => .done ⟨hy m hm, trivial⟩

/-- After an action that asks for no job. -/
theorem lift {y : Act α} (hy : ∀ m, P m → P (y.run m).2) (hf : ∀ a, (f a).Halts room P W) :
    Halts room P (liftM y >>= f) W :=
  bind (act hy) hf

theorem get {f : Machine → Eval β} (hf : ∀ m, P m → (f m m).Halts room fun b m' => P m' ∧ W b m') :
    Halts room P (getThe Machine >>= f) W :=
  hf

/-- More room does no harm. -/
theorem within {room' : Nat} (hx : x.Halts room P V) (hroom : room ≤ room') : x.Halts room' P V :=
  fun m hm => (hx m hm).within hroom

/-- A job that ends. It takes room itself. -/
theorem request {job : Job} {V : Ref → Machine → Prop} (hbody : (body job).Halts room P V) :
    (request job).Halts (room + 1) P V :=
  fun m hm => .call (hbody m hm) fun _ _ h => .done h

end Halts

end Eval

end TinyScript
