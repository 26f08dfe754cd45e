import TinyScript.Proofs.Twin.Run

/-!
# What evaluations end with

`Step.Ensures S p Q` says that an evaluation ends as `Q` says, if each job that it asks for ends as `S` says. If then
every job ends as `S` says under the same assumption (`Outcomes.Sound`), all evaluations that run to an end do
(`Step.Ensures.run`). The induction is on the budget. Of evaluations that never end only this is said: the pacing is
`p` at every step (`Step.Ensures.pacing_trace`).
-/

namespace TinyScript

/-- What jobs may end with: the job, the machine it is begun on, its result and the machine then. -/
abbrev Outcomes := Job → Machine → Ref → Machine → Prop

/-- The evaluation ends as `Q` says, if jobs end as `S` says, and asks for jobs while the pacing is `p`. -/
inductive Step.Ensures {α : Type} (S : Outcomes) (p : Pacing) (Q : α → Machine → Prop) : Step α → Prop
  | done {a : α} {m : Machine} (h : Q a m) : Ensures S p Q (.done a m)
  | call {job : Job} {m : Machine} {k : Ref → Machine → Step α} (hp : m.pacing = p)
    (hk : ∀ r m', S job m r m' → Ensures S p Q (k r m')) : Ensures S p Q (.call job m k)

/-- Every job ends as it is said to, if the jobs that it asks for do, and keeps the pacing. -/
structure Outcomes.Sound (S : Outcomes) : Prop where
  body : ∀ job m, (Eval.body job m).Ensures S m.pacing (S job m)
  pacing : ∀ {job m r m'}, S job m r m' → m'.pacing = m.pacing

namespace Step.Ensures

variable {α β : Type} {S : Outcomes} {p : Pacing} {Q : β → Machine → Prop} {R : α → Machine → Prop}

theorem bind {x : Step α} {f : α → Machine → Step β} (hx : x.Ensures S p R)
    (hf : ∀ a m, R a m → (f a m).Ensures S p Q) : (x.bind f).Ensures S p Q := by
  induction hx with
  | done h => exact hf _ _ h
  | call hp _ ih => exact .call hp ih

theorem mono {R' : α → Machine → Prop} {x : Step α} (hx : x.Ensures S p R) (hR : ∀ a m, R a m → R' a m) :
    x.Ensures S p R' := by
  induction hx with
  | done h => exact .done (hR _ _ h)
  | call hp _ ih => exact .call hp ih

theorem all {ι : Type} [Nonempty ι] {Q : ι → α → Machine → Prop} {x : Step α} (hx : ∀ i, x.Ensures S p (Q i)) :
    x.Ensures S p fun a m => ∀ i, Q i a m := by
  induction x with
  | done a m =>
    refine .done fun i => ?_
    cases hx i with
    | done h => exact h
  | call job m k ih =>
    have hp : m.pacing = p := by
      cases hx (Classical.arbitrary ι) with
      | call hp _ => exact hp
    refine .call hp fun r m' hr => ih r m' fun i => ?_
    cases hx i with
    | call _ hk => exact hk r m' hr

/-- A stack takes every result that `R` allows to one that `Q` allows. -/
inductive Unwinds (S : Outcomes) (p : Pacing) (Q : Ref → Machine → Prop) :
    (Ref → Machine → Prop) → List (Ref → Machine → Step Ref) → Prop
  | nil : Unwinds S p Q Q []
  | cons {R R' : Ref → Machine → Prop} {k : Ref → Machine → Step Ref} {rest : List (Ref → Machine → Step Ref)}
    (hk : ∀ r m, R r m → (k r m).Ensures S p R') (hpace : ∀ r m, R' r m → m.pacing = p)
    (hrest : Unwinds S p Q R' rest) : Unwinds S p Q R (k :: rest)

section Stacks

variable {Q R : Ref → Machine → Prop} {x : Step Ref} {stack : List (Ref → Machine → Step Ref)}

theorem exec (hS : S.Sound) (hx : x.Ensures S p R) (hpace : ∀ r m, R r m → m.pacing = p)
    (hstack : Unwinds S p Q R stack) {budget : Nat} {r : Ref} {m : Machine}
    (h : x.exec budget stack = some (r, m)) : Q r m := by
  induction budget generalizing x stack R with
  | zero => cases h
  | succ budget ih =>
    cases hx with
    | done hR =>
      cases hstack with
      | nil =>
        cases h
        exact hR
      | cons hk hpace hrest => exact ih (hk _ _ hR) hpace hrest h
    | call hp hk =>
      subst hp
      exact ih (hS.body _ _) (fun _ _ => hS.pacing) (.cons hk hpace hstack) h

/-- The pacing is the same at every step. -/
theorem pacing_trace (hS : S.Sound) (hx : x.Ensures S p R) (hpace : ∀ r m, R r m → m.pacing = p)
    (hstack : Unwinds S p Q R stack) (k : Nat) : (x.trace k stack).pacing = p := by
  induction k generalizing x stack R with
  | zero =>
    cases hx with
    | done hR => exact hpace _ _ hR
    | call hp _ => exact hp
  | succ k ih =>
    cases hx with
    | done hR =>
      cases hstack with
      | nil => exact hpace _ _ hR
      | cons hk hpace hrest => exact ih (hk _ _ hR) hpace hrest
    | call hp hk =>
      subst hp
      exact ih (hS.body _ _) (fun _ _ => hS.pacing) (.cons hk hpace hstack)

end Stacks

/-- An evaluation that runs to an end has the result it should. -/
theorem run (hS : S.Sound) {x : Step α} (hx : x.Ensures S p R) {budget : Nat} {a : α} {m : Machine}
    (h : x.run budget = some (a, m)) : R a m := by
  induction hx with
  | done hR =>
    cases h
    exact hR
  | @call job m₀ k _ _ ih =>
    rw [Step.run] at h
    cases hexec : (Eval.body job m₀).exec budget [] with
    | none =>
      rw [hexec] at h
      cases h
    | some b =>
      rw [hexec] at h
      exact ih b.1 b.2 (exec hS (hS.body job m₀) (fun _ _ => hS.pacing) .nil hexec) h

end Step.Ensures

end TinyScript
