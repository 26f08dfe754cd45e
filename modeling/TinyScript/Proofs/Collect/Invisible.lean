import Mathlib
import TinyScript.Proofs.Twin.Program

/-!
# Collection is invisible

A program cannot tell when the machine collects. Whether it ends, what it prints, what it leaves in files
and what its result looks like are the same for a machine that collects before every allocation, one that
never collects, and one that collects from time to time, whatever schedule tells it when.
-/

namespace TinyScript

/-- What is seen of a program that has ended. -/
structure Shown where
  /-- Why it was not run, or its result in both styles. -/
  result : Except RunError (Text × Text)
  output : Text
  files : Host.Files

/-- What is seen of an outcome, on the machine that it leaves behind. -/
def shown (x : Except RunError Ref × Machine) : Shown where
  result := x.1.map fun r => (x.2.render .tagged r, x.2.render .plain r)
  output := x.2.output
  files := x.2.files

theorem Twins.output_eq {Γ : Scope} {ρ : Pairing} {m n : Machine} (h : Twins Γ ρ m n) :
    m.output = n.output := by
  have hprinted : m.printed = n.printed := congrArg Machine.Surroundings.printed h.surroundings
  rw [Machine.output, Machine.output, hprinted]

/-- Twins that end a program alike show the same. -/
theorem shown_eq_of_ends {Γ : Scope} {m n : Machine} {a b : Except RunError Ref}
    (h : Ends (Alike Γ) (Keeps Γ fun σ => σ) a m b n) : shown (a, m) = shown (b, n) := by
  match a, b, h with
  | .error e, .error _, ⟨rfl, ρ, h⟩ =>
    have hfiles : m.files = n.files := congrArg Machine.Surroundings.files h.surroundings
    simp only [shown, Except.map, h.output_eq, hfiles]
  | .ok r, .ok t, ⟨ρ, h, hr⟩ =>
    have hfiles : m.files = n.files := congrArg Machine.Surroundings.files h.surroundings
    simp only [shown, Except.map, h.render _ hr, h.output_eq, hfiles]

namespace Eval

/-- With the same budget a program ends under either pacing, or under neither. -/
theorem map_shown_run (s : Settings) (fs : Builtin.Group) (src : Text) (p q : Pacing) (budget : Nat) :
    ((runText src).run budget (s.machine p fs)).map shown
      = ((runText src).run budget (s.machine q fs)).map shown := by
  obtain ⟨ρ, h⟩ := s.alike_machine p q fs
  have hrun := Tie.run (ties_runText h src) budget
  rw [Eval.run, Eval.run]
  generalize (runText src (s.machine p fs)).run budget = a, (runText src (s.machine q fs)).run budget = b at hrun
  cases hrun with
  | none => rfl
  | some h => exact congrArg some (shown_eq_of_ends h)

/-- A program ends under one pacing exactly if it ends under another, and then the same is seen of it. -/
theorem shown_runText_pacing (s : Settings) (fs : Builtin.Group) (src : Text) (p q : Pacing) :
    ((∃ budget x, (runText src).run budget (s.machine p fs) = some x) ↔
      ∃ budget y, (runText src).run budget (s.machine q fs) = some y) ∧
    ∀ budget budget' x y, (runText src).run budget (s.machine p fs) = some x →
      (runText src).run budget' (s.machine q fs) = some y → shown x = shown y := by
  have hends {p q : Pacing} : (∃ budget x, (runText src).run budget (s.machine p fs) = some x) →
      ∃ budget y, (runText src).run budget (s.machine q fs) = some y := by
    rintro ⟨budget, x, hx⟩
    have hmap := map_shown_run s fs src p q budget
    rw [hx] at hmap
    obtain ⟨y, hy, -⟩ := Option.map_eq_some_iff.mp hmap.symm
    exact ⟨budget, y, hy⟩
  refine ⟨⟨hends, hends⟩, ?_⟩
  intro budget budget' x y hx hy
  -- a budget that is enough for both
  have hx' : (runText src).run (budget + budget') (s.machine p fs) = some x := Step.run_add hx budget'
  have hy' : (runText src).run (budget + budget') (s.machine q fs) = some y := by
    rw [Nat.add_comm]
    exact Step.run_add hy budget
  have hmap := map_shown_run s fs src p q (budget + budget')
  rw [hx', hy'] at hmap
  exact Option.some.inj hmap

-- what is freed does differ
set_option maxRecDepth 20000 in
example :
    ((runText "def main() = [[] == 0]").run 100 (Settings.machine {} .always [])).map
        (fun x => x.2.totals.collected) = some 2 ∧
      ((runText "def main() = [[] == 0]").run 100 (Settings.machine {} .never [])).map
        (fun x => x.2.totals.collected) = some 0 := by
  constructor <;> cbv

end Eval

end TinyScript
