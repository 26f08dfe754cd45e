import TinyScript.Console.Run
import TinyScript.Proofs.Evolution.Mutation

/-!
# Two ways to run a program

A host runs the text of a program, and the console runs a program that it has parsed. They decide differently whether
there is a `main`: a host by what is bound in the global frame, the console by what the program defines. So they agree
on a program that defines `main`, and on any program as long as no `main` was defined before, and on no other
(`runProgram_runText`).
-/

namespace TinyScript

open Syntax (Program)

/-! ## Running one evaluation after another -/

theorem Step.run_bind {α β : Type} (x : Step α) (f : α → Machine → Step β) (budget : Nat) :
    (x.bind f).run budget = (x.run budget).bind fun a => (f a.1 a.2).run budget := by
  induction x with
  | done a m => rfl
  | call job m k ih =>
    rw [Step.bind, Step.run, Step.run]
    cases (Eval.body job m).exec budget [] with
    | none => rfl
    | some a => exact ih a.1 a.2

namespace Eval

variable {α β : Type} {m m₁ : Machine} {budget : Nat}

theorem run_bind (x : Eval α) (f : α → Eval β) :
    (x >>= f).run budget m = (x.run budget m).bind fun a => (f a.1).run budget a.2 :=
  Step.run_bind (x m) f budget

theorem run_lift_bind {y : Act α} {a : α} (hy : y.run m = (a, m₁)) (f : α → Eval β) :
    (liftM y >>= f : Eval β).run budget m = (f a).run budget m₁ := by
  obtain ⟨rfl, rfl⟩ : (y.run m).1 = a ∧ (y.run m).2 = m₁ := by simp [hy]
  rfl

theorem run_get_bind (f : Machine → Eval β) : (getThe Machine >>= f).run budget m = (f m).run budget m := rfl

end Eval

namespace Console

/-- What was printed and noted is told before anything else is done. -/
theorem perform_run {α : Type} (x : Eval α) (events : List Event) (budget : Nat) (m : Machine) :
    ((perform x).run events).run budget m
      = (x.run budget m).map fun a => ((a.1, pending a.2 ++ events), drained a.2) := by
  show (((x m).bind fun a m => .done (a, events) m).bind fun a m => _).run budget = _
  rw [Step.run_bind, Step.run_bind, Option.bind_assoc, Option.map_eq_bind]
  rfl

/-- What the console makes of the outcome of a program. -/
def showing (c : Config) (events : List Event) :
    Except RunError Ref × Machine → (Except Failure Unit × List Event) × Machine
  | (.error (.parse e), m) => ((.error (.parse e), pending m ++ events), drained m)
  | (.error .noMain, m) => ((.error .noMain, pending m ++ events), drained m)
  | (.ok r, m) =>
    ((match m.object r with
      | .error message => .error (.main message)
      | _ => .ok (), .shown (m.render c.style r ++ "\n") :: (pending m ++ events)), drained m)

section

variable {m : Machine} {p : Program} (budget : Nat)

/-- A program in one text runs `main` if a global has that name afterwards. -/
theorem runText_run {src : Text} (hp : Syntax.parseProgram src = .ok p) : (Eval.runText src).run budget m
    = if ("main" : Text) ∈ ((Act.defineAll p).run m).2.globals
      then (Eval.runMain.run budget ((Act.defineAll p).run m).2).map fun a => (.ok a.1, a.2)
      else some (.error .noMain, ((Act.defineAll p).run m).2) := by
  have hload : (Act.loadText src).run m = (.ok (), ((Act.defineAll p).run m).2) := by
    rw [Act.loadText, hp]
    rfl
  generalize ((Act.defineAll p).run m).2 = m₁ at hload ⊢
  rw [Eval.runText, Eval.run_lift_bind hload]
  dsimp only
  rw [Eval.run_get_bind]
  have hglobal : ("main" : Text) ∈ m₁.globals ↔ _ := Machine.mem_globals_iff
  cases hmain : m₁.frames.resolveLocal? Frames.global "main" with
  | none =>
    rw [if_neg fun h => hglobal.1 h hmain]
    rfl
  | some r =>
    rw [if_pos (hglobal.2 (hmain ▸ Option.some_ne_none r)), Option.map_eq_bind]
    exact Eval.run_bind _ _

/-- Something is performed, and then the rest. -/
theorem run_perform_bind {α β : Type} (x : Eval α) (f : α → ExceptT Failure Screen β) (events : List Event) :
    ((liftM (perform x) >>= f : ExceptT Failure Screen β).run.run events).run budget m
      = (x.run budget m).bind fun a => ((f a.1).run.run (pending a.2 ++ events)).run budget (drained a.2) := by
  have hlift : ((liftM (perform x) : ExceptT Failure Screen α).run.run events).run budget m
      = (((perform x).run events).run budget m).bind fun a => some ((.ok a.1.1, a.1.2), a.2) := Eval.run_bind _ _
  rw [ExceptT.run_bind, StateT.run_bind, Eval.run_bind, hlift, perform_run]
  cases x.run budget m <;> rfl

/-- A value is shown, and then the rest. -/
theorem run_show_bind {β : Type} (c : Config) (r : Ref) (k : Machine → ExceptT Failure Screen β) (events : List Event) :
    ((do showValue c r; k (← getThe Machine) : ExceptT Failure Screen β).run.run events).run budget m
      = ((k m).run.run (.shown (m.render c.style r ++ "\n") :: events)).run budget m :=
  rfl

/-- A program in a file runs `main` only if it defines it. -/
theorem runProgram_run {c : Config} (hc : c.dumpTree = false) (events : List Event) :
    ((runProgram c p).run.run events).run budget m
      = if ∃ d ∈ p.defs, d.name = "main"
        then (Eval.runMain.run budget (drained ((Act.defineAll p).run m).2)).map fun a =>
          showing c (pending ((Act.defineAll p).run m).2 ++ events) (.ok a.1, a.2)
        else some ((.error .noMain, pending ((Act.defineAll p).run m).2 ++ events),
          drained ((Act.defineAll p).run m).2) := by
  have hfind : (p.find? "main").isNone = true ↔ ¬∃ d ∈ p.defs, d.name = "main" := by
    simp [Program.find?]
  rw [runProgram, hc, if_neg Bool.false_ne_true]
  have hdefine : (liftM (Act.defineAll p) : Eval Unit).run budget m = some ((), ((Act.defineAll p).run m).2) := rfl
  refine (run_perform_bind budget _ _ events).trans ?_
  rw [hdefine, Option.bind_some]
  generalize ((Act.defineAll p).run m).2 = m₁
  by_cases hmain : ∃ d ∈ p.defs, d.name = "main"
  · rw [if_pos hmain, if_neg (fun hnone => hfind.1 hnone hmain)]
    refine (run_perform_bind budget _ _ _).trans ?_
    rw [Option.map_eq_bind]
    refine congrArg _ (funext fun a => ?_)
    refine (run_show_bind budget c a.1 _ _).trans ?_
    rw [Machine.render_congr (show (drained a.2).heap = a.2.heap from rfl), Function.comp, showing,
      show (drained a.2).object a.1 = a.2.object a.1 from rfl]
    cases a.2.object a.1 <;> rfl
  · rw [if_neg hmain, if_pos (hfind.2 hmain)]
    rfl

end

/-- Definitions print nothing. -/
theorem drained_defineAll {m : Machine} (hm : drained m = m) (p : Program) :
    drained ((Act.defineAll p).run m).2 = ((Act.defineAll p).run m).2 := by
  refine Act.defineAll_run (P := fun _ m' => drained m' = m') ?_ fun _ d _ m' hm' => ?_
  · exact congrArg (fun m' => { m' with program := some ⟨((m.program.map Program.defs).getD []) ++ p.defs⟩ }) hm
  · obtain ⟨heap, hrun, -⟩ := m'.define_run d
    rw [hrun]
    exact congrArg (fun k => { k with
      heap := heap, frames := m'.frames.set Frames.global d.name (m'.heap.alloc d.object true).2 }) hm'

/-- A program that was run has a `main`. -/
theorem showing_ok_ne_noMain (c : Config) (events : List Event) (r : Ref) (m : Machine) :
    (showing c events (.ok r, m)).1.1 ≠ .error .noMain := by
  rw [showing]
  cases m.object r <;> simp

/-- **Two ways to run a program.** On a machine that has shown all its output, and is sturdy as all are that a
host comes to (`Machine.Reached.sturdy`), a host finds no `main` if the program defines none and none was bound in
the global frame before, but the console finds none whenever the program defines none. The console makes of a run
what `showing` says, with the same machine in the end, exactly if the program defines `main` or none was bound
before. -/
theorem runProgram_runText {c : Config} (hc : c.dumpTree = false) {m : Machine} (hm : m.Sturdy)
    (hquiet : drained m = m) {src : Text} {p : Program} (hp : Syntax.parseProgram src = .ok p) (events : List Event)
    (budget : Nat) :
    let hosted := (Eval.runText src).run budget m
    let shown := ((runProgram c p).run.run events).run budget m
    ((∃ m', hosted = some (.error .noMain, m')) ↔ ("main" : Text) ∉ m.globals ∧ ¬∃ d ∈ p.defs, d.name = "main") ∧
      ((∃ events' m', shown = some ((.error .noMain, events'), m')) ↔ ¬∃ d ∈ p.defs, d.name = "main") ∧
      (shown = hosted.map (showing c events) ↔ ("main" : Text) ∉ m.globals ∨ ∃ d ∈ p.defs, d.name = "main") := by
  intro hosted shown
  have hglobals : ("main" : Text) ∈ _ ↔ _ := hm.mem_globals_defineAll (p := p)
  have hquiet₁ := drained_defineAll hquiet p
  have hhosted : hosted = _ := runText_run budget hp
  have hshown : shown = _ := runProgram_run budget hc events
  generalize ((Act.defineAll p).run m).2 = m₁ at hglobals hquiet₁ hhosted hshown
  have hpending : pending m₁ = [] := by
    rw [← hquiet₁]
    rfl
  rw [hquiet₁, hpending, List.nil_append] at hshown
  have hran {x : Option (Ref × Machine)} {m' : Machine} :
      (x.map fun a => (Except.ok a.1, a.2)) ≠ some (.error RunError.noMain, m') := by cases x <;> simp
  have hran' {x : Option (Ref × Machine)} {events' : List Event} {m' : Machine} :
      (x.map fun a => showing c events (.ok a.1, a.2)) ≠ some ((.error .noMain, events'), m') := by
    intro heq
    obtain ⟨a, -, ha⟩ := Option.map_eq_some_iff.1 heq
    exact showing_ok_ne_noMain c events a.1 a.2 (by rw [ha])
  by_cases hmain : ∃ d ∈ p.defs, d.name = "main"
  · rw [if_pos (hglobals.2 (.inr hmain))] at hhosted
    rw [if_pos hmain] at hshown
    rw [hhosted, hshown, Option.map_map]
    refine ⟨iff_of_false ?_ fun h => h.2 hmain, iff_of_false ?_ fun h => h hmain, iff_of_true rfl (.inr hmain)⟩
    · rintro ⟨m', heq⟩
      exact hran heq
    · rintro ⟨events', m', heq⟩
      exact hran' heq
  · rw [if_neg hmain] at hshown
    by_cases hbefore : ("main" : Text) ∈ m.globals
    · rw [if_pos (hglobals.2 (.inl hbefore))] at hhosted
      rw [hhosted, hshown, Option.map_map]
      refine ⟨iff_of_false ?_ fun h => h.1 hbefore, iff_of_true ⟨_, _, rfl⟩ hmain, iff_of_false ?_ ?_⟩
      · rintro ⟨m', heq⟩
        exact hran heq
      · exact fun heq => hran' heq.symm
      · exact fun h => h.elim (absurd hbefore) hmain
    · rw [if_neg fun h => (hglobals.1 h).elim hbefore hmain] at hhosted
      rw [hhosted, hshown]
      refine ⟨iff_of_true ⟨_, rfl⟩ ⟨hbefore, hmain⟩, iff_of_true ⟨_, _, rfl⟩ hmain, iff_of_true ?_ (.inl hbefore)⟩
      rw [Option.map_some, showing, hpending, hquiet₁]
      rfl

/-- A machine on which a `main` was defined. -/
def earlier : Machine := ((Eval.define ⟨"main", [], .lit .number "1"⟩).run {}).2

/-- A host runs the `main` of before, and the console finds none. -/
theorem runProgram_runText_earlier :
    earlier.Sturdy ∧ drained earlier = earlier ∧
      Syntax.parseProgram "def helper() = 2" = .ok ⟨[⟨"helper", [], .lit .number "2"⟩]⟩ ∧
      ∀ budget, (¬∃ m', (Eval.runText "def helper() = 2").run budget earlier = some (.error .noMain, m')) ∧
        ∃ events m', ((runProgram {} ⟨[⟨"helper", [], .lit .number "2"⟩]⟩).run.run []).run budget earlier
          = some ((.error .noMain, events), m') := by
  have hsturdy : earlier.Sturdy := Machine.Sturdy.define ⟨Heap.threaded_empty.wellFormed, by decide⟩ _
  have hbound : ("main" : Text) ∈ earlier.globals := by decide
  have hparse : Syntax.parseProgram "def helper() = 2" = .ok ⟨[⟨"helper", [], .lit .number "2"⟩]⟩ := by cbv
  refine ⟨hsturdy, rfl, hparse, fun budget => ?_⟩
  have hruns := runProgram_runText (c := {}) rfl hsturdy rfl hparse [] budget
  exact ⟨fun hnone => (hruns.1.1 hnone).1 hbound, hruns.2.1.2 (by decide)⟩

end Console

end TinyScript
