import TinyScript.Proofs.Course.Rebinding
import TinyScript.Proofs.Termination.Displays

/-!
# Programs that are too much for the stack

A call takes as many jobs as the body of the function is high, so a function that calls itself below `n` negations has
`n + 1` jobs under way for each call. With less room than that many times the limit the run is broken off, and there is
no error object (`Settings.runText_overflows`).
-/

namespace TinyScript

open Syntax (Expr Program)

/-! ## Overflow -/

namespace Step

variable {α β : Type} {room : Nat} {x : Step α}

/-- The evaluation asks for a job within a job, and so on, until the stack has no room. -/
inductive Overflows : {α : Type} → Nat → Step α → Prop
  | full {α : Type} {job : Job} {m : Machine} {k : Ref → Machine → Step α} : Overflows 0 (.call job m k)
  | call {α : Type} {room : Nat} {job : Job} {m : Machine} {k : Ref → Machine → Step α}
    (hbody : Overflows room (Eval.body job m)) : Overflows (room + 1) (.call job m k)

theorem Overflows.bind (hx : x.Overflows room) (f : α → Machine → Step β) : (x.bind f).Overflows room := by
  cases hx with
  | full => exact .full
  | call hbody => exact .call hbody

/-- After an action with a known outcome. -/
theorem Overflows.lift {m k : Machine} {y : Act α} {a : α} {f : α → Eval β} (hrun : y.run m = (a, k))
    (hf : (f a k).Overflows room) : ((liftM y >>= f : Eval β) m).Overflows room := by
  obtain ⟨rfl, rfl⟩ : (y.run m).1 = a ∧ (y.run m).2 = k := by simp [hrun]
  exact hf

/-- After looking at the machine. -/
theorem Overflows.get {m : Machine} {f : Machine → Eval β} (hf : (f m m).Overflows room) :
    ((getThe Machine >>= f : Eval β) m).Overflows room :=
  hf

theorem Overflows.exec {x : Step Ref} (hx : x.Overflows room) : ∃ m, ∀ (extra : Nat)
    (stack : List (Ref → Machine → Step Ref)), x.execWithin (room + 1 + extra) room stack = .error (.overflow m) := by
  induction room generalizing x with
  | zero =>
    cases hx with
    | @full _ job m k => exact ⟨m, fun extra stack => by rw [Nat.add_right_comm]; rfl⟩
  | succ room ih =>
    cases hx with
    | @call _ _ job m k hbody =>
      obtain ⟨m', hexec⟩ := ih hbody
      refine ⟨m', fun extra stack => ?_⟩
      rw [Nat.add_right_comm]
      exact hexec extra (k :: stack)

/-- No budget helps. -/
theorem Overflows.run (hx : x.Overflows room) :
    ∃ m, ∀ extra, x.runWithin (room + extra) room = .error (.overflow m) := by
  cases hx with
  | @full _ job m k => exact ⟨m, fun _ => rfl⟩
  | @call _ room job m k hbody =>
    obtain ⟨m', hexec⟩ := hbody.exec
    refine ⟨m', fun extra => ?_⟩
    rw [runWithin, hexec extra []]

end Step

/-! ## Calls below negations -/

/-- An expression below a number of negations. -/
def Syntax.Expr.negated (e : Expr) : Nat → Expr
  | 0 => e
  | n + 1 => .unary .not (e.negated n)

/-- `def main() = !..!main()` -/
def Syntax.Program.nested (n : Nat) : Program := ⟨[⟨"main", [], (Expr.call "main" []).negated n⟩]⟩

/-- What the name `main` is bound to in `Program.nested n`. -/
def Object.nested (n : Nat) : Object := .function ⟨"main", .script [] ((Expr.call "main" []).negated n) none⟩

/-- The name `main` is bound to such a function in the global frame, and there are `left` calls to the limit. -/
structure Machine.Nests (n left : Nat) (main : Ref) (m : Machine) : Prop where
  global : 0 < m.frames.arena.size
  bound : m.frames.resolveLocal? Frames.global "main" = some main
  object : m.object main = .nested n
  left_eq : m.maxDepth.toNat = m.depth + left

namespace Frames

theorem bindAll_nil (fs : Frames) (f : FrameId) : fs.bindAll f [] = fs := by
  simp only [bindAll, modifyBinds, List.append_nil]
  congr 1
  refine Array.ext (Array.size_modify ..) fun i hi _ => ?_
  rw [Array.getElem_modify]
  split <;> rfl

variable {fs : Frames} {name : Text} {r : Ref}

/-- A new frame below the global one sees what is bound there. -/
theorem resolve?_fork (hglobal : 0 < fs.arena.size) (hbound : fs.resolveLocal? global name = some r) :
    (fs.fork global).1.resolve? fs.arena.size name = some r := by
  have hlocal (g : FrameId) : (fs.fork global).1.resolveLocal? g name = fs.resolveLocal? g name := by
    rw [resolveLocal?_eq, resolveLocal?_eq, binds_fork]
  have hnew : fs.resolveLocal? fs.arena.size name = none := by
    rw [resolveLocal?_eq, binds_of_size_le le_rfl]
    rfl
  obtain ⟨size, hsize⟩ : ∃ size, fs.arena.size = size + 1 := ⟨fs.arena.size - 1, by omega⟩
  rw [resolve?, resolveWithin, hlocal, hnew, parent?_fork, if_pos rfl, size_fork]
  show (fs.fork global).1.resolveWithin name (fs.arena.size + 1) global = some r
  rw [resolveWithin, hlocal, hbound]

end Frames

theorem Machine.Nests.fork {n left : Nat} {main : Ref} {m : Machine} (hm : m.Nests n left main) :
    Nests n left main { m with frames := (m.frames.fork Frames.global).1 } := by
  refine ⟨(m.frames.size_fork Frames.global).symm ▸ Nat.succ_pos _, ?_, hm.object, hm.left_eq⟩
  rw [Frames.resolveLocal?_eq, Frames.binds_fork]
  exact hm.bound

namespace Eval

open Machine (Nests)

variable {n left : Nat} {main : Ref} {m : Machine} {room : Nat}

/-- A call of `main` below the limit goes on with its body. -/
theorem overflows_main (hm : m.Nests n (left + 1) main)
    (hbody : ∀ (env : FrameId) (m' : Machine), m'.Nests n left main →
      m'.frames.resolve? env "main" = some main → (eval env ((Expr.call "main" []).negated n) m').Overflows room) :
    (callFunction ⟨"main", .script [] ((Expr.call "main" []).negated n) none⟩ "main" [] m).Overflows room := by
  let inner : Machine := { m with depth := m.depth + 1, frames := (m.frames.fork Frames.global).1 }
  have hleft := hm.left_eq
  have hinner : inner.Nests n left main :=
    ⟨hm.fork.global, hm.fork.bound, hm.object, hleft.trans (by dsimp only [inner]; omega)⟩
  refine .lift rfl (.get ?_)
  dsimp only
  rw [if_neg (by rw [Bool.and_eq_true, decide_eq_true_eq, decide_eq_true_eq]; omega)]
  refine Step.Overflows.bind
    (.lift rfl (.lift (a := ()) (k := inner) ?_ (Step.Overflows.bind (hbody _ inner hinner ?_) _))) _
  · exact Prod.ext rfl (congrArg (fun fs => { inner with frames := fs }) (Frames.bindAll_nil _ _))
  · exact Frames.resolve?_fork hm.global hm.bound

/-- Where `main` is seen, calls of it below negations go on asking for jobs up to the limit. -/
theorem overflows_negated (hm : m.Nests n left main) {env : FrameId} (henv : m.frames.resolve? env "main" = some main)
    {k : Nat} (hroom : room < left * (n + 1) + (k + 1)) :
    (eval env ((Expr.call "main" []).negated k) m).Overflows room := by
  induction room generalizing m left env k with
  | zero => exact .full
  | succ room ih =>
    refine .call (.lift rfl (Step.Overflows.bind ?_ _))
    cases k with
    | succ k =>
      refine Step.Overflows.bind (Step.Overflows.bind (ih hm henv ?_) _) _
      omega
    | zero =>
      cases left with
      | zero => omega
      | succ left =>
        refine .lift (Prod.ext henv rfl) (.lift rfl (.lift (Prod.ext hm.object rfl) ?_))
        exact overflows_main ⟨hm.global, hm.bound, hm.object, hm.left_eq⟩ fun env' m' hm' henv' => 
          ih hm' henv' (by rw [Nat.succ_mul] at hroom; omega)

/-- On a machine on which no call is under way, the program can be defined. -/
theorem nests_defineAll (hm : m.Sturdy) (hdepth : m.depth = 0) (n : Nat) :
    ∃ main, Nests n m.maxDepth.toNat main ((Act.defineAll (.nested n)).run m).2 := by
  let start : Machine := { m with program := some ⟨(m.program.map Program.defs).getD [] ++ (Program.nested n).defs⟩ }
  let d : Syntax.Def := ⟨"main", [], (Expr.call "main" []).negated n⟩
  have hstart : start.Sturdy := ⟨hm.heap, hm.global⟩
  have hget := start.get?_define hstart.heap d (start.heap.alloc d.object true).2
  refine ⟨(start.heap.alloc d.object true).2, ?_⟩
  show Nests n m.maxDepth.toNat _ ((define d).run start).2
  have hsturdy := hstart.define d
  obtain ⟨heap, hrun, -⟩ := start.define_run d
  rw [hrun] at hget hsturdy ⊢
  refine ⟨hsturdy.global, ?_, ?_, by rw [hdepth, Nat.zero_add]⟩
  · rw [Frames.resolveLocal?_eq, hstart.binds_set]
    exact Frames.first?_setIn _ _ _
  · rw [hstart.heap.get?_alloc_iff.mpr (.inl ⟨rfl, rfl⟩)] at hget
    exact congrArg (Option.getD · _) hget

end Eval

/-! ## The program -/

namespace Syntax.Program

theorem height_nested (n : Nat) : (nested n).height = n + 1 := by
  have hbody : ((Expr.call "main" []).negated n).height = n + 1 := by
    induction n with
    | zero => rw [Expr.negated, Expr.height]; rfl
    | succ n ih =>
      rw [Expr.negated, Expr.height]
      simp [Expr.children, ih]
  simp [height, nested, hbody]

theorem parse_nested (n : Nat) : Syntax.parseProgram (nested n).print = .ok (nested n) := by
  have hmain : Syntax.IsName "main" := ⟨Syntax.tokenText_of_alone rfl, rfl⟩
  have hclosed : ((Expr.call "main" []).negated n).isOpen = false := by cases n <;> rfl
  refine Syntax.parseProgram_print (List.forall_mem_singleton.mpr (.define hmain (List.forall_mem_nil _) ?_))
  induction n with
  | zero => exact .call hmain (List.forall_mem_nil _)
  | succ n ih =>
    refine .unary nofun ?_ nofun (ih ?_) <;> cases n <;> rfl

theorem nested_loops (n : Nat) : (nested n).All fun x => x.loopsOverDisplay := by
  refine List.forall_mem_singleton.mpr (.node rfl (List.forall_mem_singleton.mpr ?_))
  induction n with
  | zero => exact .node rfl nofun
  | succ n ih => exact .node rfl (List.forall_mem_singleton.mpr ih)

end Syntax.Program

/-- With less room, the program whose `main` calls itself below `n` negations is broken off for want of room, with
any budget. -/
theorem Settings.runText_overflows (s : Settings) (pacing : Pacing) (fs : Builtin.Group) (n : Nat) {room : Nat}
    (hroom : room < 1 + s.maxDepth.toNat * (Program.nested n).height) :
    ∃ m, ∀ extra, (Eval.runText (Program.nested n).print).runWithin (room + extra) room (s.machine pacing fs)
      = .error (.overflow m) := by
  have hm : (s.machine pacing fs).Sturdy := (Machine.Reached.fresh s pacing fs).sturdy
  have hbounded := s.bounded_machine pacing fs 1
  obtain ⟨main, hnests⟩ := Eval.nests_defineAll hm hbounded.depth_eq n
  have hload : (Act.loadText (Program.nested n).print).run (s.machine pacing fs) =
      (.ok (), ((Act.defineAll (.nested n)).run (s.machine pacing fs)).2) := by
    rw [Act.loadText, Program.parse_nested]
    rfl
  rw [hbounded.limit_eq] at hnests
  refine Step.Overflows.run (.lift hload (.get ?_))
  generalize ((Act.defineAll (.nested n)).run (s.machine pacing fs)).2 = m₁ at hnests ⊢
  rw [hnests.bound]
  refine Step.Overflows.bind (.lift rfl (Step.Overflows.bind (Eval.overflows_negated (k := 0) hnests.fork ?_ ?_) _)) _
  · exact Frames.resolve?_fork hnests.global hnests.bound
  · rwa [Program.height_nested, Nat.add_comm] at hroom

/-- At the default limit eight hundred negations ask for more than forty million jobs at once. -/
theorem Settings.runText_overflows_default :
    Syntax.parseProgram (Program.nested 800).print = .ok (.nested 800) ∧
      ((Program.nested 800).All fun x => x.loopsOverDisplay = true) ∧
      ∃ m, ∀ extra, (Eval.runText (Program.nested 800).print).runWithin (40000000 + extra) 40000000
        (Settings.machine {} .never Builtin.all) = .error (.overflow m) :=
  ⟨Program.parse_nested 800, Program.nested_loops 800,
    Settings.runText_overflows {} .never Builtin.all 800 (by rw [Program.height_nested]; decide)⟩

end TinyScript
