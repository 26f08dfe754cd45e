import Mathlib
import TinyScript.Proofs.Course.Standing
import TinyScript.Proofs.Frame.Resolve

/-!
# Roots

The roots are the shared objects and what the global frame binds: a definition makes its function a root and lets the
function that had the name before be an ordinary object. Registering a native function makes a root too, but if the
name was bound, what it was bound to is a root for good. `Machine.Rooted` has a list for such objects. The invariant is
kept by everything that may happen to a machine (`Machine.Course.rooted`).
-/

namespace TinyScript

open Syntax (Expr)
open Frames (global)
open List

variable {name : Text} {r : Ref}

/-! ## Bindings of one name -/

namespace Frames

theorem setIn_append (r : Ref) {front : List (Text × Ref)} (hfront : ∀ b ∈ front, b.1 ≠ name)
    (bs : List (Text × Ref)) : setIn name r (front ++ bs) = front ++ setIn name r bs := by
  induction front with
  | nil => rfl
  | cons b front ih =>
    obtain ⟨hb, hfront⟩ := List.forall_mem_cons.mp hfront
    rw [cons_append, setIn, if_neg hb, ih hfront, cons_append]

/-- A name that is bound is bound anew in its place. -/
theorem setIn_of_first? {bs : List (Text × Ref)} {old : Ref} (h : first? bs name = some old) (r : Ref) :
    ∃ front back, (∀ b ∈ front, b.1 ≠ name) ∧ bs = front ++ (name, old) :: back ∧
      setIn name r bs = front ++ (name, r) :: back := by
  obtain ⟨⟨found, old'⟩, hfind, rfl⟩ := Option.map_eq_some_iff.mp h
  obtain ⟨hname, front, back, rfl, hfront⟩ := List.find?_eq_some_iff_append.mp hfind
  obtain rfl : found = name := by simpa using hname
  have hfront : ∀ b ∈ front, b.1 ≠ found := fun b hb => by simpa using hfront b hb
  refine ⟨front, back, hfront, rfl, ?_⟩
  rw [setIn_append r hfront, setIn, if_pos rfl]

/-- A name that is not bound comes behind the others. -/
theorem setIn_of_first?_none {bs : List (Text × Ref)} (h : first? bs name = none) (r : Ref) :
    name ∉ bs.map Prod.fst ∧ setIn name r bs = bs ++ [(name, r)] := by
  have hne := first?_eq_none_iff.mp h
  refine ⟨fun hmem => ?_, ?_⟩
  · obtain ⟨b, hb, heq⟩ := List.mem_map.mp hmem
    exact hne b hb heq
  · have happend := setIn_append r hne []
    rwa [append_nil] at happend

end Frames

/-! ## The invariant -/

/-- The roots are the objects on a list and those that the global frame binds, each of them once. No name is
bound twice there. -/
structure Machine.Rooted (kept : List Ref) (m : Machine) : Prop where
  names : ((m.frames.binds global).map Prod.fst).Nodup
  refs : (kept ++ (m.frames.binds global).map Prod.snd).Nodup
  root_iff : ∀ r, m.heap.flag? r = some .root ↔ r ∈ kept ++ (m.frames.binds global).map Prod.snd

/-- Roots survive as they are. -/
theorem Machine.Shrinks.keeps_root {m m' : Machine} (h : m.Shrinks m') (hr : m.heap.flag? r = some .root) :
    m'.heap.flag? r = some .root ∧ m'.heap.get? r = m.heap.get? r := by
  have hvalid := h.kept (.seed (.flagged hr (.inl rfl)) (Heap.valid_of_flag? hr))
  exact ⟨(h.root_iff hvalid).mpr hr, h.get?_eq hvalid⟩

/-- The captured names of a function are not in the global frame. -/
theorem Machine.Kept.binds_global {rooms : Rooms} {m m' : Machine} (hm : m.Kept rooms) (h : m.Shrinks m') :
    m'.frames.binds global = m.frames.binds global := by
  refine h.binds_eq fun r o ho hf => ?_
  obtain ⟨room, hroom, hframe, -⟩ := (hm.objects ho).exists_room hf
  exact absurd hframe (hm.frames.made room hroom).1

theorem Machine.Kept.shrinks_forceCollect {rooms : Rooms} {m : Machine} (hm : m.Kept rooms) :
    m.Shrinks (Act.forceCollect.run m).2 := by
  refine Machine.shrinks_forceCollect hm.heap fun ho hf => ?_
  obtain ⟨room, hroom, rfl, hcaptured⟩ := (hm.objects ho).exists_room hf
  exact hm.frames.notMem_registered hroom hcaptured

namespace Machine.Rooted

variable {kept : List Ref} {m m' : Machine} {rooms rooms' : Rooms}

theorem congr (h : m.Rooted kept) (hbinds : m'.frames.binds global = m.frames.binds global)
    (hroot : ∀ r, m'.heap.flag? r = some .root ↔ m.heap.flag? r = some .root) : m'.Rooted kept where
  names := hbinds ▸ h.names
  refs := hbinds ▸ h.refs
  root_iff r := by rw [hroot, h.root_iff, hbinds]

/-- What is bound in the global frame is a root. -/
theorem root_of_resolveLocal? (h : m.Rooted kept)
    (hr : m.frames.resolveLocal? global name = some r) : m.heap.flag? r = some .root := by
  obtain ⟨b, hb, rfl⟩ := Option.map_eq_some_iff.mp hr
  exact (h.root_iff _).mpr (mem_append_right _ (mem_map_of_mem (mem_of_find?_eq_some hb)))

/-- A new object is none of those that are roots already. -/
theorem notMem_alloc (h : m.Rooted kept) (hwf : m.heap.WellFormed) (o : Object) (isRoot : Bool) :
    (m.heap.alloc o isRoot).2 ∉ kept ++ (m.frames.binds global).map Prod.snd := fun hmem =>
  hwf.not_valid_alloc o isRoot (Heap.valid_of_flag? ((h.root_iff _).mpr hmem))

/-- A new root is bound to a name that was not bound. -/
theorem bindNew (h : m.Rooted kept)
    (hname : m.frames.resolveLocal? global name = none)
    (hr : r ∉ kept ++ (m.frames.binds global).map Prod.snd)
    (hbinds : m'.frames.binds global = Frames.setIn name r (m.frames.binds global))
    (hroot : ∀ s, m'.heap.flag? s = some .root ↔ s = r ∨ m.heap.flag? s = some .root) : m'.Rooted kept := by
  obtain ⟨hnew, hset⟩ := Frames.setIn_of_first?_none hname r
  rw [hset] at hbinds
  refine ⟨?_, ?_, fun s => ?_⟩
  · rw [hbinds, map_append, map_singleton, nodup_append_comm]
    exact List.nodup_cons.mpr ⟨hnew, h.names⟩
  · rw [hbinds, map_append, map_singleton, ← append_assoc, nodup_append_comm]
    exact List.nodup_cons.mpr ⟨hr, h.refs⟩
  · rw [hroot, h.root_iff, hbinds]
    simp only [map_append, map_cons, map_nil, mem_append, mem_singleton]
    tauto

/-- A new root takes the place of another in the global frame. -/
theorem rebind (h : m.Rooted kept) {old : Ref}
    (hname : m.frames.resolveLocal? global name = some old)
    (hr : r ∉ kept ++ (m.frames.binds global).map Prod.snd)
    (hbinds : m'.frames.binds global = Frames.setIn name r (m.frames.binds global)) :
    ((∀ s, m'.heap.flag? s = some .root ↔ s = r ∨ m.heap.flag? s = some .root ∧ s ≠ old) → m'.Rooted kept) ∧
      ((∀ s, m'.heap.flag? s = some .root ↔ s = r ∨ m.heap.flag? s = some .root) → m'.Rooted (old :: kept)) := by
  obtain ⟨front, back, -, hbs, hset⟩ := Frames.setIn_of_first? hname r
  have hnames := h.names
  have hrefs := h.refs
  have hroots := h.root_iff
  rw [hset] at hbinds
  rw [hbs] at hnames hrefs hroots hr
  simp only [map_append, map_cons] at hnames hrefs hroots hr
  have hperm (x : Ref) : (kept ++ (front.map Prod.snd ++ x :: back.map Prod.snd)).Perm
      (x :: (kept ++ (front.map Prod.snd ++ back.map Prod.snd))) := by
    rw [← append_assoc, ← append_assoc]
    exact perm_middle
  rw [(hperm old).nodup_iff, nodup_cons] at hrefs
  rw [(hperm old).mem_iff, mem_cons, not_or] at hr
  have hnames' : ((m'.frames.binds global).map Prod.fst).Nodup := by
    rw [hbinds]
    simpa using hnames
  refine ⟨fun hroot => ⟨hnames', ?_, fun s => ?_⟩, fun hroot => ⟨hnames', ?_, fun s => ?_⟩⟩
  · rw [hbinds, map_append, map_cons, (hperm r).nodup_iff]
    exact List.nodup_cons.mpr ⟨hr.2, hrefs.2⟩
  · rw [hroot, hroots, hbinds, map_append, map_cons, (hperm r).mem_iff, (hperm old).mem_iff, mem_cons,
      mem_cons]
    have hold : s = old → s ∉ kept ++ (front.map Prod.snd ++ back.map Prod.snd) := fun hs => hs ▸ hrefs.1
    tauto
  · rw [hbinds, map_append, map_cons, cons_append, nodup_cons, (hperm r).mem_iff,
      (hperm r).nodup_iff]
    refine ⟨?_, List.nodup_cons.mpr ⟨hr.2, hrefs.2⟩⟩
    rw [mem_cons, not_or]
    exact ⟨Ne.symm hr.1, hrefs.1⟩
  · rw [hroot, hroots, hbinds, map_append, map_cons, cons_append, mem_cons, (hperm r).mem_iff,
      (hperm old).mem_iff, mem_cons, mem_cons]
    tauto

/-- A collection frees no root, and leaves the global frame alone. -/
theorem shrink (h : m.Rooted kept) (hm : m.Kept rooms) (hshrinks : m.Shrinks m') : m'.Rooted kept := by
  refine h.congr (hm.binds_global hshrinks) fun r => ⟨fun hr => ?_, fun hr => (hshrinks.keeps_root hr).1⟩
  exact (hshrinks.root_iff (Heap.valid_of_flag? hr)).mp hr

/-- An object that is allocated for a value is no root. -/
theorem alloc (h : m.Rooted kept) (hm : m.Kept rooms) (o : Object) : ((Act.alloc o).run m).2.Rooted kept := by
  have hcollected := h.shrink hm hm.shrinks_collect
  have hwf := hm.shrinks_collect.wellFormed
  exact hcollected.congr rfl fun r => hwf.flag?_alloc_iff.trans (by simp)

end Machine.Rooted

/-! ## Definitions and native functions -/

/-- One object is no root any more, if it was. -/
theorem Heap.Threaded.flag?_setRoot? {h : Heap} {l : List Nat} (ht : h.Threaded l) (old r : Ref) :
    ((h.setRoot? old false).getD h).flag? r = some .root ↔ h.flag? r = some .root ∧ r ≠ old := by
  cases hset : h.setRoot? old false with
  | none =>
    refine ⟨fun hr => ⟨hr, ?_⟩, And.left⟩
    rintro rfl
    -- only a reference that is not valid is refused
    rw [Option.getD_none, Heap.flag?, Option.map_eq_some_iff] at hr
    obtain ⟨s, hs, -⟩ := hr
    simp only [Heap.setRoot?, hs, Bool.false_eq_true, if_false] at hset
    split at hset <;> cases hset
  | some h' =>
    rw [Option.getD_some, Heap.flag?_eq, Heap.flag?_eq, (Heap.setRoot?_false ht hset).2]
    by_cases hr : r = old
    · subst hr
      cases h.named? r with
      | none => simp
      | some c => cases hflag : c.flag <;> simp [hflag]
    · simp [hr]

namespace Machine

/-- A definition makes its function a root, and what the name was bound to is no root any more. -/
theorem flag?_define (m : Machine) (hwf : m.heap.WellFormed) (d : Syntax.Def) (r : Ref) :
    ((Eval.define d).run m).2.heap.flag? r = some .root ↔ (r = (m.heap.alloc d.object true).2 ∨
      m.heap.flag? r = some .root) ∧ m.frames.resolveLocal? global d.name ≠ some r := by
  have hheap : ((Eval.define d).run m).2.heap
      = (Eval.released d.name { m with heap := (m.heap.alloc d.object true).1 }).heap := rfl
  have halloc : (m.heap.alloc d.object true).1.flag? r = some .root ↔
      r = (m.heap.alloc d.object true).2 ∨ m.heap.flag? r = some .root :=
    hwf.flag?_alloc_iff.trans (by simp)
  have hset (old : Ref) := (hwf.alloc d.object true).flag?_setRoot? old r
  rw [hheap, Eval.released, ← halloc]
  dsimp only
  cases m.frames.resolveLocal? global d.name with
  | none => simp
  | some old =>
    rw [ne_eq, Option.some.injEq, eq_comm (a := old), ← ne_eq, ← hset old]
    dsimp only
    cases (m.heap.alloc d.object true).1.setRoot? old false <;> rfl

theorem binds_define (m : Machine) (hm : m.Sturdy) (d : Syntax.Def) :
    ((Eval.define d).run m).2.frames.binds global
      = Frames.setIn d.name (m.heap.alloc d.object true).2 (m.frames.binds global) := by
  obtain ⟨heap, hrun, -⟩ := m.define_run d
  rw [hrun]
  exact hm.binds_set _ _

end Machine

namespace Machine.Rooted

variable {kept : List Ref} {m m' : Machine} {rooms rooms' : Rooms}

theorem define (h : m.Rooted kept) (hm : m.Sturdy) (d : Syntax.Def) : ((Eval.define d).run m).2.Rooted kept := by
  have hnew := h.notMem_alloc hm.heap d.object true
  have hbinds := m.binds_define hm d
  have hroot := m.flag?_define hm.heap d
  cases hname : m.frames.resolveLocal? global d.name with
  | none => exact h.bindNew hname hnew hbinds fun s => by rw [hroot, hname]; simp
  | some old =>
    refine (h.rebind hname hnew hbinds).1 fun s => ?_
    have hold : (m.heap.alloc d.object true).2 ≠ old := by
      rintro rfl
      exact hnew ((h.root_iff _).mp (h.root_of_resolveLocal? hname))
    rw [hroot, hname, ne_eq, Option.some.injEq]
    constructor
    · rintro ⟨rfl | hs, hne⟩
      · exact .inl rfl
      · exact .inr ⟨hs, Ne.symm hne⟩
    · rintro (rfl | ⟨hs, hne⟩)
      · exact ⟨.inl rfl, Ne.symm hold⟩
      · exact ⟨.inr hs, Ne.symm hne⟩

/-- Registering a function leaves what the name was bound to a root. -/
theorem addFunction (h : m.Rooted kept) (hm : m.Sturdy) (name : Text) (op : Primitive) :
    ((Act.addFunction name op).run m).2.Rooted
      ((m.frames.resolveLocal? global name).toList ++ kept) := by
  have hnew := h.notMem_alloc hm.heap (.function ⟨name, .native op⟩) true
  have hbinds := hm.binds_set name (m.heap.alloc (.function ⟨name, .native op⟩) true).2
  have hroot (s : Ref) : (m.heap.alloc (.function ⟨name, .native op⟩) true).1.flag? s = some .root ↔
      s = (m.heap.alloc (.function ⟨name, .native op⟩) true).2 ∨ m.heap.flag? s = some .root :=
    hm.heap.flag?_alloc_iff.trans (by simp)
  cases hname : m.frames.resolveLocal? global name with
  | none => exact h.bindNew hname hnew hbinds hroot
  | some old => exact (h.rebind hname hnew hbinds).2 hroot

/-- Frames other than the global one do not matter. -/
theorem setFrames (h : m.Rooted kept) {fs : Frames} (hbinds : fs.binds global = m.frames.binds global) :
    Rooted kept { m with frames := fs } :=
  h.congr hbinds fun _ => Iff.rfl

theorem lambda (h : m.Rooted kept) (hm : m.Kept rooms) (env : FrameId) (params : List Text) (body : Expr) :
    ((Eval.evalLambda env params body).run m).2.Rooted kept := by
  rw [evalLambda_run]
  refine Rooted.alloc (h.setFrames ?_) (hm.capturing env params body) _
  exact (m.frames.binds_newClosure _ _).trans (if_neg (Nat.ne_of_lt hm.frames.global_lt))

end Machine.Rooted

/-- Whatever happens in the course of an evaluation, the roots are the objects on the list and those that the
global frame binds. -/
theorem Machine.Course.rooted {kept : List Ref} {rooms rooms' : Rooms} {m m' : Machine}
    (h : Course rooms m rooms' m') (hm : m.Kept rooms) (hroots : m.Rooted kept) : m'.Rooted kept := by
  induction h with
  | trans h₁ _ ih ih' => exact ih' (h₁.kept hm) (ih hm hroots)
  | aside hheap hframes => exact hroots.congr (by rw [hframes]) fun r => by rw [hheap]
  | @alloc _ _ o _ => exact hroots.alloc hm o
  | setDict hd t' =>
    refine hroots.congr rfl fun r => ?_
    rw [Heap.flag?_set (Heap.valid_of_get? hd)]
  | define d => exact hroots.define hm.sturdy d
  | lambda env params body => exact hroots.lambda hm env params body
  | @fork _ m p _ _ => exact hroots.setFrames (m.frames.binds_fork p _)
  | @bind _ m room hroom _ bs _ =>
    refine hroots.setFrames ((m.frames.binds_modifyBinds _ _ _).trans (if_neg fun heq => ?_))
    exact (hm.frames.made room hroom).1 heq.1
  | @leave _ m room hroom _ =>
    refine Rooted.congr hroots ((m.frames.binds_leave _ _).trans (if_neg fun heq => ?_)) fun _ => Iff.rfl
    exact (hm.frames.made room hroom).1 heq

/-! ## Runs -/

/-- A lawful evaluation that runs to an end has stayed on course. -/
theorem Step.Lawful.run {α : Type} {V : α → Prop} {rooms : Rooms} {m m' : Machine} {x : Step α} {budget : Nat} {a : α}
    (hx : x.Lawful V rooms m) (hm : m.Kept rooms) (h : x.run budget = some (a, m')) :
    ∃ rooms', Machine.Course rooms m rooms' m' := by
  induction hx with
  | done hcourse _ =>
    cases h
    exact ⟨_, hcourse⟩
  | @call rooms rooms₁ m m₁ job k hcourse hjob _ ih =>
    rw [Step.run] at h
    cases hexec : (Eval.body job m₁).exec budget [] with
    | none =>
      rw [hexec] at h
      cases h
    | some result =>
      rw [hexec] at h
      -- the job goes through standings, and what was to be done with its result follows
      have hkept := hcourse.kept hm
      have hbody := Eval.lawful_body hjob rooms₁ m₁ (List.Subset.refl _) hkept
      obtain ⟨rooms₂, hbegun, hgoverned⟩ := Standing.governed_of_lawful hkept hbody (forall_mem_nil _)
      obtain ⟨rooms₃, hended, hgoverned⟩ := hgoverned.later (Standing.later_of_exec hexec)
      obtain ⟨rooms₄, hrest⟩ := ih rooms₃ result.1 result.2 (hbegun.trans hended).subset hgoverned.kept hgoverned.kept h
      exact ⟨rooms₄, hcourse.trans ((hbegun.trans hended).trans hrest)⟩

/-- Along an evaluation the machine stays on course. -/
theorem Standing.Governed.trace {rooms : Rooms} {s : Standing} (h : s.Governed rooms) (k : Nat) :
    ∃ rooms', Machine.Course rooms s.machine rooms' (s.now.trace k s.rest) := by
  induction k generalizing rooms s with
  | zero => exact ⟨rooms, .refl _ _⟩
  | succ k ih =>
    have hnext {s' : Standing} (hs : s.Next s') :
        ∃ rooms', Machine.Course rooms s.machine rooms' (s'.now.trace k s'.rest) := by
      obtain ⟨rooms₁, hcourse, h₁⟩ := h.next hs
      obtain ⟨rooms₂, hcourse'⟩ := ih h₁
      exact ⟨rooms₂, hcourse.trans hcourse'⟩
    obtain ⟨now, rest⟩ := s
    cases now with
    | call job m resume => exact hnext .begin
    | done r m =>
      cases rest with
      | nil => exact ⟨rooms, .refl _ _⟩
      | cons resume rest => exact hnext .resume

namespace Eval

variable {rooms : Rooms}

theorem lawful_runText (src : Text) : (runText src).Lawful rooms := by
  refine .lift (fun rooms m => Machine.Course.loadText rooms m src) fun loaded => ?_
  split
  · exact .result _
  · refine .get fun m => ?_
    split
    · exact .result _
    · exact (lawful_evalBelow _).bind fun r _ => .result _

theorem lawful_evalText (src : Text) : (evalText src).Lawful rooms := by
  rw [evalText]
  split
  · exact .result _
  · exact (lawful_evalBelow _).bind fun r _ => .result _

end Eval

/-! ## The shared objects -/

/-- The shared objects and the pacing are the same. -/
structure Machine.SameShared (m m' : Machine) : Prop where
  pacing : m'.pacing = m.pacing := by rfl
  unit : m'.unit = m.unit := by rfl
  nil : m'.nil = m.nil := by rfl

theorem Machine.SameShared.trans {m₁ m₂ m₃ : Machine} (h : m₁.SameShared m₂) (h' : m₂.SameShared m₃) :
    m₁.SameShared m₃ :=
  ⟨h'.pacing.trans h.pacing, h'.unit.trans h.unit, h'.nil.trans h.nil⟩

theorem Machine.sameShared_define (m : Machine) (d : Syntax.Def) : m.SameShared ((Eval.define d).run m).2 := by
  obtain ⟨heap, hrun, -⟩ := m.define_run d
  rw [hrun]
  exact {}

theorem Machine.sameShared_loadText (m : Machine) (src : Text) : m.SameShared ((Act.loadText src).run m).2 := by
  rw [Act.loadText]
  cases Syntax.parseProgram src with
  | error e => exact {}
  | ok p => exact Act.defineAll_run (P := fun _ m' => m.SameShared m') {} fun _ d _ m' h => h.trans (m'.sameShared_define d)

namespace Eval

theorem ensures_evalBelow (env : FrameId) (e : Expr) (m : Machine) :
    (evalBelow env e m).Ensures .evolving m.pacing fun _ m' => m.SameShared m' := by
  refine .call rfl fun r m' h => .done ?_
  exact ⟨h.evolves.unchanged.1, h.evolves.unchanged.2.1, h.evolves.unchanged.2.2⟩

theorem ensures_evalText (src : Text) (m : Machine) :
    (evalText src m).Ensures .evolving m.pacing fun _ m' => m.SameShared m' := by
  rw [evalText]
  cases Syntax.parseExpr src with
  | error e => exact .done {}
  | ok e => exact (ensures_evalBelow _ e m).bind fun r m' h => .done h

theorem ensures_runText (src : Text) (m : Machine) :
    (runText src m).Ensures .evolving m.pacing fun _ m' => m.SameShared m' := by
  have hload := m.sameShared_loadText src
  refine Step.Ensures.bind (R := fun _ m' => m.SameShared m') (.done hload) fun loaded m' h => ?_
  split
  · exact .done h
  · refine Step.Ensures.bind (R := fun _ m' => m.SameShared m') (.done h) fun m₁ m₂ h₂ => ?_
    cases m₁.frames.resolveLocal? global "main" with
    | none => exact .done h₂
    | some main => exact h₂.pacing ▸ (ensures_evalBelow _ _ m₂).bind fun r m' h' => .done (h₂.trans h')

end Eval

/-! ## What a host does -/

/-- The machines that a host comes to from a fresh one: it loads definitions, runs programs and evaluates
expressions, collects, and registers native functions under the names that `Adds` allows. -/
inductive Machine.Hosted (Adds : Machine → Text → Prop) : Machine → Prop
  | fresh (s : Settings) (pacing : Pacing) {fs : Builtin.Group} (hfs : (fs.map Prod.fst).Nodup) :
    Hosted Adds (s.machine pacing fs)
  | load {m : Machine} (src : Text) : Hosted Adds m → Hosted Adds ((Act.loadText src).run m).2
  | run {m m' : Machine} {src : Text} {budget : Nat} {a : Except RunError Ref} : Hosted Adds m →
    (Eval.runText src).run budget m = some (a, m') → Hosted Adds m'
  | eval {m m' : Machine} {src : Text} {budget : Nat} {a : Except Syntax.SyntaxError Ref} : Hosted Adds m →
    (Eval.evalText src).run budget m = some (a, m') → Hosted Adds m'
  | collect {m : Machine} : Hosted Adds m → Hosted Adds (Act.forceCollect.run m).2
  | add {m : Machine} {name : Text} (op : Primitive) : Hosted Adds m → Adds m name →
    Hosted Adds ((Act.addFunction name op).run m).2
  | pace {m : Machine} (pacing : Pacing) : Hosted Adds m → Hosted Adds { m with pacing := pacing }

/-- A name that is not bound in the global frame. -/
def Machine.Unbound (m : Machine) (name : Text) : Prop := m.frames.resolveLocal? global name = none

theorem Machine.Kept.addFunction {rooms : Rooms} {m : Machine} (hm : m.Kept rooms) (name : Text) (op : Primitive) :
    ((Act.addFunction name op).run m).2.Kept rooms := by
  have halloc := hm.allocRaw (o := .function ⟨name, .native op⟩) trivial (fun _ hf => by cases hf) true
  exact halloc.setFrames (List.Subset.refl _) (halloc.frames.setGlobal name _)

theorem Machine.sameShared_addFunction (m : Machine) (name : Text) (op : Primitive) :
    m.SameShared ((Act.addFunction name op).run m).2 := {}

/-- Functions with names of their own are bound one after the other. -/
theorem Machine.Rooted.addFunctions {kept : List Ref} {fs : Builtin.Group} {m : Machine} (h : m.Rooted kept)
    (hm : m.Sturdy) (hfs : (fs.map Prod.fst).Nodup)
    (hnew : ∀ f ∈ fs, f.1 ∉ (m.frames.binds global).map Prod.fst) :
    ((Act.addFunctions fs).run m).2.Rooted kept ∧ m.SameShared ((Act.addFunctions fs).run m).2 := by
  induction fs generalizing m with
  | nil => exact ⟨h, {}⟩
  | cons f fs ih =>
    obtain ⟨hf, hfs⟩ := List.nodup_cons.mp hfs
    obtain ⟨hnewf, hnew⟩ := List.forall_mem_cons.mp hnew
    have hunbound : m.frames.resolveLocal? global f.1 = none :=
      Frames.first?_eq_none_iff.mpr fun b hb heq => hnewf (heq ▸ mem_map_of_mem hb)
    have hadded := h.addFunction hm f.1 f.2
    rw [hunbound] at hadded
    have hsturdy : ((Act.addFunction f.1 f.2).run m).2.Sturdy :=
      (hm.allocRaw (.function ⟨f.1, .native f.2⟩) true).modifyBinds _ _
    have hbinds : ((Act.addFunction f.1 f.2).run m).2.frames.binds global
        = m.frames.binds global ++ [(f.1, (m.heap.alloc (.function ⟨f.1, .native f.2⟩) true).2)] :=
      (hm.binds_set f.1 _).trans (Frames.setIn_of_first?_none hunbound _).2
    obtain ⟨hrooted, hshared⟩ := ih hadded hsturdy hfs fun g hg => by
      rw [hbinds, map_append, mem_append, not_or]
      refine ⟨hnew g hg, fun hmem => hf ?_⟩
      rw [← List.mem_singleton.mp hmem]
      exact mem_map_of_mem hg
    exact ⟨hrooted, (m.sameShared_addFunction f.1 f.2).trans hshared⟩

theorem Settings.rooted_machine (s : Settings) (pacing : Pacing) {fs : Builtin.Group} (hfs : (fs.map Prod.fst).Nodup) :
    (s.machine pacing fs).Rooted [(s.machine pacing fs).unit, (s.machine pacing fs).nil] := by
  have hbare : (s.bare pacing).Rooted [unit, nil] := by
    have hdistinct : ([unit, nil] ++ []).Nodup := by decide
    refine ⟨nodup_nil, hdistinct, fun r => flag?_heap.trans ?_⟩
    show _ ↔ r ∈ [unit, nil] ++ []
    simp only [append_nil, mem_cons, not_mem_nil, or_false]
    exact or_comm
  have hsturdy : (s.bare pacing).Sturdy := ⟨(s.tidy_bare pacing).wellFormed, Nat.zero_lt_one⟩
  obtain ⟨hrooted, hshared⟩ := hbare.addFunctions hsturdy hfs fun f _ => not_mem_nil
  have hmachine : s.machine pacing fs = ((Act.addFunctions fs).run (s.bare pacing)).2 := rfl
  rw [hmachine, hshared.unit, hshared.nil]
  exact hrooted

namespace Machine.Hosted

variable {Adds : Machine → Text → Prop} {m : Machine}

/-- The roots are the shared objects and what the global frame binds. If names that were bound were given to
native functions, there may be others. -/
theorem rooted (h : m.Hosted Adds) : ∃ rooms kept, m.Kept rooms ∧ m.Rooted (kept ++ [m.unit, m.nil]) ∧
    ((∀ m name, Adds m name → m.Unbound name) → kept = []) := by
  have hcourse {rooms rooms' : Rooms} {kept : List Ref} {m m' : Machine} (hcourse : Course rooms m rooms' m')
      (hshared : m.SameShared m') (hm : m.Kept rooms) (hroots : m.Rooted (kept ++ [m.unit, m.nil])) :
      m'.Kept rooms' ∧ m'.Rooted (kept ++ [m'.unit, m'.nil]) := by
    rw [hshared.unit, hshared.nil]
    exact ⟨hcourse.kept hm, hcourse.rooted hm hroots⟩
  induction h with
  | fresh s pacing hfs => exact ⟨[], [], s.kept_machine pacing _, s.rooted_machine pacing hfs, fun _ => rfl⟩
  | @load m src _ ih =>
    obtain ⟨rooms, kept, hm, hroots, hempty⟩ := ih
    obtain ⟨hm', hroots'⟩ := hcourse (Course.loadText rooms m src) (m.sameShared_loadText src) hm hroots
    exact ⟨rooms, kept, hm', hroots', hempty⟩
  | @run m _ src _ _ _ hrun ih =>
    obtain ⟨rooms, kept, hm, hroots, hempty⟩ := ih
    obtain ⟨rooms', hran⟩ := (Eval.lawful_runText src rooms m (List.Subset.refl _) hm).run hm hrun
    have hshared := (Eval.ensures_runText src m).run Outcomes.sound_evolving hrun
    obtain ⟨hm', hroots'⟩ := hcourse hran hshared hm hroots
    exact ⟨rooms', kept, hm', hroots', hempty⟩
  | @eval m _ src _ _ _ hrun ih =>
    obtain ⟨rooms, kept, hm, hroots, hempty⟩ := ih
    obtain ⟨rooms', hran⟩ := (Eval.lawful_evalText src rooms m (List.Subset.refl _) hm).run hm hrun
    have hshared := (Eval.ensures_evalText src m).run Outcomes.sound_evolving hrun
    obtain ⟨hm', hroots'⟩ := hcourse hran hshared hm hroots
    exact ⟨rooms', kept, hm', hroots', hempty⟩
  | collect _ ih =>
    obtain ⟨rooms, kept, hm, hroots, hempty⟩ := ih
    have hshrinks := hm.shrinks_forceCollect
    refine ⟨rooms, kept, hm.shrink hshrinks, ?_, hempty⟩
    rw [hshrinks.unit_eq, hshrinks.nil_eq]
    exact hroots.shrink hm hshrinks
  | @add m name op _ hadds ih =>
    obtain ⟨rooms, kept, hm, hroots, hempty⟩ := ih
    have hshared := m.sameShared_addFunction name op
    refine ⟨rooms, (m.frames.resolveLocal? global name).toList ++ kept, hm.addFunction name op, ?_,
      fun hfree => ?_⟩
    · rw [hshared.unit, hshared.nil, append_assoc]
      exact hroots.addFunction hm.sturdy name op
    · rw [hempty hfree, show m.frames.resolveLocal? global name = none from hfree m name hadds]
      rfl
  | @pace m pacing _ ih =>
    obtain ⟨rooms, kept, hm, hroots, hempty⟩ := ih
    have hpace : Course rooms m rooms { m with pacing := pacing } := .aside rfl rfl
    exact ⟨rooms, kept, hpace.kept hm, hpace.rooted hm hroots, hempty⟩

/-- **The roots are the shared objects and what the global frame binds.** So it is on every machine that a host
comes to without giving a native function a name that is bound already, and at every step of an evaluation
there. What a definition takes a name from is no root from then on. -/
theorem roots_exact (h : m.Hosted Unbound) :
    m.Rooted [m.unit, m.nil] ∧
    (∀ (e : Expr) (k : Nat), ((Eval.evalBelow Frames.global e m).trace k []).Rooted [m.unit, m.nil]) ∧
    ∀ (d : Syntax.Def) (old : Ref), m.frames.resolveLocal? Frames.global d.name = some old →
      m.heap.flag? old = some .root ∧ ((Eval.define d).run m).2.heap.flag? old ≠ some .root := by
  obtain ⟨rooms, kept, hm, hroots, hempty⟩ := h.rooted
  obtain rfl := hempty fun _ _ hunbound => hunbound
  refine ⟨hroots, fun e k => ?_, fun d old hold => ⟨hroots.root_of_resolveLocal? hold, fun hroot => ?_⟩⟩
  · have hlawful := Eval.lawful_evalBelow e rooms m (List.Subset.refl _) hm
    obtain ⟨rooms₁, hbegun, hgoverned⟩ := Standing.governed_of_lawful hm hlawful (forall_mem_nil _)
    obtain ⟨rooms₂, hcourse⟩ := hgoverned.trace k
    exact (hbegun.trans hcourse).rooted hm hroots
  · exact ((m.flag?_define hm.heap d old).mp hroot).2 hold

/-- A machine on which a function was defined twice. -/
def redefined : Machine :=
  let loaded := ((Act.loadText "def f() = 1 def f() = 2").run (Settings.machine {} .always [("len", .len)])).2
  ((Act.addFunction "size" .len).run (Act.forceCollect.run loaded).2).2

set_option maxRecDepth 20000 in
theorem hosted_redefined : redefined.Hosted Unbound := by
  have hfresh : (Settings.machine {} .always [("len", .len)]).Hosted Unbound :=
    .fresh {} .always (nodup_singleton _)
  exact .add .len (.collect (.load "def f() = 1 def f() = 2" hfresh)) (by cbv)

set_option maxRecDepth 20000 in
/-- The function that was defined first is there still, and no root. -/
theorem roots_exact_redefined :
    redefined.Hosted Unbound ∧
    (redefined.frames.binds Frames.global).map Prod.fst = (["len", "f", "size"] : List Text) ∧
    redefined.heap.objects.map (fun x => x.2.2) = [.root, .root, .root, .unmarked, .root, .root] ∧
    redefined.Rooted [redefined.unit, redefined.nil] ∧
    ((Eval.evalBelow Frames.global (.call "f" []) redefined).trace 3 []).Rooted [redefined.unit, redefined.nil] := by
  -- both at once, so that the machine is run only once
  have hstate : ((redefined.frames.binds Frames.global).map Prod.fst, redefined.heap.objects.map fun x => x.2.2)
      = ((["len", "f", "size"] : List Text), [.root, .root, .root, .unmarked, .root, .root]) := by cbv
  obtain ⟨hnames, hflags⟩ := Prod.mk.inj hstate
  exact ⟨hosted_redefined, hnames, hflags, hosted_redefined.roots_exact.1, hosted_redefined.roots_exact.2.1 _ 3⟩

end Machine.Hosted

end TinyScript
