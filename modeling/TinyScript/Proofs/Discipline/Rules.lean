import TinyScript.Machine.Packed

/-!
# Disciplines of actions

Natives, operators and literals only ever look at the machine, take notes, pin, allocate objects other than
functions, and change entries of dicts. A property of actions that these have, and that composition keeps,
is a `Discipline`. Whatever is composed in this way obeys every discipline, so the many natives are gone
through only once.
-/

namespace TinyScript

/-- Whether an object is a function. -/
def Object.isFunction : Object → Bool
  | .function _ => true
  | _ => false

/-- The machine with other files. -/
def Machine.withFiles (m : Machine) (files : Host.Files) : Machine := { m with files := files }

/-- Machines that agree in the heap, the frames, the pins and the calls under way, in how many of these there
may be, and in when they collect. -/
structure Machine.SameStore (m m' : Machine) : Prop where
  heap : m'.heap = m.heap := by rfl
  frames : m'.frames = m.frames := by rfl
  pins : m'.pins = m.pins := by rfl
  depth : m'.depth = m.depth := by rfl
  maxDepth : m'.maxDepth = m.maxDepth := by rfl
  pacing : m'.pacing = m.pacing := by rfl
  unit : m'.unit = m.unit := by rfl
  nil : m'.nil = m.nil := by rfl

namespace Act

variable {α β ε : Type}

/-- The action gives the same with other files, and ends with the same machine but for these. -/
def Blind (x : Act α) : Prop :=
  ∀ (m : Machine) files, x.run (m.withFiles files) = ((x.run m).1, (x.run m).2.withFiles files)

/-- A property of actions that simple actions have and composition keeps. -/
structure Discipline where
  Obeys {α : Type} : Act α → Prop
  /-- The indices from which on pins may be dropped. -/
  Drops : Nat → Prop
  pure {α : Type} (a : α) : Obeys (Pure.pure a)
  bind {α β : Type} {x : Act α} {f : α → Act β} : Obeys x → (∀ a, Obeys (f a)) → Obeys (x >>= f)
  /-- After looking at the machine, but not at its files. -/
  get {β : Type} {f : Machine → Act β} : (∀ m files, f (m.withFiles files) = f m) → (∀ m, Obeys (f m)) →
    Obeys (MonadState.get >>= f)
  aside {α : Type} {x : Act α} : (∀ m : Machine, m.SameStore (x.run m).2) → x.Blind → Obeys x
  mark {β : Type} {f : Nat → Act β} : (∀ mark, Drops mark → Obeys (f mark)) → Obeys (pinMark >>= f)
  unpinTo {mark : Nat} : Drops mark → Obeys (unpinTo mark)
  pin (r : Ref) : Obeys (pin r)
  pinAll (rs : List Ref) : Obeys (pinAll rs)
  alloc {o : Object} : o.isFunction = false → Obeys (alloc o)
  dictPut (d : Ref) (key : Text) (v : Ref) : Obeys (dictPut d key v)
  dictErase (d : Ref) (key : Text) : Obeys (dictErase d key)

variable {D : Discipline}

theorem obeys_object {f : Object → Act β} (r : Ref) (hf : ∀ o, D.Obeys (f o)) : D.Obeys (Act.object r >>= f) :=
  D.get (f := fun m => f (m.object r)) (fun _ _ => rfl) fun m => hf (m.object r)

theorem obeys_args (f : FrameId) : D.Obeys (args f) := by
  refine D.get (fun _ _ => rfl) fun m => ?_
  split
  · exact D.pure _
  · split <;> exact D.pure _

theorem obeys_note (t : Text) : D.Obeys (note t) := by
  refine D.aside (fun m => ?_) fun m files => ?_
  · show m.SameStore (if m.verbose then { m with notes := t :: m.notes } else m)
    split <;> exact {}
  · show ((), if m.verbose then { m.withFiles files with notes := t :: m.notes } else m.withFiles files)
      = ((), (if m.verbose then { m with notes := t :: m.notes } else m).withFiles files)
    split <;> rfl

theorem obeys_print (t : Text) : D.Obeys (print t) := by
  refine D.get (fun _ _ => rfl) fun m => ?_
  split
  · exact D.pure _
  · exact D.bind (D.aside (fun _ => {}) fun _ _ => rfl) fun _ => D.pure _

theorem obeys_readClock : D.Obeys readClock := by
  rw [readClock]
  generalize clockTick = tick
  exact D.aside (fun _ => {}) fun _ _ => rfl

/-- Allocating is a step of a discipline, except for functions. -/
theorem obeys_allocHolding {o : Object} (ho : o.isFunction = false) (parts : List Ref) :
    D.Obeys (allocHolding o parts) :=
  D.mark fun _ hmark => D.bind (D.pinAll parts) fun _ => D.bind (D.alloc ho) fun r =>
    D.bind (D.unpinTo hmark) fun _ => D.pure r

/-- An error value is allocated like any other. -/
theorem obeys_newError (t : Text) : D.Obeys (newError t) := D.alloc rfl

/-! ## Actions that can fail -/

/-- The same for an action that can fail, whether it does or not. -/
def Discipline.ObeysTry (D : Discipline) (x : ExceptT ε Act α) : Prop := D.Obeys x.run

namespace Discipline.ObeysTry

variable {x : ExceptT ε Act α} {f : α → ExceptT ε Act β}

theorem bind (hx : D.ObeysTry x) (hf : ∀ a, D.ObeysTry (f a)) : D.ObeysTry (x >>= f) := by
  rw [ObeysTry, ExceptT.run_bind]
  refine D.bind hx fun a => ?_
  cases a with
  | ok a => exact hf a
  | error e => exact D.pure _

theorem pure (a : α) : D.ObeysTry (Pure.pure a : ExceptT ε Act α) := D.pure _

theorem throw (e : ε) : D.ObeysTry (MonadExcept.throw e : ExceptT ε Act α) := D.pure _

/-- Nothing follows a failure. -/
theorem throw_bind (e : ε) : D.ObeysTry (MonadExcept.throw e >>= f) := D.pure _

/-- An action that cannot fail, as the last. -/
theorem last {y : Act α} (hy : D.Obeys y) : D.ObeysTry (liftM y : ExceptT ε Act α) := D.bind hy fun _ => D.pure _

/-- After an action that cannot fail. -/
theorem lift {y : Act α} (hy : D.Obeys y) (hf : ∀ a, D.ObeysTry (f a)) : D.ObeysTry (liftM y >>= f) :=
  bind (last hy) hf

theorem get {f : Machine → ExceptT ε Act β} (hblind : ∀ m files, f (m.withFiles files) = f m)
    (hf : ∀ m, D.ObeysTry (f m)) : D.ObeysTry (MonadState.get >>= f) :=
  D.get (f := fun m => (f m).run) hblind hf

theorem object {f : Object → ExceptT ε Act β} (r : Ref) (hf : ∀ o, D.ObeysTry (f o)) :
    D.ObeysTry (liftM (Act.object r) >>= f) :=
  obeys_object (f := fun o => (f o).run) r hf

theorem mark {f : Nat → ExceptT ε Act β} (hf : ∀ mark, D.Drops mark → D.ObeysTry (f mark)) :
    D.ObeysTry (liftM pinMark >>= f) :=
  D.mark (f := fun mark => (f mark).run) hf

/-- The pins of an action that can fail are dropped at its end. -/
theorem dropping (hx : D.ObeysTry x) :
    D.Obeys (do let mark ← pinMark; let a ← x.run; Act.unpinTo mark; return a : Act (Except ε α)) :=
  D.mark fun _ hmark => D.bind hx fun a => D.bind (D.unpinTo hmark) fun _ => D.pure a

end Discipline.ObeysTry

/-! ## Actions that consume bytes -/

/-- The same for an action that consumes bytes. -/
def Discipline.ObeysRead (D : Discipline) (x : Unpack α) : Prop := ∀ bs, D.ObeysTry (x.run bs)

namespace Discipline.ObeysRead

variable {x : Unpack α} {f : α → Unpack β}

theorem bind (hx : D.ObeysRead x) (hf : ∀ a, D.ObeysRead (f a)) : D.ObeysRead (x >>= f) := by
  intro bs
  rw [StateT.run_bind]
  exact (hx bs).bind fun a => hf a.1 a.2

theorem pure (a : α) : D.ObeysRead (Pure.pure a) := fun _ => ObeysTry.pure _

theorem throw (e : UnpackError) : D.ObeysRead (MonadExcept.throw e : Unpack α) := fun _ => ObeysTry.throw e

/-- Nothing follows a failure. -/
theorem throw_bind (e : UnpackError) : D.ObeysRead (MonadExcept.throw e >>= f) := fun _ => D.pure _

theorem lift {y : Act α} (hy : D.Obeys y) : D.ObeysRead (liftM y) := by
  intro bs
  have hrun : D.ObeysTry (ε := UnpackError) (liftM y >>= fun a => Pure.pure (a, bs)) := .lift hy fun _ => .pure _
  exact hrun

theorem act {y : Act α} (hy : D.Obeys y) (hf : ∀ a, D.ObeysRead (f a)) : D.ObeysRead (liftM y >>= f) :=
  bind (lift hy) hf

end Discipline.ObeysRead

end Act

end TinyScript
