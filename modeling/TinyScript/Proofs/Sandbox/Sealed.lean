import TinyScript.Proofs.Discipline.Native
import TinyScript.Proofs.Heap.Every

/-!
# Actions that leave the files alone

A machine is confined if no function on its heap is a primitive that works on files. On such a machine an action is
sealed if it leaves it confined and, with other files, gives the same result and ends with the same machine but for the
files (`Act.Sealed`). So it does not change the files either (`Act.Sealed.files_eq`). One invariant is enough: only
functions of the language and functions that are registered at the start are ever allocated.
-/

namespace TinyScript

/-! ## Confined machines -/

/-- Whether a function is such a primitive. -/
def Function.usesFiles (f : Function) : Bool :=
  match f.code with
  | .native op => op.usesFiles
  | .script .. => false

/-- Whether an object is such a function. -/
def Object.usesFiles : Object → Bool
  | .function f => f.usesFiles
  | _ => false

theorem Object.usesFiles_of_isFunction {o : Object} (ho : o.isFunction = false) : o.usesFiles = false := by
  cases o <;> first | rfl | cases ho

/-- No object is a function that works on files. -/
def Machine.Confined (m : Machine) : Prop := m.heap.Every fun o => o.usesFiles = false

/-- Nothing that can be looked up works on files. -/
theorem Machine.Confined.object {m : Machine} (hm : m.Confined) (r : Ref) : (m.object r).usesFiles = false := by
  rw [Machine.object]
  cases ho : m.heap.get? r with
  | none => rfl
  | some o => exact hm.get? ho

/-! ## Sealed actions -/

namespace Act

variable {α β : Type}

/-- On a confined machine the action leaves the machine confined, and with other files it does the
same. -/
structure Sealed (x : Act α) : Prop where
  confined : ∀ {m : Machine}, m.Confined → (x.run m).2.Confined
  blind : ∀ {m : Machine}, m.Confined → ∀ files,
    x.run (m.withFiles files) = ((x.run m).1, (x.run m).2.withFiles files)

namespace Sealed

/-- With its own files for the other ones: they are the same afterwards. -/
theorem files_eq {x : Act α} (hx : x.Sealed) {m : Machine} (hm : m.Confined) : (x.run m).2.files = m.files := by
  have hself : x.run m = ((x.run m).1, (x.run m).2.withFiles m.files) := hx.blind hm m.files
  exact congrArg (fun y => y.2.files) hself

theorem pure (a : α) : Sealed (Pure.pure a) := ⟨fun hm => hm, fun _ _ => rfl⟩

/-- The second part begins on a confined machine. -/
theorem bind {x : Act α} {f : α → Act β} (hx : x.Sealed) (hf : ∀ a, (f a).Sealed) : (x >>= f).Sealed where
  confined hm := (hf _).confined (hx.confined hm)
  blind {m} hm files := by
    calc (x >>= f).run (m.withFiles files)
      _ = (f (x.run (m.withFiles files)).1).run (x.run (m.withFiles files)).2 := rfl
      _ = (f (x.run m).1).run ((x.run m).2.withFiles files) := by rw [hx.blind hm]
      _ = _ := (hf _).blind (hx.confined hm) files

/-- After looking at the machine, but not at its files. -/
theorem get {f : Machine → Act β} (hblind : ∀ m files, f (m.withFiles files) = f m)
    (hf : ∀ m, m.Confined → (f m).Sealed) : (MonadState.get >>= f).Sealed where
  confined {m} hm := (hf m hm).confined hm
  blind {m} hm files := by
    calc (MonadState.get >>= f).run (m.withFiles files)
      _ = (f (m.withFiles files)).run (m.withFiles files) := rfl
      _ = (f m).run (m.withFiles files) := by rw [hblind]
      _ = _ := (hf m hm).blind hm files

/-- A change that neither looks at the files nor allocates. -/
theorem modifyGet {f : Machine → α × Machine} (hf : ∀ m, m.Confined → (f m).2.Confined)
    (hblind : ∀ m files, f (m.withFiles files) = ((f m).1, (f m).2.withFiles files)) :
    Sealed (MonadState.modifyGet f) :=
  ⟨fun hm => hf _ hm, fun _ files => hblind _ files⟩

theorem update {f : Machine → Machine} (hf : ∀ m, m.Confined → (f m).Confined)
    (hblind : ∀ m files, f (m.withFiles files) = (f m).withFiles files) : Sealed (modify f) :=
  ⟨fun hm => hf _ hm, fun _ files => congrArg (Prod.mk PUnit.unit) (hblind _ files)⟩

end Sealed

/-! ## Pins, frames, notes and printing -/

/-- An action that changes neither the heap nor the files and does not look at the files. -/
theorem sealed_of_heap {x : Act α} (hheap : ∀ m, (x.run m).2.heap = m.heap)
    (hblind : ∀ m files, x.run (m.withFiles files) = ((x.run m).1, (x.run m).2.withFiles files)) : x.Sealed where
  confined {m} hm := by
    rw [Machine.Confined, hheap]
    exact hm
  blind _ := hblind _

theorem sealed_note (t : Text) : (note t).Sealed := by
  refine sealed_of_heap (fun m => ?_) fun m files => ?_
  · show (if m.verbose then { m with notes := t :: m.notes } else m).heap = m.heap
    split <;> rfl
  · show ((), if m.verbose then { m.withFiles files with notes := t :: m.notes } else m.withFiles files)
      = ((), (if m.verbose then { m with notes := t :: m.notes } else m).withFiles files)
    split <;> rfl

theorem sealed_pinMark : pinMark.Sealed := sealed_of_heap (fun _ => rfl) fun _ _ => rfl

theorem sealed_pin (r : Ref) : (pin r).Sealed := sealed_of_heap (fun _ => rfl) fun _ _ => rfl

theorem sealed_pinAll (rs : List Ref) : (pinAll rs).Sealed := sealed_of_heap (fun _ => rfl) fun _ _ => rfl

theorem sealed_repin (i : Nat) (r : Ref) : (repin i r).Sealed := sealed_of_heap (fun _ => rfl) fun _ _ => rfl

theorem sealed_unpinTo (mark : Nat) : (unpinTo mark).Sealed := sealed_of_heap (fun _ => rfl) fun _ _ => rfl

/-- Frames bind references, and no functions. -/
theorem sealed_fork (parent : FrameId) : (fork parent).Sealed := sealed_of_heap (fun _ => rfl) fun _ _ => rfl

theorem sealed_bind (f : FrameId) (name : Text) (r : Ref) : (Act.bind f name r).Sealed :=
  sealed_of_heap (fun _ => rfl) fun _ _ => rfl

theorem sealed_assign (f : FrameId) (name : Text) (r : Ref) : (assign f name r).Sealed :=
  sealed_of_heap (fun _ => rfl) fun _ _ => rfl

theorem sealed_leave (f : FrameId) : (leave f).Sealed := sealed_of_heap (fun _ => rfl) fun _ _ => rfl

/-! ## Collection -/

end Act

namespace Machine

theorem sweepSlot_withFiles (m : Machine) (files : Host.Files) (i : Nat) :
    (m.withFiles files).sweepSlot i = ((m.sweepSlot i).1.withFiles files, (m.sweepSlot i).2) := by
  have hheap : (m.withFiles files).heap = m.heap := rfl
  rw [Machine.sweepSlot, Machine.sweepSlot, hheap]
  cases m.heap.slots[i]? with
  | none => rfl
  | some s => cases hflag : s.flag <;> simp only [hflag] <;> rfl

/-- Sweeping looks at flags and links only. -/
theorem sweep_withFiles (m : Machine) (files : Host.Files) :
    (m.withFiles files).sweep = (m.sweep.1.withFiles files, m.sweep.2) := by
  have hfrom (fuel : Nat) : ∀ (next : Option Nat) (mn : Machine × Nat),
      walkFrom sweepSlot fuel next (mn.1.withFiles files, mn.2)
        = ((walkFrom sweepSlot fuel next mn).1.withFiles files, (walkFrom sweepSlot fuel next mn).2) := by
    induction fuel with
    | zero =>
      intro next mn
      cases next <;> rfl
    | succ fuel ih =>
      intro next mn
      cases next with
      | none => rfl
      | some i =>
        rw [walkFrom, walkFrom, sweepSlot_withFiles]
        exact ih _ (_, _)
  exact hfrom _ _ (m, 0)

end Machine

namespace Act

variable {α β : Type}

theorem sealed_markAll : markAll.Sealed := .modifyGet (fun m hm => Heap.Every.fades hm m.fades_mark) fun _ _ => rfl

theorem sealed_sweep : Act.sweep.Sealed := by
  refine .modifyGet (fun m hm => Heap.Every.fades hm m.fades_sweep) fun m files => ?_
  rw [Machine.sweep_withFiles]

/-- Collecting frees objects and makes none. -/
theorem sealed_forceCollect : forceCollect.Sealed := by
  refine .bind sealed_markAll fun marked => .bind sealed_sweep fun collected => ?_
  refine .get (fun _ _ => rfl) fun m _ => .bind (sealed_of_heap (fun _ => rfl) fun _ _ => rfl) fun _ => ?_
  exact .get (fun _ _ => rfl) fun m _ => .bind (sealed_note _) fun _ => .pure _

theorem sealed_collect : collect.Sealed := by
  refine .get (fun _ _ => rfl) fun m _ => ?_
  split
  · exact sealed_forceCollect
  · exact .pure _

/-! ## Allocation -/

/-- Allocating is where functions come from. -/
theorem sealed_allocRaw {o : Object} (ho : o.usesFiles = false) (isRoot : Bool) : (allocRaw o isRoot).Sealed :=
  .modifyGet (fun _ hm => Heap.Every.alloc hm ho isRoot) fun _ _ => rfl

theorem sealed_alloc {o : Object} (ho : o.usesFiles = false) : (alloc o).Sealed :=
  sealed_collect.bind fun _ => sealed_allocRaw ho false

/-- Dicts hold references. -/
theorem sealed_dictPut (d : Ref) (key : Text) (v : Ref) : (dictPut d key v).Sealed := by
  refine .get (fun _ _ => rfl) fun m _ => ?_
  split
  · next t _ =>
    refine .bind (.update (fun m hm => Heap.Every.set hm d rfl) fun _ _ => rfl) fun _ => ?_
    split
    · exact sealed_note _
    · exact .pure _
  · exact .pure _

theorem sealed_dictErase (d : Ref) (key : Text) : (dictErase d key).Sealed := by
  refine .get (fun _ _ => rfl) fun m _ => ?_
  split
  · split
    · exact .bind (.update (fun m hm => Heap.Every.set hm d rfl) fun _ _ => rfl) fun _ => .pure _
    · exact .pure _
  · exact .pure _

/-- Sealed actions, as a discipline. -/
def sealing : Discipline where
  Obeys := Sealed
  Drops _ := True
  pure := .pure
  bind := .bind
  get hblind hf := .get hblind fun m _ => hf m
  aside hstore hblind := sealed_of_heap (fun m => (hstore m).heap) hblind
  mark hf := sealed_pinMark.bind fun mark => hf mark trivial
  unpinTo _ := sealed_unpinTo _
  pin := sealed_pin
  pinAll := sealed_pinAll
  alloc ho := sealed_alloc (Object.usesFiles_of_isFunction ho)
  dictPut := sealed_dictPut
  dictErase := sealed_dictErase

end Act

end TinyScript
