import TinyScript.Proofs.Discipline.Native
import TinyScript.Proofs.Evolution.Outcome
import TinyScript.Proofs.Heap.Every
import TinyScript.Proofs.Twin.Node

/-!
# What becomes of a machine

`Machine.Evolves floor own m m'` lists everything that an evaluation may do to a machine. Pins change from index
`floor` on; those below belong to evaluations around this one. Names are bound in the frames of `own` only, which the
evaluation itself has made and has not left yet. A property of evaluations is then an induction over this relation. To
do nothing else is a discipline of actions (`Act.evolution`).
-/

namespace TinyScript

/-- What an evaluation may make of a machine. -/
inductive Machine.Evolves (floor : Nat) : List FrameId → Machine → Machine → Prop
  | refl {own : List FrameId} (m : Machine) : Evolves floor own m m
  | trans {own : List FrameId} {m₁ m₂ m₃ : Machine} :
    Evolves floor own m₁ m₂ → Evolves floor own m₂ m₃ → Evolves floor own m₁ m₃
  | aside {own : List FrameId} {m m' : Machine} (h : m.SameStore m') : Evolves floor own m m'
  | collect {own : List FrameId} {m : Machine} (h : m.pacing.due m.moment) :
    Evolves floor own m m.mark.1.sweep.1
  | alloc {own : List FrameId} {m : Machine} (o : Object) (ho : o.closure? = none) :
    Evolves floor own m { m with heap := (m.heap.alloc o false).1 }
  /-- A function takes the frame with its captured names, which was made just for it. -/
  | lambda {own : List FrameId} {m m' : Machine} (params : List Text) (body : Syntax.Expr) (bs : List (Text × Ref)) :
    Evolves floor own { m with frames := (m.frames.newClosure bs).1 } m' →
    Evolves floor own m { m' with
      heap := (m'.heap.alloc (.function ⟨.empty, .script params body (some m.frames.arena.size)⟩) false).1 }
  | define {own : List FrameId} {m : Machine} (d : Syntax.Def) : Evolves floor own m ((Eval.define d).run m).2
  | setDict {own : List FrameId} {m : Machine} {d : Ref} {t : Table Ref} (t' : Table Ref)
    (hd : m.heap.get? d = some (.dict t)) : Evolves floor own m { m with heap := m.heap.set d (.dict t') }
  | pins {own : List FrameId} {m : Machine} {pins : Array Ref} (hsize : floor ≤ pins.size)
    (hpins : ∀ i < floor, pins[i]? = m.pins[i]?) : Evolves floor own m { m with pins := pins }
  | bind {own : List FrameId} {m : Machine} {f : FrameId} (bs : List (Text × Ref)) (hf : f ∈ own) :
    Evolves floor own m { m with frames := m.frames.bindAll f bs }
  | frame {own : List FrameId} {m m' : Machine} (parent : FrameId) :
    Evolves floor (m.frames.arena.size :: own) ((Act.fork parent).run m).2 m' →
    Evolves floor own m ((Act.leave m.frames.arena.size).run m').2
  | call {own : List FrameId} {m m' : Machine} :
    Evolves floor own { m with depth := m.depth + 1 } m' → Evolves floor own m { m' with depth := m'.depth - 1 }

namespace Machine.Evolves

variable {floor : Nat} {own : List FrameId} {m m' : Machine}

/-- More pins may change, and more frames be used. -/
theorem mono (h : m.Evolves floor own m') {floor' : Nat} {own' : List FrameId} (hfloor : floor' ≤ floor)
    (hown : own ⊆ own') : m.Evolves floor' own' m' := by
  induction h generalizing own' with
  | refl => exact .refl _
  | trans _ _ ih ih' => exact .trans (ih hown) (ih' hown)
  | aside h => exact .aside h
  | collect h => exact .collect h
  | alloc o ho => exact .alloc o ho
  | lambda params body bs _ ih => exact .lambda params body bs (ih hown)
  | define d => exact .define d
  | setDict t' hd => exact .setDict t' hd
  | pins hsize hpins => exact .pins (by omega) fun i hi => hpins i (by omega)
  | bind bs hf => exact .bind bs (hown hf)
  | frame parent _ ih => exact .frame parent (ih (List.cons_subset_cons _ hown))
  | call _ ih => exact .call (ih hown)

end Machine.Evolves

theorem Machine.SameStore.note (m : Machine) (t : Text) : m.SameStore ((Act.note t).run m).2 := by
  show m.SameStore (if m.verbose then { m with notes := t :: m.notes } else m)
  split <;> exact {}

/-- Apart from marking and sweeping, a collection only counts and notes. -/
theorem Machine.SameStore.forceCollect (m : Machine) : m.mark.1.sweep.1.SameStore (Act.forceCollect.run m).2 := by
  have hcounts (m' : Machine) (totals : Collection) (t : Text) :
      m'.SameStore ((Act.note t).run { m' with totals := totals }).2 :=
    { Machine.SameStore.note { m' with totals := totals } t with }
  exact hcounts _ _ _

/-! ### Dicts -/

/-- Nothing happened but that the entries of a dict changed, if it is one, and what is aside. -/
def Machine.SetsDict (d : Ref) (m m' : Machine) : Prop :=
  m' = m ∨ ∃ t t', m.heap.get? d = some (.dict t) ∧ SameStore { m with heap := m.heap.set d (.dict t') } m'

/-- After looking at the machine. -/
theorem Machine.SetsDict.look {β : Type} {f : Machine → Act β} {d : Ref} {m : Machine}
    (h : m.SetsDict d ((f m).run m).2) : m.SetsDict d ((MonadState.get >>= f : Act β).run m).2 :=
  h

theorem Machine.setsDict_dictPut (m : Machine) (d : Ref) (key : Text) (v : Ref) :
    m.SetsDict d ((Act.dictPut d key v).run m).2 := by
  refine .look ?_
  split
  · next t hd =>
    generalize t.put key v = a
    obtain ⟨t', growth⟩ := a
    cases growth with
    | none => exact .inr ⟨t, t', hd, {}⟩
    | some g => exact .inr ⟨t, t', hd, .note _ _⟩
  · exact .inl rfl

theorem Machine.setsDict_dictErase (m : Machine) (d : Ref) (key : Text) :
    m.SetsDict d ((Act.dictErase d key).run m).2 := by
  refine .look ?_
  split
  · next t hd =>
    split
    · next t' _ => exact .inr ⟨t, t', hd, {}⟩
    · exact .inl rfl
  · exact .inl rfl

/-- The function that a definition defines. -/
def Syntax.Def.object (d : Syntax.Def) : Object := .function ⟨d.name, .script d.params d.body none⟩

/-! ## What stays as it is -/

namespace Machine

/-- A sweep changes the heap and the frames only. -/
theorem sweep_frame (m : Machine) : ∃ heap frames, m.sweep.1 = { m with heap := heap, frames := frames } := by
  refine walk_induction (Q := fun m' => ∃ heap frames, m' = { m with heap := heap, frames := frames }) ?_
    ⟨m.heap, m.frames, rfl⟩
  rintro _ i ⟨heap, frames, rfl⟩
  rw [sweepSlot]
  split
  · exact ⟨_, _, rfl⟩
  · split <;> exact ⟨_, _, rfl⟩

theorem released_eq (m : Machine) (name : Text) : ∃ heap, Eval.released name m = { m with heap := heap } ∧
    (heap = m.heap ∨ ∃ old, m.heap.setRoot? old false = some heap) := by
  rw [Eval.released]
  split
  · exact ⟨_, rfl, .inl rfl⟩
  · split
    · next old _ _ heap hheap => exact ⟨heap, rfl, .inr ⟨old, hheap⟩⟩
    · exact ⟨_, rfl, .inl rfl⟩

/-- A definition allocates a root, binds it in the global frame, and may unroot what the name was bound to. -/
theorem define_run (m : Machine) (d : Syntax.Def) : ∃ heap,
    (Eval.define d).run m = ((m.heap.alloc d.object true).2, { m with
      heap := heap, frames := m.frames.set Frames.global d.name (m.heap.alloc d.object true).2 }) ∧
    (heap = (m.heap.alloc d.object true).1 ∨ ∃ old, (m.heap.alloc d.object true).1.setRoot? old false = some heap) := by
  obtain ⟨heap, hreleased, hheap⟩ := released_eq ((Act.allocRaw d.object true).run m).2 d.name
  refine ⟨heap, ?_, hheap⟩
  show (((Act.allocRaw d.object true).run m).1,
    { Eval.released d.name ((Act.allocRaw d.object true).run m).2 with
      frames := (Eval.released d.name ((Act.allocRaw d.object true).run m).2).frames.set Frames.global d.name
        ((Act.allocRaw d.object true).run m).1 }) = _
  rw [hreleased]
  rfl

end Machine

namespace Machine.Evolves

variable {floor : Nat} {own : List FrameId} {m m' : Machine}

/-- The pins below the floor stay. -/
theorem pins_below (h : m.Evolves floor own m') (hfloor : floor ≤ m.pins.size) :
    floor ≤ m'.pins.size ∧ ∀ i < floor, m'.pins[i]? = m.pins[i]? := by
  induction h with
  | refl => exact ⟨hfloor, fun _ _ => rfl⟩
  | trans _ _ ih ih' =>
    obtain ⟨hsize, hpins⟩ := ih hfloor
    obtain ⟨hsize', hpins'⟩ := ih' hsize
    exact ⟨hsize', fun i hi => (hpins' i hi).trans (hpins i hi)⟩
  | aside h =>
    rw [h.pins]
    exact ⟨hfloor, fun _ _ => rfl⟩
  | @collect _ m _ =>
    obtain ⟨heap, frames, hsweep⟩ := m.mark.1.sweep_frame
    rw [hsweep]
    exact ⟨hfloor, fun _ _ => rfl⟩
  | @define _ m d =>
    obtain ⟨heap, hrun, -⟩ := m.define_run d
    rw [hrun]
    exact ⟨hfloor, fun _ _ => rfl⟩
  | pins hsize hpins => exact ⟨hsize, hpins⟩
  | alloc | setDict | bind => exact ⟨hfloor, fun _ _ => rfl⟩
  | lambda _ _ _ _ ih | frame _ _ ih | call _ ih => exact ih hfloor

/-- Pins below the floor stay. -/
theorem floor_le (h : m.Evolves floor own m') (hfloor : floor ≤ m.pins.size) : floor ≤ m'.pins.size :=
  (h.pins_below hfloor).1

/-- No evaluation changes how the collector is paced, nor the shared objects. -/
theorem unchanged (h : m.Evolves floor own m') :
    m'.pacing = m.pacing ∧ m'.unit = m.unit ∧ m'.nil = m.nil := by
  induction h with
  | trans _ _ ih ih' => exact ⟨ih'.1.trans ih.1, ih'.2.1.trans ih.2.1, ih'.2.2.trans ih.2.2⟩
  | aside h => exact ⟨h.pacing, h.unit, h.nil⟩
  | @collect _ m _ =>
    obtain ⟨heap, frames, hsweep⟩ := m.mark.1.sweep_frame
    rw [hsweep]
    exact ⟨rfl, rfl, rfl⟩
  | @define _ m d =>
    obtain ⟨heap, hrun, -⟩ := m.define_run d
    rw [hrun]
    exact ⟨rfl, rfl, rfl⟩
  | refl | alloc | setDict | pins | bind => exact ⟨rfl, rfl, rfl⟩
  | lambda _ _ _ _ ih | frame _ _ ih | call _ ih => exact ih

end Machine.Evolves

/-! ## Actions -/

namespace Act

variable {α β : Type} {floor : Nat} {own : List FrameId}

/-- What the action does to a machine, an evaluation may do. -/
def Evolves (floor : Nat) (own : List FrameId) (x : Act α) : Prop :=
  ∀ m : Machine, floor ≤ m.pins.size → m.Evolves floor own (x.run m).2

namespace Evolves

theorem pure (a : α) : Evolves floor own (Pure.pure a) := fun m _ => .refl m

theorem bind {x : Act α} {f : α → Act β} (hx : x.Evolves floor own) (hf : ∀ a, (f a).Evolves floor own) :
    (x >>= f).Evolves floor own := by
  intro m hm
  have hfirst : m.Evolves floor own (x.run m).2 := hx m hm
  exact hfirst.trans (hf _ _ (hfirst.floor_le hm))

theorem get {f : Machine → Act β} (hf : ∀ m, (f m).Evolves floor own) : (MonadState.get >>= f).Evolves floor own :=
  fun m hm => hf m m hm

theorem aside {x : Act α} (hx : ∀ m : Machine, m.SameStore (x.run m).2) : x.Evolves floor own :=
  fun m _ => .aside (hx m)

end Evolves

/-! ### Pins -/

/-- After counting the pins. Those below the floor are among them. -/
theorem Evolves.mark {f : Nat → Act β} (hf : ∀ mark, floor ≤ mark → (f mark).Evolves floor own) :
    (pinMark >>= f).Evolves floor own :=
  fun m hm => hf m.pins.size hm m hm

theorem evolves_pinAll (rs : List Ref) : (pinAll rs).Evolves floor own := by
  intro m hm
  have hpins : (m.pins ++ rs).toList = m.pins.toList ++ rs := Array.toList_appendList
  show m.Evolves floor own { m with pins := m.pins ++ rs }
  refine .pins ?_ fun i hi => ?_
  · rw [← Array.length_toList, hpins, List.length_append, Array.length_toList]
    omega
  · rw [← Array.getElem?_toList, hpins, List.getElem?_append_left (by rw [Array.length_toList]; omega),
      Array.getElem?_toList]

theorem evolves_pin (r : Ref) : (pin r).Evolves floor own := by
  intro m hm
  have hsize : (m.pins.push r).size = m.pins.size + 1 := Array.size_push r
  show m.Evolves floor own { m with pins := m.pins.push r }
  refine .pins (by omega) fun i hi => ?_
  have hi' : i ≠ m.pins.size := by omega
  simp [Array.getElem?_push, hi']

theorem evolves_repin {i : Nat} (hi : floor ≤ i) (r : Ref) : (repin i r).Evolves floor own := by
  intro m hm
  show m.Evolves floor own { m with pins := m.pins.setIfInBounds i r }
  refine .pins ?_ fun j hj => ?_
  · rwa [Array.size_setIfInBounds]
  · exact Array.getElem?_setIfInBounds_ne (by omega)

theorem evolves_unpinTo {mark : Nat} (hmark : floor ≤ mark) : (unpinTo mark).Evolves floor own := by
  intro m hm
  have hsize : (m.pins.shrink mark).size = min mark m.pins.size := Array.size_shrink
  show m.Evolves floor own { m with pins := m.pins.shrink mark }
  refine .pins (by omega) fun i hi => ?_
  have hi' : i < mark := by omega
  simp [Array.getElem?_extract, hi']

theorem evolves_bind {f : FrameId} (hf : f ∈ own) (name : Text) (r : Ref) : (Act.bind f name r).Evolves floor own :=
  fun _ _ => .bind [(name, r)] hf

/-! ### Collection and allocation -/

theorem evolves_collect : collect.Evolves floor own := by
  intro m hm
  rw [Machine.collect_run]
  split
  · next hdue =>
    exact .trans (.collect hdue) (.aside (.forceCollect m))
  · exact .refl m

theorem evolves_allocRaw {o : Object} (ho : o.closure? = none) : (allocRaw o false).Evolves floor own :=
  fun _ _ => .alloc o ho

theorem evolves_alloc {o : Object} (ho : o.closure? = none) : (alloc o).Evolves floor own :=
  evolves_collect.bind fun _ => evolves_allocRaw ho

theorem evolves_of_setsDict {d : Ref} {x : Act α} (hx : ∀ m : Machine, m.SetsDict d (x.run m).2) :
    x.Evolves floor own := by
  intro m _
  rcases hx m with hrun | ⟨t, t', hd, hstore⟩
  · rw [hrun]
    exact .refl m
  · exact .trans (.setDict t' hd) (.aside hstore)

/-- Only functions have captured names. -/
theorem closure?_of_isFunction {o : Object} (ho : o.isFunction = false) : o.closure? = none := by
  cases o <;> first | rfl | cases ho

/-- What an evaluation may do, as a discipline. Pins below the floor are not to be dropped. -/
def evolution (floor : Nat) (own : List FrameId) : Discipline where
  Obeys := Evolves floor own
  Drops mark := floor ≤ mark
  pure := .pure
  bind := .bind
  get _ hf := .get hf
  aside hstore _ := .aside hstore
  mark := .mark
  unpinTo := evolves_unpinTo
  pin := evolves_pin
  pinAll := evolves_pinAll
  alloc ho := evolves_alloc (closure?_of_isFunction ho)
  dictPut d key v := evolves_of_setsDict fun m => m.setsDict_dictPut d key v
  dictErase d key := evolves_of_setsDict fun m => m.setsDict_dictErase d key

theorem seesFiles_evolution : (evolution floor own).SeesFiles := ⟨.get, .aside⟩

end Act

end TinyScript
