import TinyScript.Proofs.Evolution.Mutation
import TinyScript.Proofs.Syntax.Node

/-!
# Rooms

Every frame but the global one was made for something: for an evaluation, which binds names in it and leaves it at the
end, or for the names that a function has captured. A list of `Room`s records this, with the names that may be bound
in a frame and in the frames below it.

`Machine.Course` lists what may happen to a machine, together with its rooms. Unlike `Machine.Evolves` it can be
followed through an evaluation step by step. The record stays right (`Machine.Course.kept`).
-/

namespace TinyScript

open Syntax (Expr)
open Frames (global)

variable {o : Object} {room : Room}

/-! ## Names that are bound -/

namespace Syntax.Expr

/-- The names that a node binds in a frame of its own. -/
def binders : Expr → List Text
  | letIn assigns _ => assigns.map Prod.fst
  | forIn handle _ _ _ => [handle]
  | reduce carry _ handle _ _ _ => [carry, handle]
  | _ => []

/-- The expressions directly inside an expression that are evaluated when it is. The body of a function is
not; it is evaluated in the frames of calls. -/
def parts : Expr → List Expr
  | lambda _ _ | define _ _ _ => []
  | e => e.children

/-- A name is bound somewhere in an expression, outside the functions in it. -/
inductive Binds : Expr → Text → Prop
  | own {e : Expr} {name : Text} : name ∈ e.binders → Binds e name
  | part {e c : Expr} {name : Text} : c ∈ e.parts → Binds c name → Binds e name

end Syntax.Expr

/-! ## Records of frames -/

/-- What a frame was made for. -/
structure Room where
  frame : FrameId
  /-- The names that may be bound in it, or, if it holds captured names, in frames below it. -/
  names : Text → Prop
  captured : Bool

/-- What frames were made for, the latest first. -/
abbrev Rooms := List Room

/-- The room for captured names of a function. -/
def Room.ofFunction (f : FrameId) (params : List Text) (body : Expr) : Room :=
  ⟨f, fun name => name ∈ params ∨ body.Binds name, true⟩

namespace Rooms

variable {rooms rooms' : Rooms} {f : FrameId} {names names' : Text → Prop}

/-- Names may be bound below a frame. Below the global frame there is room for all. -/
def Allow (rooms : Rooms) (f : FrameId) (names : Text → Prop) : Prop :=
  f = global ∨ ∃ room ∈ rooms, room.frame = f ∧ ∀ name, names name → room.names name

theorem Allow.fewer (h : rooms.Allow f names) (hnames : ∀ name, names' name → names name) : rooms.Allow f names' := by
  refine h.imp_right ?_
  rintro ⟨room, hroom, hf, hallowed⟩
  exact ⟨room, hroom, hf, fun name hname => hallowed name (hnames name hname)⟩

theorem Allow.more (h : rooms.Allow f names) (hrooms : rooms ⊆ rooms') : rooms'.Allow f names := by
  refine h.imp_right ?_
  rintro ⟨room, hroom, hallowed⟩
  exact ⟨room, hrooms hroom, hallowed⟩

/-- A frame allows what it was made for. -/
theorem allow_self (rooms : Rooms) (f : FrameId) {names names' : Text → Prop}
    (hnames : ∀ name, names' name → names name) :
    Rooms.Allow (⟨f, names, false⟩ :: rooms) f names' :=
  .inr ⟨_, List.mem_cons_self, rfl, hnames⟩

end Rooms

/-- A function with captured names has its room. -/
def Code.Fits (rooms : Rooms) : Code → Prop
  | .script params body (some f) => .ofFunction f params body ∈ rooms
  | _ => True

theorem Code.Fits.more {rooms rooms' : Rooms} {code : Code} (h : code.Fits rooms) (hrooms : rooms ⊆ rooms') :
    code.Fits rooms' := by
  match code with
  | .script _ _ (some _) => exact hrooms h
  | .script _ _ none | .native _ => trivial

/-- An object that, if it is a function with captured names, has its room. -/
def Object.Fits (rooms : Rooms) : Object → Prop
  | .function f => f.code.Fits rooms
  | _ => True

theorem Object.Fits.more {rooms rooms' : Rooms} (h : o.Fits rooms) (hrooms : rooms ⊆ rooms') :
    o.Fits rooms' := by
  cases o with
  | function f => exact Code.Fits.more h hrooms
  | _ => trivial

theorem Object.fits_of_closure? {rooms : Rooms} (ho : o.closure? = none) : o.Fits rooms := by
  match o with
  | .function ⟨_, .script _ _ (some _)⟩ => cases ho
  | .function ⟨_, .script _ _ none⟩ | .function ⟨_, .native _⟩ => trivial
  | .unit | .nil | .bool _ | .u64 _ | .i64 _ | .f64 _ | .error _ | .string _ | .pair _ _ | .list _ | .dict _
  | .other _ _ => trivial

/-- Captured names have a room of their own. -/
theorem Object.Fits.exists_room {rooms : Rooms} (h : o.Fits rooms) {f : FrameId}
    (hf : o.closure? = some f) : ∃ room ∈ rooms, room.frame = f ∧ room.captured := by
  match o with
  | .function ⟨_, .script params body (some g)⟩ =>
    obtain rfl : g = f := Option.some.inj hf
    exact ⟨_, h, rfl, rfl⟩

/-! ## Frames with their rooms -/

/-- The rooms record what the frames were made for. -/
structure Rooms.Describe (rooms : Rooms) (fs : Frames) : Prop where
  global_lt : global < fs.arena.size
  global_top : fs.parent? global = none
  all : ∀ f < fs.arena.size, f = global ∨ ∃ room ∈ rooms, room.frame = f
  made : ∀ room ∈ rooms, room.frame ≠ global ∧ room.frame < fs.arena.size
  unique : ∀ room ∈ rooms, ∀ room' ∈ rooms, room.frame = room'.frame → room = room'
  parent : ∀ room ∈ rooms, ∃ p, fs.parent? room.frame = some p ∧ (room.captured → p = global) ∧
    rooms.Allow p room.names
  registered : ∀ f ∈ fs.registered, ∃ room ∈ rooms, room.frame = f ∧ room.captured = false
  binds : ∀ room ∈ rooms, room.captured = false → ∀ b ∈ fs.binds room.frame, room.names b.1

namespace Rooms.Describe

variable {rooms : Rooms} {fs fs' : Frames}

/-- A frame of captured names is no other room's. -/
theorem frame_ne (h : rooms.Describe fs) {room' : Room} (hroom : room ∈ rooms) (hroom' : room' ∈ rooms)
    (hcaptured : room.captured) (hcaptured' : room'.captured = false) : room'.frame ≠ room.frame := by
  intro heq
  rw [h.unique _ hroom' _ hroom heq, hcaptured] at hcaptured'
  cases hcaptured'

theorem notMem_registered (h : rooms.Describe fs) (hroom : room ∈ rooms)
    (hcaptured : room.captured) : room.frame ∉ fs.registered := by
  intro hmem
  obtain ⟨room', hroom', hframe, hcaptured'⟩ := h.registered _ hmem
  exact h.frame_ne hroom hroom' hcaptured hcaptured' hframe

/-- Bindings may come and go, as long as the names fit. -/
theorem rebind (h : rooms.Describe fs) (hsize : fs'.arena.size = fs.arena.size)
    (hparent : ∀ f, fs'.parent? f = fs.parent? f) (hregistered : fs'.registered ⊆ fs.registered)
    (hbinds : ∀ room ∈ rooms, room.captured = false → ∀ b ∈ fs'.binds room.frame,
      b ∈ fs.binds room.frame ∨ room.names b.1) : rooms.Describe fs' where
  global_lt := hsize ▸ h.global_lt
  global_top := (hparent _).trans h.global_top
  all f hf := h.all f (hsize ▸ hf)
  made room hroom := hsize ▸ h.made room hroom
  unique := h.unique
  parent room hroom := (hparent _).symm ▸ h.parent room hroom
  registered f hf := h.registered f (hregistered hf)
  binds room hroom hcaptured b hb := (hbinds room hroom hcaptured b hb).elim (h.binds room hroom hcaptured b) id

/-- A further frame takes a room of its own. -/
theorem make (h : rooms.Describe fs) {p : FrameId} (hframe : room.frame = fs.arena.size)
    (hsize : fs'.arena.size = fs.arena.size + 1)
    (hparent : ∀ f, fs'.parent? f = if f = fs.arena.size then some p else fs.parent? f)
    (hregistered : ∀ f ∈ fs'.registered, f ∈ fs.registered ∨ f = fs.arena.size ∧ room.captured = false)
    (hbinds : ∀ f, f ≠ fs.arena.size ∨ room.captured = false → fs'.binds f = fs.binds f)
    (hp : room.captured → p = global) (hallow : rooms.Allow p room.names) :
    Rooms.Describe (room :: rooms) fs' where
  global_lt := hsize ▸ Nat.lt_succ_of_lt h.global_lt
  global_top := by
    rw [hparent, if_neg (Nat.ne_of_lt h.global_lt)]
    exact h.global_top
  all f hf := by
    by_cases hlast : f = fs.arena.size
    · exact .inr ⟨room, List.mem_cons_self, hframe.trans hlast.symm⟩
    · refine (h.all f (by omega)).imp_right ?_
      rintro ⟨room', hroom', hf⟩
      exact ⟨room', List.mem_cons_of_mem _ hroom', hf⟩
  made := by
    refine List.forall_mem_cons.mpr ⟨?_, fun room' hroom' => ?_⟩
    · rw [hframe, hsize]
      exact ⟨Nat.ne_of_gt h.global_lt, Nat.lt_succ_self _⟩
    · obtain ⟨hne, hlt⟩ := h.made room' hroom'
      exact ⟨hne, hsize ▸ Nat.lt_succ_of_lt hlt⟩
  unique := by
    -- what is in the record already is in the arena already
    have hfresh (room' : Room) (hroom' : room' ∈ rooms) : room'.frame ≠ room.frame :=
      hframe ▸ Nat.ne_of_lt (h.made room' hroom').2
    refine List.forall_mem_cons.mpr ⟨?_, fun room' hroom' => ?_⟩
    · exact List.forall_mem_cons.mpr ⟨fun _ => rfl, fun room' hroom' heq => absurd heq.symm (hfresh room' hroom')⟩
    · exact List.forall_mem_cons.mpr ⟨fun heq => absurd heq (hfresh room' hroom'), h.unique room' hroom'⟩
  parent := by
    have hmore : rooms ⊆ room :: rooms := List.subset_cons_self _ _
    refine List.forall_mem_cons.mpr ⟨⟨p, by rw [hparent, if_pos hframe], hp, hallow.more hmore⟩, fun room' hroom' => ?_⟩
    obtain ⟨q, hq, hcaptured, hallow'⟩ := h.parent room' hroom'
    refine ⟨q, ?_, hcaptured, hallow'.more hmore⟩
    rw [hparent, if_neg (Nat.ne_of_lt (h.made room' hroom').2)]
    exact hq
  registered f hf := by
    rcases hregistered f hf with hf | ⟨rfl, hcaptured⟩
    · obtain ⟨room', hroom', hroom'f⟩ := h.registered f hf
      exact ⟨room', List.mem_cons_of_mem _ hroom', hroom'f⟩
    · exact ⟨room, List.mem_cons_self, hframe, hcaptured⟩
  binds := by
    refine List.forall_mem_cons.mpr ⟨fun hcaptured b hb => ?_, fun room' hroom' hcaptured b hb => ?_⟩
    · rw [hframe, hbinds _ (.inr hcaptured), Frames.binds_of_size_le le_rfl] at hb
      cases hb
    · rw [hbinds _ (.inl (Nat.ne_of_lt (h.made room' hroom').2))] at hb
      exact h.binds room' hroom' hcaptured b hb

theorem fork (h : rooms.Describe fs) {p : FrameId} {names : Text → Prop} (hallow : rooms.Allow p names) :
    Rooms.Describe (⟨fs.arena.size, names, false⟩ :: rooms) (fs.fork p).1 := by
  refine h.make rfl (fs.size_fork p) (fs.parent?_fork p) (fun f hf => ?_) (fun f _ => fs.binds_fork p f) nofun hallow
  exact (List.mem_cons.mp hf).symm.imp_right fun hf => ⟨hf, rfl⟩

theorem newClosure (h : rooms.Describe fs) (bs : List (Text × Ref)) (params : List Text) (body : Expr) :
    Rooms.Describe (.ofFunction fs.arena.size params body :: rooms) (fs.newClosure bs).1 := by
  refine h.make rfl (fs.size_newClosure bs) (fun f => fs.parent?_newClosure f bs) (fun f hf => .inl hf) (fun f hf => ?_)
    (fun _ => rfl) (.inl rfl)
  rcases hf with hf | hf
  · rw [fs.binds_newClosure, if_neg hf]
  · cases hf

/-- Names are bound in a frame that was made for that. -/
theorem bindAll (h : rooms.Describe fs) (hroom : room ∈ rooms) {bs : List (Text × Ref)}
    (hbs : ∀ b ∈ bs, room.names b.1) : rooms.Describe (fs.bindAll room.frame bs) := by
  refine h.rebind (fs.size_modifyBinds _ _) (fun f => fs.parent?_modifyBinds _ f _) (List.Subset.refl _) ?_
  intro room' hroom' _ b hb
  rw [Frames.bindAll, Frames.binds_modifyBinds] at hb
  split at hb
  · next heq =>
    obtain rfl := h.unique _ hroom _ hroom' heq.1
    exact (List.mem_append.mp hb).imp_right (hbs b)
  · exact .inl hb

theorem leave (h : rooms.Describe fs) (f : FrameId) : rooms.Describe (fs.leave f) := by
  refine h.rebind (fs.size_leave f) (fun g => fs.parent?_leave f g) List.erase_subset ?_
  intro room _ _ b hb
  rw [Frames.binds_leave] at hb
  split at hb
  · cases hb
  · exact .inl hb

/-- Any name may be bound in the global frame. -/
theorem setGlobal (h : rooms.Describe fs) (name : Text) (r : Ref) :
    rooms.Describe (fs.set global name r) := by
  refine h.rebind (fs.size_modifyBinds _ _) (fun f => fs.parent?_modifyBinds _ f _) (List.Subset.refl _) ?_
  intro room hroom _ b hb
  rw [Frames.set, Frames.binds_modifyBinds, if_neg fun heq => (h.made room hroom).1 heq.1.symm] at hb
  exact .inl hb

/-- On the way up to a frame, only names are bound that fit into its room. -/
theorem below (h : rooms.Describe fs) (hroom : room ∈ rooms) {g : FrameId} {path : List FrameId}
    (htrail : fs.Trail room.frame g path) :
    (∃ room' ∈ rooms, room'.frame = g ∧ ∀ name, room'.names name → room.names name) ∧
      ∀ x ∈ path, ∀ b ∈ fs.binds x, room.names b.1 := by
  induction htrail with
  | here => exact ⟨⟨room, hroom, rfl, fun _ => id⟩, List.forall_mem_nil _⟩
  | @up f p path hf hp _ ih =>
    obtain ⟨⟨above, habove, rfl, hnames⟩, hpath⟩ := ih
    obtain ⟨room', hroom', rfl⟩ := (h.all f (Frames.lt_size_of_parent? hp)).resolve_left hf
    obtain ⟨q, hq, hcaptured', hallow⟩ := h.parent room' hroom'
    obtain rfl : q = above.frame := Option.some.inj (hq.symm.trans hp)
    -- the frame above is not the global one, so there is a room to fit in
    have hglobal := (h.made above habove).1
    obtain ⟨above', habove', heq, hallowed⟩ := hallow.resolve_left hglobal
    obtain rfl := h.unique _ habove' _ habove heq
    have hown : room'.captured = false := by
      by_contra hne
      exact hglobal (hcaptured' (Bool.eq_true_of_not_eq_false hne))
    have hall (name : Text) (hname : room'.names name) : room.names name := hnames name (hallowed name hname)
    refine ⟨⟨room', hroom', rfl, hall⟩, List.forall_mem_cons.mpr ⟨fun b hb => ?_, hpath⟩⟩
    exact hall b.1 (h.binds room' hroom' hown b hb)

end Rooms.Describe

/-! ## Machines with their rooms -/

/-- The function that evaluating a lambda gives. -/
def Object.lambda (params : List Text) (body : Expr) (c : FrameId) : Object :=
  .function ⟨Text.empty, .script params body (some c)⟩

/-- The machine in which a function has its frame already but is yet to be allocated. -/
def Machine.capturing (m : Machine) (env : FrameId) : Machine :=
  { m with frames := (m.frames.newClosure (m.frames.capturedFrom env)).1 }

theorem Machine.evalLambda_run (m : Machine) (env : FrameId) (params : List Text) (body : Expr) :
    (Eval.evalLambda env params body).run m
      = (Act.alloc (.lambda params body m.frames.arena.size)).run (m.capturing env) := rfl

/-- The heap is threaded well, the rooms record what frames were made for, and no two functions share their
captured names. -/
structure Machine.Kept (rooms : Rooms) (m : Machine) : Prop where
  heap : m.heap.WellFormed
  frames : rooms.Describe m.frames
  objects : ∀ {r o}, m.heap.get? r = some o → o.Fits rooms
  sole : ∀ {r r' o o' f}, m.heap.get? r = some o → m.heap.get? r' = some o' → o.closure? = some f →
    o'.closure? = some f → r = r'

namespace Machine.Kept

variable {rooms rooms' : Rooms} {m m' : Machine}

theorem sturdy (hm : m.Kept rooms) : m.Sturdy := ⟨hm.heap, hm.frames.global_lt⟩

theorem object (hm : m.Kept rooms) (r : Ref) : (m.object r).Fits rooms := by
  rw [Machine.object]
  cases ho : m.heap.get? r with
  | none => trivial
  | some o => exact hm.objects ho

/-- No function has captured names in a frame that is yet to be made. -/
theorem closure_lt (hm : m.Kept rooms) {r : Ref} {f : FrameId} (ho : m.heap.get? r = some o)
    (hf : o.closure? = some f) : f < m.frames.arena.size := by
  obtain ⟨room, hroom, rfl, -⟩ := (hm.objects ho).exists_room hf
  exact (hm.frames.made room hroom).2

theorem setFrames (hm : m.Kept rooms) (hmore : rooms ⊆ rooms') {fs : Frames} (hframes : rooms'.Describe fs) :
    Kept rooms' { m with frames := fs } :=
  ⟨hm.heap, hframes, fun ho => (hm.objects ho).more hmore, hm.sole⟩

theorem setDict (hm : m.Kept rooms) {d : Ref} {t : Table Ref} (hd : m.heap.get? d = some (.dict t)) (t' : Table Ref) :
    Kept rooms { m with heap := m.heap.set d (.dict t') } := by
  have hget {r : Ref} {o : Object} (ho : (m.heap.set d (.dict t')).get? r = some o) :
      o = .dict t' ∨ m.heap.get? r = some o := by
    rw [Heap.get?_set (Heap.valid_of_get? hd)] at ho
    split at ho
    · exact .inl (Option.some.inj ho).symm
    · exact .inr ho
  refine ⟨(hm.heap.set _ _).wellFormed, hm.frames, fun ho => ?_, fun ho ho' hf hf' => ?_⟩
  · rcases hget ho with rfl | ho
    · trivial
    · exact hm.objects ho
  · rcases hget ho with rfl | ho
    · cases hf
    · rcases hget ho' with rfl | ho'
      · cases hf'
      · exact hm.sole ho ho' hf hf'

/-- Frames that are left with their functions were made for captured names. -/
theorem shrinks_collect (hm : m.Kept rooms) : m.Shrinks (Act.collect.run m).2 := by
  refine Machine.shrinks_collect hm.heap fun ho hf => ?_
  obtain ⟨room, hroom, rfl, hcaptured⟩ := (hm.objects ho).exists_room hf
  exact hm.frames.notMem_registered hroom hcaptured

theorem shrink (hm : m.Kept rooms) (h : m.Shrinks m') : m'.Kept rooms where
  heap := h.wellFormed
  frames := by
    refine hm.frames.rebind h.size_eq h.parent_eq (h.registered_eq ▸ List.Subset.refl _) ?_
    intro room hroom hown b hb
    rw [h.binds_eq] at hb
    · exact .inl hb
    · intro r o ho hf
      obtain ⟨room', hroom', hframe, hcaptured⟩ := (hm.objects ho).exists_room hf
      exact absurd hframe.symm (hm.frames.frame_ne hroom' hroom hcaptured hown)
  objects ho := hm.objects (h.get?_of_get? ho)
  sole ho ho' := hm.sole (h.get?_of_get? ho) (h.get?_of_get? ho')

/-- A further object, whose captured names are no other's. -/
theorem grow (hm : m.Kept rooms) (ho : o.Fits rooms)
    (hfresh : ∀ {r p f}, m.heap.get? r = some p → o.closure? = some f → p.closure? ≠ some f) {m' : Machine}
    (hwf : m'.heap.WellFormed) (hframes : rooms.Describe m'.frames) {s : Ref}
    (hget : ∀ {r p}, m'.heap.get? r = some p → (r = s ∧ p = o) ∨ m.heap.get? r = some p) : m'.Kept rooms where
  heap := hwf
  frames := hframes
  objects hp := by
    rcases hget hp with ⟨-, rfl⟩ | hp
    · exact ho
    · exact hm.objects hp
  sole hp hp' hf hf' := by
    rcases hget hp with ⟨rfl, rfl⟩ | hp
    · rcases hget hp' with ⟨rfl, -⟩ | hp'
      · rfl
      · exact absurd hf' (hfresh hp' hf)
    · rcases hget hp' with ⟨rfl, rfl⟩ | hp'
      · exact absurd hf (hfresh hp hf')
      · exact hm.sole hp hp' hf hf'

theorem allocRaw (hm : m.Kept rooms) (ho : o.Fits rooms)
    (hfresh : ∀ {r p f}, m.heap.get? r = some p → o.closure? = some f → p.closure? ≠ some f) (isRoot : Bool) :
    ((Act.allocRaw o isRoot).run m).2.Kept rooms :=
  hm.grow ho hfresh (hm.heap.alloc o isRoot).wellFormed hm.frames hm.heap.get?_alloc_iff.mp

theorem alloc (hm : m.Kept rooms) (ho : o.Fits rooms)
    (hfresh : ∀ {r p f}, m.heap.get? r = some p → o.closure? = some f → p.closure? ≠ some f) :
    ((Act.alloc o).run m).2.Kept rooms :=
  (hm.shrink hm.shrinks_collect).allocRaw ho (fun hp => hfresh (hm.shrinks_collect.get?_of_get? hp)) false

theorem define (hm : m.Kept rooms) (d : Syntax.Def) : ((Eval.define d).run m).2.Kept rooms := by
  have hget {r : Ref} {o : Object} (ho : ((Eval.define d).run m).2.heap.get? r = some o) :=
    hm.heap.get?_alloc_iff.mp ((m.get?_define hm.heap d r).symm.trans ho)
  refine hm.grow (o := d.object) trivial (fun _ hf => by cases hf) (hm.sturdy.define d).heap ?_ hget
  obtain ⟨heap, hrun, -⟩ := m.define_run d
  rw [hrun]
  exact hm.frames.setGlobal _ _

theorem capturing (hm : m.Kept rooms) (env : FrameId) (params : List Text) (body : Expr) :
    (m.capturing env).Kept (.ofFunction m.frames.arena.size params body :: rooms) :=
  hm.setFrames (List.subset_cons_self _ _) (hm.frames.newClosure (m.frames.capturedFrom env) params body)

/-- The captured names are in their frame before a collection may happen. -/
theorem lambda (hm : m.Kept rooms) (env : FrameId) (params : List Text) (body : Expr) :
    ((Eval.evalLambda env params body).run m).2.Kept (.ofFunction m.frames.arena.size params body :: rooms) := by
  rw [evalLambda_run]
  refine (hm.capturing env params body).alloc List.mem_cons_self fun {r p f} hp hf hclosure => ?_
  obtain rfl : m.frames.arena.size = f := Option.some.inj hf
  exact Nat.lt_irrefl _ (hm.closure_lt hp hclosure)

end Machine.Kept

/-! ## What may happen -/

/-- What may happen to a machine, with the rooms before and after. -/
inductive Machine.Course : Rooms → Machine → Rooms → Machine → Prop
  | trans {rooms₁ rooms₂ rooms₃ : Rooms} {m₁ m₂ m₃ : Machine} :
    Course rooms₁ m₁ rooms₂ m₂ → Course rooms₂ m₂ rooms₃ m₃ → Course rooms₁ m₁ rooms₃ m₃
  | aside {rooms : Rooms} {m m' : Machine} (hheap : m'.heap = m.heap) (hframes : m'.frames = m.frames) :
    Course rooms m rooms m'
  /-- An object is allocated, perhaps after a collection. -/
  | alloc {rooms : Rooms} {m : Machine} {o : Object} (ho : o.closure? = none) :
    Course rooms m rooms ((Act.alloc o).run m).2
  | setDict {rooms : Rooms} {m : Machine} {d : Ref} {t : Table Ref} (hd : m.heap.get? d = some (.dict t))
    (t' : Table Ref) : Course rooms m rooms { m with heap := m.heap.set d (.dict t') }
  | define {rooms : Rooms} {m : Machine} (d : Syntax.Def) : Course rooms m rooms ((Eval.define d).run m).2
  | lambda {rooms : Rooms} {m : Machine} (env : FrameId) (params : List Text) (body : Expr) :
    Course rooms m (.ofFunction m.frames.arena.size params body :: rooms) ((Eval.evalLambda env params body).run m).2
  | fork {rooms : Rooms} {m : Machine} {p : FrameId} {names : Text → Prop} (hallow : rooms.Allow p names) :
    Course rooms m (⟨m.frames.arena.size, names, false⟩ :: rooms) ((Act.fork p).run m).2
  /-- Names are bound in a frame that was made for that. -/
  | bind {rooms : Rooms} {m : Machine} (room : Room) (hroom : room ∈ rooms) (hown : room.captured = false)
    {bs : List (Text × Ref)} (hbs : ∀ b ∈ bs, room.names b.1) :
    Course rooms m rooms { m with frames := m.frames.bindAll room.frame bs }
  | leave {rooms : Rooms} {m : Machine} (room : Room) (hroom : room ∈ rooms) (hown : room.captured = false) :
    Course rooms m rooms ((Act.leave room.frame).run m).2

namespace Machine.Course

variable {rooms rooms' : Rooms} {m m' : Machine}

theorem refl (rooms : Rooms) (m : Machine) : Course rooms m rooms m := .aside rfl rfl

/-- No room is given up. -/
theorem subset (h : Course rooms m rooms' m') : rooms ⊆ rooms' := by
  induction h with
  | trans _ _ ih ih' => exact List.Subset.trans ih ih'
  | lambda | fork => exact List.subset_cons_self _ _
  | aside | alloc | setDict | define | bind | leave => exact List.Subset.refl _

/-- The record stays right. -/
theorem kept (h : Course rooms m rooms' m') (hm : m.Kept rooms) : m'.Kept rooms' := by
  induction h with
  | trans _ _ ih ih' => exact ih' (ih hm)
  | aside hheap hframes =>
    obtain ⟨hwf, hdescribe, hobjects, hsole⟩ := hm
    refine ⟨hheap ▸ hwf, hframes ▸ hdescribe, ?_, ?_⟩
    · rw [hheap]
      exact hobjects
    · rw [hheap]
      exact hsole
  | alloc ho => exact hm.alloc (Object.fits_of_closure? ho) fun _ hf => by rw [ho] at hf; cases hf
  | setDict hd t' => exact hm.setDict hd t'
  | define d => exact hm.define d
  | lambda env params body => exact hm.lambda env params body
  | fork hallow => exact hm.setFrames (List.subset_cons_self _ _) (hm.frames.fork hallow)
  | bind room hroom _ hbs => exact hm.setFrames (List.Subset.refl _) (hm.frames.bindAll hroom hbs)
  | leave => exact ⟨hm.heap, hm.frames.leave _, hm.objects, hm.sole⟩

end Machine.Course

end TinyScript
