import TinyScript.Proofs.Collect.Held
import TinyScript.Proofs.Dict.Natural

/-!
# Twin machines

Two machines that run the same program but collect at different times hold the same values in different slots.
`Twins Γ ρ m n` relates them: `ρ` pairs references one to one, and paired references name objects that agree up to
`ρ`. The scope `Γ` lists what the evaluation under way holds: the pins, and the registered frames with their parents.

The frame of a function's captured names is left when the function is freed. So a registered frame may be below it
only while that function is pinned (`Scope.Closed`).
-/

namespace TinyScript

open List
open Frames (global)

variable {f : FrameId}

/-- References of one machine paired with references of another. -/
abbrev Pairing := Ref → Ref → Prop

/-- Objects that differ only in references, which are paired. -/
inductive Object.Agree (ρ : Pairing) : Object → Object → Prop
  | unit : Agree ρ .unit .unit
  | nil : Agree ρ .nil .nil
  | bool (w : UInt64) : Agree ρ (.bool w) (.bool w)
  | u64 (w : UInt64) : Agree ρ (.u64 w) (.u64 w)
  | i64 (w : UInt64) : Agree ρ (.i64 w) (.i64 w)
  | f64 (w : UInt64) : Agree ρ (.f64 w) (.f64 w)
  | error (t : Text) : Agree ρ (.error t) (.error t)
  | string (t : Text) : Agree ρ (.string t) (.string t)
  | pair {h t h' t' : Ref} : ρ h h' → ρ t t' → Agree ρ (.pair h t) (.pair h' t')
  | list {xs ys : List Ref} : List.Forall₂ ρ xs ys → Agree ρ (.list xs) (.list ys)
  | dict {t u : Table Ref} : Table.Paired ρ t u → Agree ρ (.dict t) (.dict u)
  | function (f : Function) : Agree ρ (.function f) (.function f)
  | other (k : Nat) (w : UInt64) : Agree ρ (.other k w) (.other k w)

/-- Whatever is on the left of related lists is related to something. -/
theorem exists_of_forall₂_of_mem {α β : Type} {R : α → β → Prop} {xs : List α} {ys : List β}
    (h : List.Forall₂ R xs ys) {x : α} (hx : x ∈ xs) : ∃ y ∈ ys, R x y := by
  induction h with
  | nil => cases hx
  | cons hr _ ih =>
    rcases List.mem_cons.mp hx with rfl | hx
    · exact ⟨_, mem_cons_self, hr⟩
    · obtain ⟨y, hy, hr⟩ := ih hx
      exact ⟨y, mem_cons_of_mem _ hy, hr⟩

/-- A relation on lists may be replaced by one that holds of what the lists hold. -/
theorem forall₂_imp_of_mem {α β : Type} {R S : α → β → Prop} {xs : List α} {ys : List β}
    (h : List.Forall₂ R xs ys) (hRS : ∀ x ∈ xs, ∀ y ∈ ys, R x y → S x y) : List.Forall₂ S xs ys := by
  induction h with
  | nil => exact .nil
  | cons hr _ ih =>
    refine .cons (hRS _ mem_cons_self _ mem_cons_self hr) (ih fun x hx y hy => ?_)
    exact hRS x (mem_cons_of_mem _ hx) y (mem_cons_of_mem _ hy)

/-- Bindings of the same names to paired references. -/
def Pairing.Binds (ρ : Pairing) : List (Text × Ref) → List (Text × Ref) → Prop :=
  List.Forall₂ fun b c => b.1 = c.1 ∧ ρ b.2 c.2

namespace Object.Agree

variable {ρ σ : Pairing} {o p : Object}

/-- Objects agree up to any pairing of their parts. -/
theorem mono (h : Agree ρ o p) (hρσ : ∀ r ∈ o.children, ∀ s ∈ p.children, ρ r s → σ r s) :
    Agree σ o p := by
  cases h with
  | pair hh ht =>
    exact .pair (hρσ _ (by simp [children]) _ (by simp [children]) hh)
      (hρσ _ (by simp [children]) _ (by simp [children]) ht)
  | list hxs => exact .list (forall₂_imp_of_mem hxs hρσ)
  | dict ht => exact .dict (ht.mono hρσ)
  | _ => constructor

/-- An object agrees with itself up to any pairing of its parts with themselves. -/
theorem self (h : ∀ c ∈ o.children, ρ c c) : Agree ρ o o := by
  cases o with
  | pair a b => exact .pair (h a (by simp [children])) (h b (by simp [children]))
  | list items => exact .list (List.forall₂_same.mpr h)
  | dict t => exact .dict (.self h)
  | _ => constructor

theorem kind_eq (h : Agree ρ o p) : o.kind = p.kind := by
  cases h <;> rfl

theorem closure?_eq (h : Agree ρ o p) : o.closure? = p.closure? := by
  cases h <;> rfl

theorem isError_eq (h : Agree ρ o p) : o.isError = p.isError := by
  cases h <;> rfl

theorem truthy_eq (h : Agree ρ o p) : o.truthy = p.truthy := by
  cases h with
  | list hxs => cases hxs <;> rfl
  | _ => rfl

/-- The parts of objects that agree are paired. -/
theorem exists_of_mem_children (h : Agree ρ o p) {r : Ref} (hr : r ∈ o.children) : ∃ s, ρ r s := by
  cases h with
  | @pair _ t h' t' hh ht =>
    rcases List.mem_pair.mp hr with rfl | rfl
    · exact ⟨_, hh⟩
    · exact ⟨_, ht⟩
  | list hxs =>
    obtain ⟨s, -, hs⟩ := exists_of_forall₂_of_mem hxs hr
    exact ⟨s, hs⟩
  | dict ht =>
    obtain ⟨w, rfl, -, hw⟩ := ht
    rw [children, Table.entries_map, map_map, mem_map] at hr
    obtain ⟨e, he, rfl⟩ := hr
    exact ⟨_, hw e he⟩
  | _ => cases hr

end Object.Agree

/-- What became of an object: the same, except that the entries of a dict may change. -/
def Object.Became (o o' : Object) : Prop := o' = o ∨ (o.kind = .dict ∧ o'.kind = .dict)

/-- A pinned reference in two machines, with the objects it named when it was pinned. -/
structure Pin where
  left : Ref
  right : Ref
  leftObject : Object
  rightObject : Object

/-- What is held by the evaluation under way. -/
structure Scope where
  pins : List Pin
  /-- The registered frames and their parents, the latest first. -/
  frames : List (FrameId × FrameId)

namespace Scope

/-- A frame that a registered frame may be below. -/
def Anchors (Γ : Scope) (f : FrameId) : Prop :=
  f = global ∨ f ∈ Γ.frames.map Prod.fst ∨ ∃ e ∈ Γ.pins, e.leftObject.closure? = some f

/-- Every registered frame is below one that is kept. -/
structure Closed (Γ : Scope) : Prop where
  nodup : (Γ.frames.map Prod.fst).Nodup
  global_notMem : global ∉ Γ.frames.map Prod.fst
  anchored : ∀ f ∈ Γ.frames, Γ.Anchors f.2

/-- The paired references that are pinned. -/
def Holds (Γ : Scope) (r s : Ref) : Prop := ∃ e ∈ Γ.pins, e.left = r ∧ e.right = s

/-- A pinned function. -/
def Knows (Γ : Scope) (f : Function) : Prop := ∃ e ∈ Γ.pins, e.leftObject = .function f

/-- A frame in which something can be evaluated. -/
def Env (Γ : Scope) (f : FrameId) : Prop := f = global ∨ f ∈ Γ.frames.map Prod.fst

end Scope

/-- Two heaps hold objects that agree, under the references that are paired, and every root is paired. -/
structure HeapTwins (ρ : Pairing) (h k : Heap) : Prop where
  functional : ∀ {r s s'}, ρ r s → ρ r s' → s = s'
  injective : ∀ {r r' s}, ρ r s → ρ r' s → r = r'
  agree : ∀ {r s}, ρ r s → ∃ o p, h.get? r = some o ∧ k.get? s = some p ∧ o.Agree ρ p
  root : ∀ {r s}, ρ r s → (h.flag? r = some .root ↔ k.flag? s = some .root)
  leftRoot : ∀ {r}, h.flag? r = some .root → ∃ s, ρ r s
  rightRoot : ∀ {s}, k.flag? s = some .root → ∃ r, ρ r s

/-- Two arenas of frames with the same parents, and paired bindings in the global frame and in the
registered frames. -/
structure FrameTwins (frames : List (FrameId × FrameId)) (ρ : Pairing) (fs gs : Frames) : Prop where
  size_eq : fs.arena.size = gs.arena.size
  parent_eq : ∀ f, fs.parent? f = gs.parent? f
  leftRegistered : fs.registered = frames.map Prod.fst
  rightRegistered : gs.registered = frames.map Prod.fst
  parents : ∀ f ∈ frames, fs.parent? f.1 = some f.2
  globals : ρ.Binds (fs.binds global) (gs.binds global)
  locals : ∀ f ∈ frames, ρ.Binds (fs.binds f.1) (gs.binds f.1)

/-- The pins are those of the scope, paired, and still name what they named. -/
structure PinTwins (pins : List Pin) (ρ : Pairing) (m n : Machine) : Prop where
  left_eq : m.pins.toList = pins.map Pin.left
  right_eq : n.pins.toList = pins.map Pin.right
  paired : ∀ e ∈ pins, ρ e.left e.right
  left_became : ∀ e ∈ pins, ∃ o, m.heap.get? e.left = some o ∧ e.leftObject.Became o
  right_became : ∀ e ∈ pins, ∃ o, n.heap.get? e.right = some o ∧ e.rightObject.Became o

namespace Machine

/-- A frame for the captured names of a function: not registered, and below the global frame. -/
structure Detached (m : Machine) (f : FrameId) : Prop where
  ne_global : f ≠ global
  notMem : f ∉ m.frames.registered
  parent_eq : m.frames.parent? f = some global

/-- What every machine keeps: the heap is well formed, and the frames of captured names are detached and each
belongs to one function. -/
structure Tidy (m : Machine) : Prop where
  wellFormed : m.heap.WellFormed
  global_lt : global < m.frames.arena.size
  global_top : m.frames.parent? global = none
  detached : ∀ {r o f}, m.heap.get? r = some o → o.closure? = some f → m.Detached f
  sole : ∀ {r r' o o' f}, m.heap.get? r = some o → m.heap.get? r' = some o' → o.closure? = some f →
    o'.closure? = some f → r = r'
  globals : ∀ b ∈ m.frames.binds global, ∃ f, m.heap.get? b.2 = some (.function f)
  unit_eq : m.heap.get? m.unit = some .unit ∧ m.heap.flag? m.unit = some .root
  nil_eq : m.heap.get? m.nil = some .nil ∧ m.heap.flag? m.nil = some .root

/-- What a program can tell about the machine that runs it, values apart. -/
structure Surroundings where
  depth : Nat
  maxDepth : Int
  printed : List Text
  refusesOutput : Bool
  files : Host.Files
  /-- Paths where a file was looked for and is not. -/
  missed : List Text
  /-- The state of the random number generator. -/
  seed : UInt64
  clock : UInt64

/-- The surroundings of the program that a machine runs. -/
def surroundings (m : Machine) : Surroundings :=
  ⟨m.depth, m.maxDepth, m.printed, m.refusesOutput, m.files, m.missed, m.seed, m.clock⟩

end Machine

/-- If both machines collect at all safe moments, they have collected equally often. -/
def Machine.InStep (m n : Machine) : Prop :=
  m.pacing.Eager → n.pacing.Eager → m.totals.cycles = n.totals.cycles

/-- Two machines in the midst of the same evaluation. -/
structure Twins (Γ : Scope) (ρ : Pairing) (m n : Machine) : Prop where
  left : m.Tidy
  right : n.Tidy
  closed : Γ.Closed
  heaps : HeapTwins ρ m.heap n.heap
  frames : FrameTwins Γ.frames ρ m.frames n.frames
  captured : ∀ {r s o f}, ρ r s → m.heap.get? r = some o → o.closure? = some f →
    ρ.Binds (m.frames.binds f) (n.frames.binds f)
  pins : PinTwins Γ.pins ρ m n
  unit : ρ m.unit n.unit
  nil : ρ m.nil n.nil
  surroundings : m.surroundings = n.surroundings
  inStep : m.InStep n

namespace HeapTwins

variable {ρ : Pairing} {h k : Heap} {r s : Ref}

theorem left_valid (ht : HeapTwins ρ h k) (hr : ρ r s) : h.valid r := by
  obtain ⟨o, -, ho, -, -⟩ := ht.agree hr
  exact Heap.valid_of_get? ho

theorem right_valid (ht : HeapTwins ρ h k) (hr : ρ r s) : k.valid s := by
  obtain ⟨-, p, -, hp, -⟩ := ht.agree hr
  exact Heap.valid_of_get? hp

/-- Objects under paired references agree. -/
theorem agree_of_get? (ht : HeapTwins ρ h k) (hr : ρ r s) {o p : Object} (ho : h.get? r = some o)
    (hp : k.get? s = some p) : o.Agree ρ p := by
  obtain ⟨o', p', ho', hp', hagree⟩ := ht.agree hr
  rw [ho] at ho'
  rw [hp] at hp'
  cases ho'
  cases hp'
  exact hagree

theorem exists_right (ht : HeapTwins ρ h k) (hr : ρ r s) {o : Object} (ho : h.get? r = some o) :
    ∃ p, k.get? s = some p ∧ o.Agree ρ p := by
  obtain ⟨o', p, ho', hp, hagree⟩ := ht.agree hr
  rw [ho] at ho'
  cases ho'
  exact ⟨p, hp, hagree⟩

end HeapTwins

/-- An object that is no dict stays the same. -/
theorem Object.Became.eq {o o' : Object} (h : o.Became o') (hkind : o.kind ≠ .dict) : o' = o := by
  rcases h with h | ⟨h, -⟩
  · exact h
  · exact absurd h hkind

theorem Object.Became.eq' {o o' : Object} (h : o.Became o') (hkind : o'.kind ≠ .dict) : o' = o := by
  rcases h with h | ⟨-, h⟩
  · exact h
  · exact absurd h hkind

theorem Object.kind_ne_dict_of_closure? {o : Object} (h : o.closure? = some f) :
    o.kind ≠ .dict := by
  cases o <;> first | cases h | simp [kind]

namespace PinTwins

variable {pins : List Pin} {ρ : Pairing} {m n : Machine}

theorem size_eq (h : PinTwins pins ρ m n) : m.pins.size = pins.length ∧ n.pins.size = pins.length := by
  have hleft := congrArg List.length h.left_eq
  have hright := congrArg List.length h.right_eq
  simpa using And.intro hleft hright

/-- The objects that pinned references named, and still name unless they are dicts, agree. -/
theorem known (h : PinTwins pins ρ m n) (ht : HeapTwins ρ m.heap n.heap) {e : Pin} (he : e ∈ pins)
    (hkind : e.leftObject.kind ≠ .dict) :
    m.heap.get? e.left = some e.leftObject ∧ n.heap.get? e.right = some e.rightObject ∧
      e.leftObject.Agree ρ e.rightObject := by
  obtain ⟨o, ho, hbecame⟩ := h.left_became e he
  obtain ⟨p, hp, hbecame'⟩ := h.right_became e he
  have hagree := ht.agree_of_get? (h.paired e he) ho hp
  obtain rfl : o = e.leftObject := hbecame.eq hkind
  obtain rfl : p = e.rightObject := hbecame'.eq' (by rwa [← hagree.kind_eq])
  exact ⟨ho, hp, hagree⟩

end PinTwins

namespace Twins

variable {Γ : Scope} {ρ : Pairing} {m n : Machine}

theorem object (h : Twins Γ ρ m n) {r s : Ref} (hr : ρ r s) : (m.object r).Agree ρ (n.object s) := by
  obtain ⟨o, p, ho, hp, hagree⟩ := h.heaps.agree hr
  rw [Machine.object, Machine.object, ho, hp]
  exact hagree

theorem get?_object (h : Twins Γ ρ m n) {r s : Ref} (hr : ρ r s) :
    m.heap.get? r = some (m.object r) ∧ n.heap.get? s = some (n.object s) := by
  obtain ⟨o, p, ho, hp, -⟩ := h.heaps.agree hr
  rw [Machine.object, Machine.object, ho, hp]
  exact ⟨rfl, rfl⟩

theorem holds (h : Twins Γ ρ m n) {r s : Ref} (hr : Γ.Holds r s) : ρ r s := by
  obtain ⟨e, he, rfl, rfl⟩ := hr
  exact h.pins.paired e he

/-- The frame above one that is kept is kept. -/
theorem anchors_parent (h : Twins Γ ρ m n) {p : FrameId} (hf : Γ.Anchors f)
    (hp : m.frames.parent? f = some p) : Γ.Anchors p := by
  rcases hf with rfl | hf | ⟨e, he, hclosure⟩
  · rw [h.left.global_top] at hp
    cases hp
  · obtain ⟨⟨f, q⟩, hmem, rfl⟩ := List.mem_map.mp hf
    rw [h.frames.parents _ hmem] at hp
    cases hp
    exact h.closed.anchored _ hmem
  · obtain ⟨ho, -, -⟩ := h.pins.known h.heaps he (Object.kind_ne_dict_of_closure? hclosure)
    rw [(h.left.detached ho hclosure).parent_eq] at hp
    cases hp
    exact Or.inl rfl

/-- The bindings of a frame that is kept are paired. -/
theorem binds_of_anchors (h : Twins Γ ρ m n) (hf : Γ.Anchors f) :
    ρ.Binds (m.frames.binds f) (n.frames.binds f) := by
  rcases hf with rfl | hf | ⟨e, he, hclosure⟩
  · exact h.frames.globals
  · obtain ⟨fp, hmem, rfl⟩ := List.mem_map.mp hf
    exact h.frames.locals fp hmem
  · obtain ⟨ho, -, -⟩ := h.pins.known h.heaps he (Object.kind_ne_dict_of_closure? hclosure)
    exact h.captured (h.pins.paired e he) ho hclosure

theorem anchors_of_above (h : Twins Γ ρ m n) {g : FrameId} (hf : Γ.Anchors f)
    (hg : m.frames.Above f g) : Γ.Anchors g := by
  induction hg with
  | self => exact hf
  | parent _ _ hp ih => exact h.anchors_parent ih hp

end Twins

theorem Scope.Env.anchors {Γ : Scope} (h : Γ.Env f) : Γ.Anchors f :=
  h.elim Or.inl fun h => Or.inr (Or.inl h)

/-! ## Names -/

namespace Pairing.Binds

variable {ρ : Pairing} {bs cs bs' cs' : List (Text × Ref)}

/-- Looking a name up among paired bindings. -/
theorem find? (h : ρ.Binds bs cs) (name : Text) :
    Option.Rel ρ ((bs.find? fun b => b.1 = name).map Prod.snd)
      ((cs.find? fun c => c.1 = name).map Prod.snd) := by
  induction h with
  | nil => exact .none
  | @cons b c _ _ hbc _ ih =>
    rw [find?_cons, find?_cons, ← hbc.1]
    by_cases hname : b.1 = name
    · simpa [hname] using Option.Rel.some hbc.2
    · simpa [hname] using ih

theorem append (h : ρ.Binds bs cs) (h' : ρ.Binds bs' cs') : ρ.Binds (bs ++ bs') (cs ++ cs') :=
  rel_append h h'

theorem setIn (h : ρ.Binds bs cs) (name : Text) {r s : Ref} (hr : ρ r s) :
    ρ.Binds (Frames.setIn name r bs) (Frames.setIn name s cs) := by
  induction h with
  | nil => exact .cons ⟨rfl, hr⟩ .nil
  | @cons b c _ _ hbc htail ih =>
    rw [Frames.setIn, Frames.setIn, ← hbc.1]
    split
    · exact .cons ⟨rfl, hr⟩ htail
    · exact .cons hbc ih

theorem mono {σ : Pairing} (h : ρ.Binds bs cs) (hρσ : ∀ b ∈ bs, ∀ c ∈ cs, ρ b.2 c.2 → σ b.2 c.2) :
    σ.Binds bs cs :=
  forall₂_imp_of_mem h fun b hb c hc hbc => ⟨hbc.1, hρσ b hb c hc hbc.2⟩

theorem exists_of_mem (h : ρ.Binds bs cs) {b : Text × Ref} (hb : b ∈ bs) : ∃ s, ρ b.2 s := by
  obtain ⟨c, -, hbc⟩ := exists_of_forall₂_of_mem h hb
  exact ⟨c.2, hbc.2⟩

theorem symm (h : ρ.Binds bs cs) : Pairing.Binds (flip ρ) cs bs := by
  induction h with
  | nil => exact .nil
  | cons hbc _ ih => exact .cons ⟨hbc.1.symm, hbc.2⟩ ih

end Pairing.Binds

namespace Twins

variable {Γ : Scope} {ρ : Pairing} {m n : Machine}

theorem resolveWithin (h : Twins Γ ρ m n) (name : Text) (fuel : Nat) (hf : Γ.Anchors f) :
    Option.Rel ρ (m.frames.resolveWithin name fuel f) (n.frames.resolveWithin name fuel f) := by
  induction fuel generalizing f with
  | zero => exact .none
  | succ fuel ih =>
    have hlocal : Option.Rel ρ (m.frames.resolveLocal? f name) (n.frames.resolveLocal? f name) :=
      (h.binds_of_anchors hf).find? name
    rw [Frames.resolveWithin, Frames.resolveWithin]
    generalize m.frames.resolveLocal? f name = a at hlocal ⊢
    generalize n.frames.resolveLocal? f name = b at hlocal ⊢
    cases hlocal with
    | some hr => exact .some hr
    | none =>
      rw [← h.frames.parent_eq]
      cases hp : m.frames.parent? f with
      | none => exact .none
      | some p => exact ih (h.anchors_parent hf hp)

/-- A name is bound to paired references. -/
theorem resolve? (h : Twins Γ ρ m n) (hf : Γ.Env f) (name : Text) :
    Option.Rel ρ (m.frames.resolve? f name) (n.frames.resolve? f name) := by
  rw [Frames.resolve?, Frames.resolve?, ← h.frames.size_eq]
  exact h.resolveWithin name _ hf.anchors

theorem chainFrom_eq (h : Twins Γ ρ m n) (fuel : Nat) (f : FrameId) :
    m.frames.chainFrom fuel f = n.frames.chainFrom fuel f := by
  induction fuel generalizing f with
  | zero => rfl
  | succ fuel ih =>
    rw [Frames.chainFrom, Frames.chainFrom, ← h.frames.parent_eq]
    cases m.frames.parent? f with
    | none => rfl
    | some p => exact congrArg _ (ih p)

/-- A function captures paired references. -/
theorem capturedFrom (h : Twins Γ ρ m n) (hf : Γ.Env f) :
    ρ.Binds (m.frames.capturedFrom f) (n.frames.capturedFrom f) := by
  have hchain : n.frames.chain f = m.frames.chain f := by
    rw [Frames.chain, Frames.chain, h.chainFrom_eq, h.frames.size_eq]
  rw [Frames.capturedFrom, Frames.capturedFrom, hchain]
  have habove : ∀ g ∈ (m.frames.chain f).takeWhile (· ≠ global), Γ.Anchors g := fun g hg =>
    h.anchors_of_above hf.anchors (Frames.mem_takeWhile_chain_iff.mp hg).1
  generalize (m.frames.chain f).takeWhile (· ≠ global) = gs at habove ⊢
  induction gs with
  | nil => exact .nil
  | cons g gs ih =>
    rw [flatMap_cons, flatMap_cons]
    refine (h.binds_of_anchors (habove g mem_cons_self)).append (ih fun g' hg' => ?_)
    exact habove g' (mem_cons_of_mem _ hg')

end Twins

/-! ## Soundness -/

/-- Above a detached frame there is only the global one. -/
theorem Machine.Detached.above {m : Machine} {g : FrameId} (h : m.Detached f)
    (hg : m.frames.Above f g) : g = f ∨ g = global := by
  induction hg with
  | self => exact Or.inl rfl
  | parent _ hne hp ih =>
    rcases ih with rfl | rfl
    · rw [h.parent_eq] at hp
      cases hp
      exact Or.inr rfl
    · exact absurd rfl hne

namespace Twins

variable {Γ : Scope} {ρ : Pairing} {m n : Machine}

/-- Every reference that is held has a partner. -/
theorem exists_of_held (h : Twins Γ ρ m n) {r : Ref} (hr : m.moment.Held r) : ∃ s, ρ r s := by
  induction hr with
  | pinned hpin =>
    have hmem := Array.mem_toList_iff.mpr hpin
    rw [show m.moment.pins = m.pins from rfl, h.pins.left_eq] at hmem
    obtain ⟨e, he, rfl⟩ := List.mem_map.mp hmem
    exact ⟨_, h.pins.paired e he⟩
  | global hb => exact h.frames.globals.exists_of_mem hb
  | registered hf habove hb =>
    have hanchor : Γ.Anchors _ := Or.inr (Or.inl (h.frames.leftRegistered ▸ hf))
    exact (h.binds_of_anchors (h.anchors_of_above hanchor habove)).exists_of_mem hb
  | root hflag => exact h.heaps.leftRoot hflag
  | part _ ho hs ih =>
    obtain ⟨s, hrs⟩ := ih
    obtain ⟨p, -, hagree⟩ := h.heaps.exists_right hrs ho
    exact hagree.exists_of_mem_children hs
  | captured _ ho hf habove hb ih =>
    obtain ⟨s, hrs⟩ := ih
    rcases (h.left.detached ho hf).above habove with rfl | rfl
    · exact (h.captured hrs ho hf).exists_of_mem hb
    · exact h.frames.globals.exists_of_mem hb

/-- Nothing that is held by either of two twins dangles. -/
theorem sound (h : Twins Γ ρ m n) : m.moment.Sound := fun _ hr =>
  (h.exists_of_held hr).elim fun _ hrs => h.heaps.left_valid hrs

theorem safe (h : Twins Γ ρ m n) : m.moment.Safe := ⟨h.left.wellFormed, h.sound⟩

end Twins

/-! ## The other way round -/

theorem Object.Agree.symm {ρ : Pairing} {o p : Object} (h : o.Agree ρ p) : p.Agree (flip ρ) o := by
  cases h with
  | pair hh ht => exact .pair hh ht
  | list hxs => exact .list hxs.flip
  | dict ht => exact .dict ht.symm
  | _ => constructor

/-- The pin seen from the other machine. -/
def Pin.swap (e : Pin) : Pin := ⟨e.right, e.left, e.rightObject, e.leftObject⟩

/-- The scope seen from the other machine. -/
def Scope.swap (Γ : Scope) : Scope := ⟨Γ.pins.map Pin.swap, Γ.frames⟩

theorem HeapTwins.symm {ρ : Pairing} {h k : Heap} (ht : HeapTwins ρ h k) : HeapTwins (flip ρ) k h where
  functional := fun hr hr' => ht.injective hr hr'
  injective := fun hr hr' => ht.functional hr hr'
  agree := fun hr => by
    obtain ⟨o, p, ho, hp, hagree⟩ := ht.agree hr
    exact ⟨p, o, hp, ho, hagree.symm⟩
  root := fun hr => (ht.root hr).symm
  leftRoot := ht.rightRoot
  rightRoot := ht.leftRoot

/-- Twins are twins the other way round. -/
theorem Twins.symm {Γ : Scope} {ρ : Pairing} {m n : Machine} (h : Twins Γ ρ m n) :
    Twins Γ.swap (flip ρ) n m where
  left := h.right
  right := h.left
  closed := by
    refine ⟨h.closed.nodup, h.closed.global_notMem, fun f hf => ?_⟩
    rcases h.closed.anchored f hf with hglobal | hframe | ⟨e, he, hclosure⟩
    · exact Or.inl hglobal
    · exact Or.inr (Or.inl hframe)
    · obtain ⟨-, -, hagree⟩ := h.pins.known h.heaps he (Object.kind_ne_dict_of_closure? hclosure)
      exact Or.inr (Or.inr ⟨e.swap, mem_map_of_mem he, hagree.closure?_eq.symm.trans hclosure⟩)
  heaps := h.heaps.symm
  frames :=
    { size_eq := h.frames.size_eq.symm
      parent_eq := fun f => (h.frames.parent_eq f).symm
      leftRegistered := h.frames.rightRegistered
      rightRegistered := h.frames.leftRegistered
      parents := fun f hf => (h.frames.parent_eq f.1).symm.trans (h.frames.parents f hf)
      globals := h.frames.globals.symm
      locals := fun f hf => (h.frames.locals f hf).symm }
  captured := fun {r s p f} hrs hp hf => by
    obtain ⟨o, p', ho, hp', hagree⟩ := h.heaps.agree hrs
    rw [hp] at hp'
    cases hp'
    exact (h.captured hrs ho (hagree.closure?_eq.trans hf)).symm
  pins :=
    { left_eq := by rw [h.pins.right_eq]; simp [Scope.swap, Pin.swap]
      right_eq := by rw [h.pins.left_eq]; simp [Scope.swap, Pin.swap]
      paired := fun e he => by
        obtain ⟨e', he', rfl⟩ := List.mem_map.mp he
        exact h.pins.paired e' he'
      left_became := fun e he => by
        obtain ⟨e', he', rfl⟩ := List.mem_map.mp he
        exact h.pins.right_became e' he'
      right_became := fun e he => by
        obtain ⟨e', he', rfl⟩ := List.mem_map.mp he
        exact h.pins.left_became e' he' }
  unit := h.unit
  nil := h.nil
  surroundings := h.surroundings.symm
  inStep hm hn := (h.inStep hn hm).symm

end TinyScript
