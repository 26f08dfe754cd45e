import TinyScript.Proofs.Twin.Relation

/-!
# Changing twins alike

Twins that are changed in the same way stay twins: what each change of pins, frames and objects does to
the scope and the pairing. Changes of frames go through `Twins.setFrames`, which lists what has to be seen
to: above all that the frames of captured names, which no scope lists, keep their bindings.
-/

namespace TinyScript

open List Frames
open Frames (global)

variable {pins : List Pin} {r s : Ref} {o : Object} {fs : Frames}

/-! ## Surroundings -/

/-- Two states of one machine with the same objects and frames. -/
structure Machine.SameCore (m m' : Machine) : Prop where
  heap_eq : m'.heap = m.heap := by rfl
  frames_eq : m'.frames = m.frames := by rfl
  unit_eq : m'.unit = m.unit := by rfl
  nil_eq : m'.nil = m.nil := by rfl

theorem Machine.Tidy.congr {m m' : Machine} (h : m.Tidy) (hm : m.SameCore m') : m'.Tidy := by
  obtain ⟨hheap, hframes, hunit, hnil⟩ := hm
  constructor
  · rw [hheap]
    exact h.wellFormed
  · rw [hframes]
    exact h.global_lt
  · rw [hframes]
    exact h.global_top
  · intro r o f ho hf
    rw [hheap] at ho
    obtain ⟨hne, hmem, hparent⟩ := h.detached ho hf
    exact ⟨hne, by rwa [hframes], by rwa [hframes]⟩
  · rw [hheap]
    exact h.sole
  · rw [hheap, hframes]
    exact h.globals
  · rw [hheap, hunit]
    exact h.unit_eq
  · rw [hheap, hnil]
    exact h.nil_eq

variable {Γ : Scope} {ρ : Pairing} {m n m' n' : Machine} {f : FrameId}

namespace Twins

/-- What is not held may change on either side, if the surroundings stay the same for both. -/
theorem congr (h : Twins Γ ρ m n) (hm : m.SameCore m') (hn : n.SameCore n')
    (hpins : m'.pins = m.pins ∧ n'.pins = n.pins) (hsame : m'.surroundings = n'.surroundings)
    (hstep : m'.InStep n') : Twins Γ ρ m' n' where
  left := h.left.congr hm
  right := h.right.congr hn
  closed := h.closed
  heaps := by
    rw [hm.heap_eq, hn.heap_eq]
    exact h.heaps
  frames := by
    rw [hm.frames_eq, hn.frames_eq]
    exact h.frames
  captured := by
    rw [hm.frames_eq, hn.frames_eq, hm.heap_eq]
    exact h.captured
  pins :=
    { left_eq := by rw [hpins.1]; exact h.pins.left_eq
      right_eq := by rw [hpins.2]; exact h.pins.right_eq
      paired := h.pins.paired
      left_became := by rw [hm.heap_eq]; exact h.pins.left_became
      right_became := by rw [hn.heap_eq]; exact h.pins.right_became }
  unit := by
    rw [hm.unit_eq, hn.unit_eq]
    exact h.unit
  nil := by
    rw [hm.nil_eq, hn.nil_eq]
    exact h.nil
  surroundings := hsame
  inStep := hstep

/-- A machine that is its own twin is also a twin of itself with another pacing. -/
theorem paced (h : Twins Γ ρ m m) (p q : Pacing) : Twins Γ ρ { m with pacing := p } { m with pacing := q } :=
  h.congr {} {} ⟨rfl, rfl⟩ h.surroundings fun _ _ => rfl

/-! ## Pins -/

theorem setPins (h : Twins Γ ρ m n) {ps qs : Array Ref}
    (hclosed : Scope.Closed ⟨pins, Γ.frames⟩)
    (hpins : PinTwins pins ρ { m with pins := ps } { n with pins := qs }) :
    Twins ⟨pins, Γ.frames⟩ ρ { m with pins := ps } { n with pins := qs } where
  left := h.left.congr {}
  right := h.right.congr {}
  closed := hclosed
  heaps := h.heaps
  frames := h.frames
  captured := h.captured
  pins := hpins
  unit := h.unit
  nil := h.nil
  surroundings := h.surroundings
  inStep := h.inStep

end Twins

/-- More pins keep no less alive. -/
theorem Scope.Closed.mono (h : Γ.Closed) (hpins : Γ.pins ⊆ pins) :
    Scope.Closed ⟨pins, Γ.frames⟩ := by
  refine ⟨h.nodup, h.global_notMem, fun f hf => ?_⟩
  rcases h.anchored f hf with hglobal | hframe | ⟨e, he, hclosure⟩
  · exact Or.inl hglobal
  · exact Or.inr (Or.inl hframe)
  · exact Or.inr (Or.inr ⟨e, hpins he, hclosure⟩)

/-- The scope with another pin. -/
def Scope.push (Γ : Scope) (e : Pin) : Scope := ⟨Γ.pins ++ [e], Γ.frames⟩

namespace Twins

theorem pin (h : Twins Γ ρ m n) (hr : ρ r s) {p : Object} (ho : m.heap.get? r = some o)
    (hp : n.heap.get? s = some p) :
    Twins (Γ.push ⟨r, s, o, p⟩) ρ { m with pins := m.pins.push r } { n with pins := n.pins.push s } := by
  refine h.setPins (h.closed.mono (subset_append_left _ _)) ⟨?_, ?_, ?_, ?_, ?_⟩
  · simp [h.pins.left_eq]
  · simp [h.pins.right_eq]
  · intro e he
    rcases List.mem_append.mp he with he | he
    · exact h.pins.paired e he
    · cases List.mem_singleton.mp he
      exact hr
  · intro e he
    rcases List.mem_append.mp he with he | he
    · exact h.pins.left_became e he
    · cases List.mem_singleton.mp he
      exact ⟨o, ho, Or.inl rfl⟩
  · intro e he
    rcases List.mem_append.mp he with he | he
    · exact h.pins.right_became e he
    · cases List.mem_singleton.mp he
      exact ⟨p, hp, Or.inl rfl⟩

/-- Pinning several references. -/
theorem pinAll (h : Twins Γ ρ m n) {rs ss : List Ref} (hrs : List.Forall₂ ρ rs ss) :
    ∃ pins, pins.map Pin.left = rs ∧ pins.map Pin.right = ss ∧
      Twins ⟨Γ.pins ++ pins, Γ.frames⟩ ρ { m with pins := m.pins ++ rs } { n with pins := n.pins ++ ss } := by
  induction hrs generalizing Γ m n with
  | nil => exact ⟨[], rfl, rfl, by simpa using h⟩
  | @cons r s rs ss hr _ ih =>
    obtain ⟨o, p, ho, hp, -⟩ := h.heaps.agree hr
    obtain ⟨pins, hleft, hright, htwins⟩ := ih (h.pin hr ho hp)
    refine ⟨⟨r, s, o, p⟩ :: pins, by simp [hleft], by simp [hright], ?_⟩
    simpa [Scope.push] using htwins

/-- Dropping the latest pins, if the frames that are registered do not need them. -/
theorem unpinTo (h : Twins Γ ρ m n) {rest : List Pin} (hpins : Γ.pins = pins ++ rest)
    (hclosed : Scope.Closed ⟨pins, Γ.frames⟩) :
    Twins ⟨pins, Γ.frames⟩ ρ { m with pins := m.pins.shrink pins.length }
      { n with pins := n.pins.shrink pins.length } := by
  have hmem {e : Pin} (he : e ∈ pins) : e ∈ Γ.pins := by
    rw [hpins]
    exact mem_append_left _ he
  refine h.setPins hclosed ⟨?_, ?_, ?_, ?_, ?_⟩
  · simp [h.pins.left_eq, hpins]
  · simp [h.pins.right_eq, hpins]
  · exact fun e he => h.pins.paired e (hmem he)
  · exact fun e he => h.pins.left_became e (hmem he)
  · exact fun e he => h.pins.right_became e (hmem he)

/-- Pinning another reference in place of one. -/
theorem repin (h : Twins Γ ρ m n) {before after : List Pin} {e : Pin} (hpins : Γ.pins = before ++ e :: after)
    (hr : ρ r s) {p : Object} (ho : m.heap.get? r = some o) (hp : n.heap.get? s = some p)
    (hclosed : Scope.Closed ⟨before ++ after, Γ.frames⟩) :
    Twins ⟨before ++ ⟨r, s, o, p⟩ :: after, Γ.frames⟩ ρ
      { m with pins := m.pins.setIfInBounds before.length r }
      { n with pins := n.pins.setIfInBounds before.length s } := by
  have hcases {e' : Pin} (he : e' ∈ before ++ ⟨r, s, o, p⟩ :: after) :
      e' = ⟨r, s, o, p⟩ ∨ e' ∈ Γ.pins := by
    rw [hpins]
    simp only [mem_append, mem_cons] at he ⊢
    tauto
  refine h.setPins (hclosed.mono (by intro e'; simp; tauto)) ⟨?_, ?_, ?_, ?_, ?_⟩
  · simp [h.pins.left_eq, hpins]
  · simp [h.pins.right_eq, hpins]
  · intro e' he
    rcases hcases he with rfl | he
    · exact hr
    · exact h.pins.paired e' he
  · intro e' he
    rcases hcases he with rfl | he
    · exact ⟨o, ho, Or.inl rfl⟩
    · exact h.pins.left_became e' he
  · intro e' he
    rcases hcases he with rfl | he
    · exact ⟨p, hp, Or.inl rfl⟩
    · exact h.pins.right_became e' he

end Twins

/-! ## Frames -/

/-- A function that is there keeps captured names in a frame. -/
def Machine.Owns (m : Machine) (f : FrameId) : Prop :=
  ∃ r o, m.heap.get? r = some o ∧ o.closure? = some f

theorem Machine.Tidy.detached_of_owns (h : m.Tidy) (hf : m.Owns f) :
    m.Detached f := by
  obtain ⟨r, o, ho, hclosure⟩ := hf
  exact h.detached ho hclosure

theorem Frames.lt_size_of_parent? {f p : FrameId} (h : fs.parent? f = some p) :
    f < fs.arena.size := by
  obtain ⟨fr, hfr, -⟩ := Option.bind_eq_some_iff.mp h
  exact (Array.getElem?_eq_some_iff.mp hfr).1

theorem Machine.Detached.lt_size (h : m.Detached f) :
    f < m.frames.arena.size :=
  lt_size_of_parent? h.parent_eq

theorem Machine.Tidy.setFrames (h : m.Tidy) (hpos : global < fs.arena.size)
    (htop : fs.parent? global = none) (hdetached : ∀ f, m.Owns f → { m with frames := fs }.Detached f)
    (hglobals : ∀ b ∈ fs.binds global, ∃ f, m.heap.get? b.2 = some (.function f)) :
    { m with frames := fs }.Tidy where
  wellFormed := h.wellFormed
  global_lt := hpos
  global_top := htop
  detached := fun ho hf => hdetached _ ⟨_, _, ho, hf⟩
  sole := h.sole
  globals := hglobals
  unit_eq := h.unit_eq
  nil_eq := h.nil_eq

namespace Twins

theorem owns_of_paired (h : Twins Γ ρ m n) (hr : ρ r s)
    (ho : m.heap.get? r = some o) (hf : o.closure? = some f) : m.Owns f ∧ n.Owns f := by
  obtain ⟨p, hp, hagree⟩ := h.heaps.exists_right hr ho
  exact ⟨⟨r, o, ho, hf⟩, ⟨s, p, hp, hagree.closure?_eq.symm.trans hf⟩⟩

/-- Other frames on both sides, if those of captured names are still detached and keep their bindings. -/
theorem setFrames (h : Twins Γ ρ m n) {frames : List (FrameId × FrameId)} {gs : Frames}
    (hleft : { m with frames := fs }.Tidy) (hright : { n with frames := gs }.Tidy)
    (hclosed : Scope.Closed ⟨Γ.pins, frames⟩) (hframes : FrameTwins frames ρ fs gs)
    (hbinds : ∀ f, m.Owns f → fs.binds f = m.frames.binds f)
    (hbinds' : ∀ f, n.Owns f → gs.binds f = n.frames.binds f) :
    Twins ⟨Γ.pins, frames⟩ ρ { m with frames := fs } { n with frames := gs } where
  left := hleft
  right := hright
  closed := hclosed
  heaps := h.heaps
  frames := hframes
  captured := fun {r s o f} hr ho hf => by
    obtain ⟨hm, hn⟩ := h.owns_of_paired hr ho hf
    show ρ.Binds (fs.binds f) (gs.binds f)
    rw [hbinds f hm, hbinds' f hn]
    exact h.captured hr ho hf
  pins := ⟨h.pins.left_eq, h.pins.right_eq, h.pins.paired, h.pins.left_became, h.pins.right_became⟩
  unit := h.unit
  nil := h.nil
  surroundings := h.surroundings
  inStep := h.inStep

/-- A registered frame is not the frame of captured names of a function. -/
theorem not_owns_of_mem (h : Twins Γ ρ m n) (hf : f ∈ Γ.frames.map Prod.fst) :
    ¬ m.Owns f ∧ ¬ n.Owns f := by
  constructor
  · intro howns
    exact (h.left.detached_of_owns howns).notMem (h.frames.leftRegistered ▸ hf)
  · intro howns
    exact (h.right.detached_of_owns howns).notMem (h.frames.rightRegistered ▸ hf)

theorem lt_size_of_mem (h : Twins Γ ρ m n) (hf : f ∈ Γ.frames.map Prod.fst) :
    f < m.frames.arena.size := by
  obtain ⟨fp, hmem, rfl⟩ := List.mem_map.mp hf
  exact lt_size_of_parent? (h.frames.parents fp hmem)

end Twins

/-- The scope with another registered frame. -/
def Scope.enter (Γ : Scope) (f parent : FrameId) : Scope := ⟨Γ.pins, (f, parent) :: Γ.frames⟩

theorem Machine.Tidy.global_ne (h : m.Tidy) : global ≠ m.frames.arena.size :=
  Nat.ne_of_lt h.global_lt

theorem Machine.Tidy.fork (h : m.Tidy) (p : FrameId) :
    { m with frames := (m.frames.fork p).1 }.Tidy := by
  refine h.setFrames (by rw [size_fork]; exact Nat.lt_succ_of_lt h.global_lt) ?_ ?_ ?_
  · rw [parent?_fork, if_neg h.global_ne]
    exact h.global_top
  · intro f hf
    have hd := h.detached_of_owns hf
    refine ⟨hd.ne_global, ?_, ?_⟩
    · show f ∉ m.frames.arena.size :: m.frames.registered
      rw [mem_cons, not_or]
      exact ⟨Nat.ne_of_lt hd.lt_size, hd.notMem⟩
    · show (m.frames.fork p).1.parent? f = some global
      rw [parent?_fork, if_neg (Nat.ne_of_lt hd.lt_size)]
      exact hd.parent_eq
  · rw [binds_fork]
    exact h.globals

namespace Twins

theorem fork_eq (h : Twins Γ ρ m n) (p q : FrameId) : (m.frames.fork p).2 = (n.frames.fork q).2 :=
  h.frames.size_eq

/-- A new frame, below one that is kept. -/
theorem fork (h : Twins Γ ρ m n) {p : FrameId} (hp : Γ.Anchors p) :
    Twins (Γ.enter (m.frames.fork p).2 p) ρ { m with frames := (m.frames.fork p).1 }
      { n with frames := (n.frames.fork p).1 } := by
  have hnew : (m.frames.fork p).2 = m.frames.arena.size := rfl
  have hfresh : (m.frames.fork p).2 ∉ Γ.frames.map Prod.fst := fun hmem =>
    Nat.lt_irrefl _ (h.lt_size_of_mem hmem)
  refine h.setFrames (h.left.fork p) (h.right.fork p) ⟨?_, ?_, ?_⟩ ⟨?_, ?_, ?_, ?_, ?_, ?_, ?_⟩ ?_ ?_
  · exact List.nodup_cons.mpr ⟨hfresh, h.closed.nodup⟩
  · intro hmem
    rcases List.mem_cons.mp hmem with heq | hmem
    · exact h.left.global_ne heq
    · exact h.closed.global_notMem hmem
  · have hweaken {f : FrameId} (hf : Γ.Anchors f) : (Γ.enter (m.frames.fork p).2 p).Anchors f := by
      rcases hf with hf | hf | hf
      · exact Or.inl hf
      · exact Or.inr (Or.inl (mem_cons_of_mem _ hf))
      · exact Or.inr (Or.inr hf)
    intro f hf
    rcases List.mem_cons.mp hf with rfl | hf
    · exact hweaken hp
    · exact hweaken (h.closed.anchored f hf)
  · simp [h.frames.size_eq]
  · intro f
    rw [parent?_fork, parent?_fork, h.frames.size_eq, h.frames.parent_eq]
  · exact congrArg (List.cons _) h.frames.leftRegistered
  · rw [hnew, h.frames.size_eq]
    exact congrArg (List.cons _) h.frames.rightRegistered
  · intro f hf
    rw [parent?_fork]
    rcases List.mem_cons.mp hf with rfl | hf
    · rw [if_pos hnew]
    · rw [if_neg (Nat.ne_of_lt (h.lt_size_of_mem (mem_map_of_mem hf)))]
      exact h.frames.parents f hf
  · rw [binds_fork, binds_fork]
    exact h.frames.globals
  · intro f hf
    rw [binds_fork, binds_fork]
    rcases List.mem_cons.mp hf with rfl | hf
    · -- the new frame binds nothing yet
      rw [binds_of_size_le (Nat.le_of_eq hnew.symm),
        binds_of_size_le (Nat.le_of_eq (h.frames.size_eq.symm.trans hnew.symm))]
      exact .nil
    · exact h.frames.locals f hf
  · exact fun f _ => binds_fork _ _ _
  · exact fun f _ => binds_fork _ _ _

end Twins

theorem Machine.Tidy.modifyBinds (h : m.Tidy)
    {u : List (Text × Ref) → List (Text × Ref)}
    (hglobals : f = global → ∀ b ∈ u (m.frames.binds global), ∃ f,
      m.heap.get? b.2 = some (.function f)) : { m with frames := m.frames.modifyBinds f u }.Tidy := by
  refine h.setFrames (by simpa using h.global_lt) (by simpa using h.global_top) ?_ ?_
  · intro g hg
    obtain ⟨hne, hmem, hparent⟩ := h.detached_of_owns hg
    exact ⟨hne, hmem, (parent?_modifyBinds _ _ _ _).trans hparent⟩
  · rw [binds_modifyBinds]
    split
    · next hf => exact hglobals hf.1
    · exact h.globals

namespace Twins

/-- Changing the bindings of the global frame or of a registered one. -/
theorem modifyBinds (h : Twins Γ ρ m n) (hf : Γ.Env f)
    {u v : List (Text × Ref) → List (Text × Ref)}
    (huv : ∀ bs cs, ρ.Binds bs cs → ρ.Binds (u bs) (v cs))
    (hleft : { m with frames := m.frames.modifyBinds f u }.Tidy)
    (hright : { n with frames := n.frames.modifyBinds f v }.Tidy) :
    Twins Γ ρ { m with frames := m.frames.modifyBinds f u }
      { n with frames := n.frames.modifyBinds f v } := by
  have hpaired {g : FrameId} (hg : ρ.Binds (m.frames.binds g) (n.frames.binds g)) :
      ρ.Binds ((m.frames.modifyBinds f u).binds g) ((n.frames.modifyBinds f v).binds g) := by
    rw [binds_modifyBinds, binds_modifyBinds, ← h.frames.size_eq]
    split
    · exact huv _ _ hg
    · exact hg
  -- a frame of captured names is neither the global one nor registered
  have hkept {g : FrameId} (hg : m.Owns g ∨ n.Owns g) : f ≠ g := by
    rintro rfl
    rcases hf with rfl | hf
    · exact hg.elim (fun hg => (h.left.detached_of_owns hg).ne_global rfl)
        fun hg => (h.right.detached_of_owns hg).ne_global rfl
    · exact hg.elim (h.not_owns_of_mem hf).1 (h.not_owns_of_mem hf).2
  refine h.setFrames hleft hright h.closed ⟨?_, ?_, h.frames.leftRegistered, h.frames.rightRegistered, ?_,
    hpaired h.frames.globals, fun g hg => hpaired (h.frames.locals g hg)⟩ ?_ ?_
  · simpa using h.frames.size_eq
  · intro g
    simpa using h.frames.parent_eq g
  · intro g hg
    simpa using h.frames.parents g hg
  · intro g hg
    rw [binds_modifyBinds, if_neg fun hfg => hkept (Or.inl hg) hfg.1]
  · intro g hg
    rw [binds_modifyBinds, if_neg fun hfg => hkept (Or.inr hg) hfg.1]

/-- Adding bindings to a registered frame. -/
theorem bindAll (h : Twins Γ ρ m n) (hf : f ∈ Γ.frames.map Prod.fst)
    {bs cs : List (Text × Ref)} (hbs : ρ.Binds bs cs) :
    Twins Γ ρ { m with frames := m.frames.bindAll f bs } { n with frames := n.frames.bindAll f cs } := by
  have hne : f ≠ global := fun heq => h.closed.global_notMem (heq ▸ hf)
  exact h.modifyBinds (Or.inr hf) (fun _ _ hold => hold.append hbs)
    (h.left.modifyBinds fun heq => absurd heq hne) (h.right.modifyBinds fun heq => absurd heq hne)

/-- Binding a function in the global frame. -/
theorem assign (h : Twins Γ ρ m n) (name : Text) (hr : ρ r s) {f : Function}
    (ho : m.heap.get? r = some (.function f)) :
    Twins Γ ρ { m with frames := m.frames.set global name r }
      { n with frames := n.frames.set global name s } := by
  obtain ⟨p, hp, hagree⟩ := h.heaps.exists_right hr ho
  cases hagree
  have hset {k : Machine} (hk : k.Tidy) {t : Ref} (ht : k.heap.get? t = some (.function f)) :
      ∀ b ∈ Frames.setIn name t (k.frames.binds global), ∃ f, k.heap.get? b.2 = some (.function f) :=
    forall_mem_setIn (P := fun t => ∃ f, k.heap.get? t = some (.function f)) name hk.globals ⟨f, ht⟩
  exact h.modifyBinds (Or.inl rfl) (fun _ _ hold => hold.setIn name hr)
    (h.left.modifyBinds fun _ => hset h.left ho) (h.right.modifyBinds fun _ => hset h.right hp)

end Twins

theorem Machine.Tidy.leave (h : m.Tidy) (hf : f ≠ global) :
    { m with frames := m.frames.leave f }.Tidy := by
  refine h.setFrames (by simpa using h.global_lt) (by simpa using h.global_top) ?_ ?_
  · intro g hg
    obtain ⟨hne, hmem, hparent⟩ := h.detached_of_owns hg
    exact ⟨hne, fun hg' => hmem (mem_of_mem_erase hg'), by simpa using hparent⟩
  · rw [binds_leave, if_neg hf]
    exact h.globals

theorem Machine.Tidy.newClosure (h : m.Tidy) (bs : List (Text × Ref)) :
    { m with frames := (m.frames.newClosure bs).1 }.Tidy := by
  refine h.setFrames (by rw [size_newClosure]; exact Nat.lt_succ_of_lt h.global_lt) ?_ ?_ ?_
  · rw [parent?_newClosure, if_neg h.global_ne]
    exact h.global_top
  · intro g hg
    have hd := h.detached_of_owns hg
    refine ⟨hd.ne_global, hd.notMem, ?_⟩
    show (m.frames.newClosure bs).1.parent? g = some global
    rw [parent?_newClosure, if_neg (Nat.ne_of_lt hd.lt_size)]
    exact hd.parent_eq
  · rw [binds_newClosure, if_neg h.global_ne]
    exact h.globals

namespace Twins

/-- Leaving the latest frame. -/
theorem leave {frames : List (FrameId × FrameId)} {f p : FrameId}
    (h : Twins ⟨pins, (f, p) :: frames⟩ ρ m n) (hclosed : Scope.Closed ⟨pins, frames⟩) :
    Twins ⟨pins, frames⟩ ρ { m with frames := m.frames.leave f } { n with frames := n.frames.leave f } := by
  have hmem : f ∈ ((f, p) :: frames).map Prod.fst := mem_cons_self
  have hne : f ≠ global := fun heq => h.closed.global_notMem (heq ▸ hmem)
  have hfresh : f ∉ frames.map Prod.fst := (List.nodup_cons.mp h.closed.nodup).1
  have hregistered {k : Machine} (hk : k.frames.registered = ((f, p) :: frames).map Prod.fst) :
      (k.frames.leave f).registered = frames.map Prod.fst := by
    show k.frames.registered.erase f = _
    rw [hk, map_cons, erase_cons_head]
  -- only the frame that is left loses its bindings, and no function has it
  have hbinds (fs : Frames) {g : FrameId} (hg : f ≠ g) : (fs.leave f).binds g = fs.binds g := by
    rw [binds_leave, if_neg hg]
  refine h.setFrames (h.left.leave hne) (h.right.leave hne) hclosed
    ⟨?_, ?_, hregistered h.frames.leftRegistered, hregistered h.frames.rightRegistered, ?_, ?_, ?_⟩ ?_ ?_
  · simpa using h.frames.size_eq
  · intro g
    simpa using h.frames.parent_eq g
  · intro g hg
    simpa using h.frames.parents g (mem_cons_of_mem _ hg)
  · rw [hbinds _ hne, hbinds _ hne]
    exact h.frames.globals
  · intro g hg
    have hfg : f ≠ g.1 := fun heq => hfresh (heq ▸ mem_map_of_mem hg)
    rw [hbinds _ hfg, hbinds _ hfg]
    exact h.frames.locals g (mem_cons_of_mem _ hg)
  · intro g hg
    exact hbinds _ fun heq => (h.not_owns_of_mem hmem).1 (heq ▸ hg)
  · intro g hg
    exact hbinds _ fun heq => (h.not_owns_of_mem hmem).2 (heq ▸ hg)

/-- A frame for captured names, not yet that of any function. -/
theorem newClosure (h : Twins Γ ρ m n) {bs cs : List (Text × Ref)} :
    Twins Γ ρ { m with frames := (m.frames.newClosure bs).1 }
      { n with frames := (n.frames.newClosure cs).1 } := by
  have hold {fs : Frames} {g : FrameId} (as : List (Text × Ref)) (hg : g < fs.arena.size) :
      (fs.newClosure as).1.binds g = fs.binds g := by
    rw [binds_newClosure, if_neg (Nat.ne_of_lt hg)]
  have hsize {g : FrameId} (hg : g < m.frames.arena.size) : g < n.frames.arena.size := h.frames.size_eq ▸ hg
  refine h.setFrames (h.left.newClosure bs) (h.right.newClosure cs) h.closed
    ⟨?_, ?_, h.frames.leftRegistered, h.frames.rightRegistered, ?_, ?_, ?_⟩ ?_ ?_
  · simp [h.frames.size_eq]
  · intro g
    rw [parent?_newClosure, parent?_newClosure, h.frames.size_eq, h.frames.parent_eq]
  · intro g hg
    rw [parent?_newClosure, if_neg (Nat.ne_of_lt (h.lt_size_of_mem (mem_map_of_mem hg)))]
    exact h.frames.parents g hg
  · rw [hold bs h.left.global_lt, hold cs h.right.global_lt]
    exact h.frames.globals
  · intro g hg
    have hlt := h.lt_size_of_mem (mem_map_of_mem hg)
    rw [hold bs hlt, hold cs (hsize hlt)]
    exact h.frames.locals g hg
  · exact fun g hg => hold bs (h.left.detached_of_owns hg).lt_size
  · exact fun g hg => hold cs (h.right.detached_of_owns hg).lt_size

end Twins

end TinyScript
