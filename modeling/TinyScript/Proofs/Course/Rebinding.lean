import TinyScript.Proofs.Course.Roots

/-!
# Giving a name to something else

A definition takes a name from what it was bound to. If nothing else leads there (`Machine.ReachableBesides`), two
collections free it: the first one finds it marked still, as it was a root, and the second one does not find it at all.
Registering a native function under a name that is bound releases nothing.
-/

namespace TinyScript

open Syntax (Expr)
open Frames (global)
open List

/-! ## What a collection leaves -/

namespace Machine

variable {m : Machine} {r : Ref}

theorem valid_forceCollect_iff (hwf : m.heap.WellFormed) :
    (Act.forceCollect.run m).2.heap.valid r = true ↔ m.Reachable r := by
  obtain ⟨h', l', totals, notes, hrun, -, -, -, hcleared⟩ := forceCollect_spec hwf
  rw [hrun]
  exact hcleared.valid_iff hwf

/-- After a collection no object is new. -/
theorem flag?_forceCollect_ne (hwf : m.heap.WellFormed) : (Act.forceCollect.run m).2.heap.flag? r ≠ some .marked := by
  intro hflag
  have hreach := (valid_forceCollect_iff hwf).mp (Heap.valid_of_flag? hflag)
  obtain ⟨h', l', totals, notes, hrun, -, -, -, hcleared⟩ := forceCollect_spec hwf
  rw [hrun] at hflag
  have heq := (hcleared.flag?_eq hwf hreach).symm.trans hflag
  split at heq <;> cases heq

theorem binds_forceCollect_subset (hwf : m.heap.WellFormed) (f : FrameId) :
    (Act.forceCollect.run m).2.frames.binds f ⊆ m.frames.binds f := by
  obtain ⟨h', l', totals, notes, hrun, -⟩ := forceCollect_spec hwf
  rw [hrun]
  show (m.doomed.foldl Frames.leave m.frames).binds f ⊆ _
  rw [Frames.binds_foldl_leave]
  split
  · exact nil_subset _
  · exact List.Subset.refl _

end Machine

/-! ## What else leads to an object -/

/-- The references that a search comes to if it starts neither from the binding of a name in the global frame nor
from what the name is bound to, and not from objects that are merely new. -/
inductive Machine.ReachableBesides (m : Machine) (name : Text) (old : Ref) : Ref → Prop
  | root {r : Ref} : m.heap.flag? r = some .root → r ≠ old → ReachableBesides m name old r
  | global {b : Text × Ref} : b ∈ m.frames.binds global → b.1 ≠ name → ReachableBesides m name old b.2
  | registered {f g : FrameId} {b : Text × Ref} : f ∈ m.frames.registered → m.frames.Above f g → g ≠ global →
    b ∈ m.frames.binds g → ReachableBesides m name old b.2
  | pinned {r : Ref} : r ∈ m.pins → ReachableBesides m name old r
  | part {r s : Ref} {o : Object} : ReachableBesides m name old r → m.heap.get? r = some o → s ∈ o.children →
    ReachableBesides m name old s
  | captured {r : Ref} {o : Object} {f g : FrameId} {b : Text × Ref} : ReachableBesides m name old r →
    m.heap.get? r = some o → o.closure? = some f → m.frames.Above f g → g ≠ global → b ∈ m.frames.binds g →
    ReachableBesides m name old b.2

/-! ## Rebinding -/

namespace Frames

theorem first?_setIn (bs : List (Text × Ref)) (name : Text) (r : Ref) : first? (setIn name r bs) name = some r := by
  induction bs with
  | nil => simp [setIn, first?]
  | cons b bs ih =>
    rw [setIn]
    split
    · simp [first?]
    · next hb => simpa [first?, hb] using ih

/-- A name that is bound once is bound to the new reference only. -/
theorem mem_setIn {bs : List (Text × Ref)} {name : Text} {r : Ref} {b : Text × Ref}
    (hbs : (bs.map Prod.fst).Nodup) (hb : b ∈ setIn name r bs) : b = (name, r) ∨ b ∈ bs ∧ b.1 ≠ name := by
  cases hfirst : first? bs name with
  | none =>
    rw [(setIn_of_first?_none hfirst r).2, mem_append, mem_singleton] at hb
    exact hb.symm.imp_right fun hb => ⟨hb, first?_eq_none_iff.mp hfirst b hb⟩
  | some old =>
    obtain ⟨front, back, hfront, rfl, hset⟩ := setIn_of_first? hfirst r
    rw [hset, mem_append, mem_cons] at hb
    rw [map_append, map_cons, nodup_append, nodup_cons] at hbs
    rcases hb with hb | rfl | hb
    · exact .inr ⟨mem_append_left _ hb, hfront b hb⟩
    · exact .inl rfl
    · refine .inr ⟨mem_append_right _ (mem_cons_of_mem _ hb), ?_⟩
      rintro rfl
      exact hbs.2.1.1 (List.mem_map.mpr ⟨b, hb, rfl⟩)

end Frames

/-- A new root was allocated and bound to a name in the global frame. -/
structure Machine.Rebound (name : Text) (new : Ref) (o : Object) (m m' : Machine) : Prop where
  frames : m'.frames = m.frames.set global name new
  pins : m'.pins = m.pins
  fresh : ¬ m.heap.valid new
  get?_iff : ∀ {r p}, m'.heap.get? r = some p ↔ (r = new ∧ p = o) ∨ m.heap.get? r = some p
  root : m'.heap.flag? new = some .root

namespace Machine

variable {m m' : Machine} {kept : List Ref} {rooms : Rooms} {name : Text} {new old : Ref} {o : Object}

theorem rebound_define (hm : m.Rooted kept) (hwf : m.heap.WellFormed) (d : Syntax.Def) :
    m.Rebound d.name ((Eval.define d).run m).1 d.object ((Eval.define d).run m).2 := by
  have hget (r : Ref) := m.get?_define hwf d r
  have hroot := m.flag?_define hwf d (m.heap.alloc d.object true).2
  obtain ⟨heap, hrun, -⟩ := m.define_run d
  rw [hrun] at hget hroot ⊢
  have hfresh := hwf.not_valid_alloc d.object true
  refine ⟨rfl, rfl, hfresh, fun {r p} => (iff_of_eq (by rw [hget])).trans hwf.get?_alloc_iff, hroot.mpr ⟨.inl rfl, ?_⟩⟩
  exact fun hold => hfresh (Heap.valid_of_flag? (hm.root_of_resolveLocal? hold))

theorem rebound_addFunction (hwf : m.heap.WellFormed) (name : Text) (op : Primitive) :
    m.Rebound name (m.heap.alloc (.function ⟨name, .native op⟩) true).2 (.function ⟨name, .native op⟩)
      ((Act.addFunction name op).run m).2 :=
  ⟨rfl, rfl, hwf.not_valid_alloc _ true, hwf.get?_alloc_iff, hwf.flag?_alloc_iff.mpr (.inl ⟨rfl, rfl⟩)⟩

namespace Rebound

theorem resolve? (h : m.Rebound name new o m') (hm : m.Sturdy) :
    m'.frames.resolveLocal? global name = some new := by
  rw [h.frames, Frames.resolveLocal?_eq, hm.binds_set]
  exact Frames.first?_setIn _ name new

/-- Once a collection is over, all that is reachable is the new object or what was reachable without the old. -/
theorem besides (h : m.Rebound name new o m') (hsturdy : m.Sturdy) (hroots : m.Rooted kept) (hm' : m'.Kept rooms)
    (hparts : o.children = []) (hclosure : o.closure? = none)
    (hroot : ∀ r, m'.heap.flag? r = some .root → r = new ∨ m.heap.flag? r = some .root ∧ r ≠ old) {r : Ref}
    (hr : (Act.forceCollect.run m').2.Reachable r) : r = new ∨ m.ReachableBesides name old r := by
  have hshrinks := hm'.shrinks_forceCollect
  have hglobal {b : Text × Ref} (hb : b ∈ m'.frames.binds global) :
      b.2 = new ∨ m.ReachableBesides name old b.2 := by
    rw [h.frames, hsturdy.binds_set] at hb
    rcases Frames.mem_setIn hroots.names hb with rfl | ⟨hb, hne⟩
    · exact .inl rfl
    · exact .inr (.global hb hne)
  have hbinds {g : FrameId} (hg : g ≠ global) {b : Text × Ref} (hb : b ∈ m'.frames.binds g) :
      b ∈ m.frames.binds g := by
    rw [h.frames, Frames.set, Frames.binds_modifyBinds, if_neg fun heq => hg heq.1.symm] at hb
    exact hb
  have habove {f g : FrameId} (hfg : (Act.forceCollect.run m').2.frames.Above f g) : m.frames.Above f g := by
    refine hfg.mono fun g p hp => ?_
    rwa [hshrinks.parent_eq, h.frames, Frames.set, Frames.parent?_modifyBinds] at hp
  -- an object that was reached is not the new one, as that one leads nowhere
  have hbefore {r : Ref} {p : Object} (hp : (Act.forceCollect.run m').2.heap.get? r = some p) :
      p = o ∨ r ≠ new ∧ m.heap.get? r = some p := by
    rcases h.get?_iff.mp (hshrinks.get?_of_get? hp) with ⟨-, rfl⟩ | hp
    · exact .inl rfl
    · exact .inr ⟨fun hnew => h.fresh (hnew ▸ Heap.valid_of_get? hp), hp⟩
  induction hr with
  | seed hseed _ =>
    cases hseed with
    | flagged hflag hf =>
      rcases hf with rfl | rfl
      · have hflag' := (hshrinks.root_iff (Heap.valid_of_flag? hflag)).mp hflag
        exact (hroot _ hflag').imp_right fun hs => .root hs.1 hs.2
      · exact absurd hflag (flag?_forceCollect_ne hm'.heap)
    | global hb => exact hglobal (binds_forceCollect_subset hm'.heap _ hb)
    | @registered f g b hf hfg hb =>
      have hb := binds_forceCollect_subset hm'.heap _ hb
      by_cases hg : g = global
      · exact hglobal (hg ▸ hb)
      · rw [hshrinks.registered_eq, h.frames] at hf
        exact .inr (.registered hf (habove hfg) hg (hbinds hg hb))
    | pinned hpin =>
      rw [hshrinks.pins_eq, h.pins] at hpin
      exact .inr (.pinned hpin)
  | part _ hp hs _ ih =>
    rcases hbefore hp with rfl | ⟨hne, hp⟩
    · rw [hparts] at hs
      cases hs
    · exact .inr (.part (ih.resolve_left hne) hp hs)
  | @captured r p f g b _ hp hf hfg hb _ ih =>
    have hb := binds_forceCollect_subset hm'.heap _ hb
    rcases hbefore hp with rfl | ⟨hne, hp⟩
    · rw [hclosure] at hf
      cases hf
    · by_cases hg : g = global
      · exact hglobal (hg ▸ hb)
      · exact .inr (.captured (ih.resolve_left hne) hp hf (habove hfg) hg (hbinds hg hb))

end Rebound

/-- The machine after two collections with nothing in between. -/
def collectedTwice (m : Machine) : Machine := (Act.forceCollect.run (Act.forceCollect.run m).2).2

theorem Kept.binds_collectedTwice (hm : m.Kept rooms) :
    m.collectedTwice.frames.binds global = m.frames.binds global := by
  have honce := hm.shrink hm.shrinks_forceCollect
  rw [collectedTwice, honce.binds_global honce.shrinks_forceCollect, hm.binds_global hm.shrinks_forceCollect]

theorem Kept.root_collectedTwice (hm : m.Kept rooms) {r : Ref} (hr : m.heap.flag? r = some .root) :
    m.collectedTwice.heap.flag? r = some .root ∧ m.collectedTwice.heap.get? r = m.heap.get? r := by
  obtain ⟨hroot, hget⟩ := hm.shrinks_forceCollect.keeps_root hr
  obtain ⟨hroot', hget'⟩ := (hm.shrink hm.shrinks_forceCollect).shrinks_forceCollect.keeps_root hroot
  rw [collectedTwice, hget', hget]
  exact ⟨hroot', rfl⟩

/-- What a name was given to survives two collections, and the name still resolves to it. -/
theorem Rebound.collectedTwice (h : m.Rebound name new o m') (hsturdy : m.Sturdy) (hm' : m'.Kept rooms) :
    m'.collectedTwice.frames.resolveLocal? global name = some new ∧
      m'.collectedTwice.heap.get? new = some o := by
  refine ⟨?_, (hm'.root_collectedTwice h.root).2.trans (h.get?_iff.mpr (.inl ⟨rfl, rfl⟩))⟩
  rw [Frames.resolveLocal?_eq, hm'.binds_collectedTwice, ← Frames.resolveLocal?_eq]
  exact h.resolve? hsturdy

/-- **Definitions release what had their name, native functions do not.** On any machine that a host comes to, a
name of the global frame is given to something else, and two collections follow. The new function is there, and
the name resolves to it. If it was defined, what had the name before is gone, provided that nothing else leads
there. If it was registered, what had the name before is a root still. -/
theorem Hosted.rebinding_releases (h : m.Hosted fun _ _ => True)
    (hold : m.frames.resolveLocal? Frames.global name = some old) :
    (¬ m.ReachableBesides name old old → ∀ d : Syntax.Def, d.name = name →
      let x := (Eval.define d).run m
      x.2.collectedTwice.heap.valid old = false ∧
      x.2.collectedTwice.frames.resolveLocal? Frames.global name = some x.1 ∧
      x.2.collectedTwice.heap.get? x.1 = some d.object) ∧
    ∀ op : Primitive,
      let m' := ((Act.addFunction name op).run m).2.collectedTwice
      m'.heap.flag? old = some .root ∧ ∃ new, new ≠ old ∧
        m'.frames.resolveLocal? Frames.global name = some new ∧
        m'.heap.get? new = some (.function ⟨name, .native op⟩) := by
  obtain ⟨rooms, kept, hm, hroots, -⟩ := h.rooted
  have hroot := hroots.root_of_resolveLocal? hold
  have hne {new : Ref} (hfresh : ¬ m.heap.valid new = true) : new ≠ old :=
    fun heq => hfresh (heq ▸ Heap.valid_of_flag? hroot)
  constructor
  · rintro honly d rfl
    have hrebound := rebound_define hroots hm.heap d
    have hm' := hm.define d
    refine ⟨?_, hrebound.collectedTwice hm.sturdy hm'⟩
    rw [← Bool.not_eq_true, collectedTwice,
      valid_forceCollect_iff (hm'.shrink hm'.shrinks_forceCollect).heap]
    intro hreach
    have hroots' (r : Ref) (hr : ((Eval.define d).run m).2.heap.flag? r = some .root) :
        r = ((Eval.define d).run m).1 ∨ m.heap.flag? r = some .root ∧ r ≠ old := by
      obtain ⟨heap, hrun, -⟩ := m.define_run d
      obtain ⟨hr, hne⟩ := (m.flag?_define hm.heap d r).mp hr
      rw [hrun]
      exact hr.imp_right fun hr => ⟨hr, fun heq => hne (heq ▸ hold)⟩
    rcases hrebound.besides hm.sturdy hroots hm' rfl rfl hroots' hreach with heq | hbesides
    · exact hne hrebound.fresh heq.symm
    · exact honly hbesides
  · intro op
    have hrebound := rebound_addFunction hm.heap name op
    have hm' := hm.addFunction name op
    refine ⟨(hm'.root_collectedTwice ?_).1, _, hne hrebound.fresh, hrebound.collectedTwice hm.sturdy hm'⟩
    exact hm.heap.flag?_alloc_iff.mpr (.inr hroot)

/-- A machine with one definition. -/
def defining : Machine := ((Act.loadText "def f() = 1").run (Settings.machine {} .never [])).2

theorem hosted_defining (Adds : Machine → Text → Prop) : defining.Hosted Adds :=
  .load "def f() = 1" (.fresh {} .never nodup_nil)

set_option maxRecDepth 20000 in
/-- Only its name leads to the function. -/
theorem not_reachableBesides_defining : ¬ defining.ReachableBesides "f" ⟨2, 1⟩ ⟨2, 1⟩ := by
  have hstate : (defining.unit, defining.nil, defining.heap.get? ⟨0, 1⟩, defining.heap.get? ⟨1, 1⟩,
      defining.frames.binds global, defining.frames.registered, defining.pins)
      = ((⟨0, 1⟩ : Ref), (⟨1, 1⟩ : Ref), some .unit, some .nil, [(("f" : Text), (⟨2, 1⟩ : Ref))], [], #[]) := by
    cbv
  simp only [Prod.mk.injEq] at hstate
  obtain ⟨hunit, hnil, hgetUnit, hgetNil, hbinds, hregistered, hpins⟩ := hstate
  obtain ⟨rooms, kept, -, hroots, hempty⟩ := (hosted_defining Unbound).rooted
  obtain rfl := hempty fun _ _ hunbound => hunbound
  -- the shared objects hold nothing, so the search ends with them
  have hshared {r : Ref} {o : Object} (hr : r = ⟨0, 1⟩ ∨ r = ⟨1, 1⟩) (ho : defining.heap.get? r = some o) :
      o.children = [] ∧ o.closure? = none := by
    rcases hr with rfl | rfl
    · obtain rfl := Option.some.inj (hgetUnit.symm.trans ho)
      exact ⟨rfl, rfl⟩
    · obtain rfl := Option.some.inj (hgetNil.symm.trans ho)
      exact ⟨rfl, rfl⟩
  have hall {r : Ref} (hr : defining.ReachableBesides "f" ⟨2, 1⟩ r) : r = ⟨0, 1⟩ ∨ r = ⟨1, 1⟩ := by
    induction hr with
    | root hroot hne =>
      have hmem := (hroots.root_iff _).mp hroot
      simp only [hbinds, hunit, hnil, nil_append, cons_append, map_cons, map_nil,
        mem_cons, not_mem_nil, or_false] at hmem
      rcases hmem with hr | hr | hr
      · exact .inl hr
      · exact .inr hr
      · exact absurd hr hne
    | global hb hne =>
      rw [hbinds, mem_singleton] at hb
      exact absurd (congrArg Prod.fst hb) hne
    | registered hf =>
      rw [hregistered] at hf
      cases hf
    | pinned hpin =>
      rw [hpins] at hpin
      simp at hpin
    | part _ ho hs ih =>
      rw [(hshared ih ho).1] at hs
      cases hs
    | captured _ ho hf _ _ _ ih =>
      rw [(hshared ih ho).2] at hf
      cases hf
  intro hold
  rcases hall hold with heq | heq <;> cases heq

set_option maxRecDepth 20000 in
/-- Two definitions of one name, or one and a native function. -/
theorem Hosted.rebinding_releases_defining :
    defining.frames.resolveLocal? Frames.global "f" = some ⟨2, 1⟩ ∧
    ((Eval.define ⟨"f", [], .lookup "f"⟩).run defining).2.collectedTwice.heap.valid ⟨2, 1⟩ = false ∧
    ((Act.addFunction "f" .len).run defining).2.collectedTwice.heap.flag? ⟨2, 1⟩ = some .root := by
  have hold : defining.frames.resolveLocal? Frames.global "f" = some ⟨2, 1⟩ := by cbv
  obtain ⟨hdefine, hadd⟩ := (hosted_defining _).rebinding_releases hold
  exact ⟨hold, (hdefine not_reachableBesides_defining ⟨"f", [], .lookup "f"⟩ rfl).1, (hadd .len).1⟩

end Machine

end TinyScript
