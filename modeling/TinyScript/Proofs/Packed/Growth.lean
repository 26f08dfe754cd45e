import TinyScript.Proofs.Packed.Structure
import TinyScript.Proofs.Twin.Logic

/-!
# Machines that grow

While a value is built, collections may free whatever no pin holds. `Machine.Grows` is what remains: all that pins hold
stays as it is (`Machine.Guarded`), and the pins stay. Allocations (`Act.adds_of_alloc`) and changes to a dict that
nothing held before (`Machine.Grows.setDict`) are cases of it, and so is everything made of them.
-/

namespace TinyScript

namespace Machine

variable {m m₁ m₂ : Machine} {r s : Ref} {o : Object}

/-- A machine that values can be unpacked on. Its shared `nil` is there for good. -/
structure Ready (m : Machine) : Prop where
  wellFormed : m.heap.WellFormed
  nil_eq : m.heap.get? m.nil = some .nil
  nil_root : m.heap.flag? m.nil = some .root

/-- What a pin holds. -/
def Guarded (m : Machine) (s : Ref) : Prop := m.heap.valid s = true ∧ ∃ p ∈ m.pins, m.heap.Reaches p s

theorem Guarded.reachable (hs : m.Guarded s) : m.Reachable s := by
  obtain ⟨hvalid, p, hp, hreach⟩ := hs
  induction hreach with
  | refl => exact .seed (.pinned hp) hvalid
  | part _ ho hmem ih => exact .part (ih (Heap.valid_iff_get?.mpr ⟨_, ho⟩)) ho hmem hvalid

/-- A value all of which is held by pins. -/
def Holds (m : Machine) (r : Ref) : Prop := ∀ s, m.heap.Reaches r s → m.Guarded s

theorem holds_of_mem_pins (hr : r ∈ m.pins) (hvalid : ∀ s, m.heap.Reaches r s → m.heap.valid s) :
    m.Holds r := fun s hs => ⟨hvalid s hs, r, hr, hs⟩

/-! ## Growing -/

/-- What is kept when a machine goes on from `m` to `m'`. -/
structure Grows (m m' : Machine) : Prop where
  ready : m'.Ready
  nil_eq : m'.nil = m.nil
  pins : ∀ p ∈ m.pins, p ∈ m'.pins
  kept : ∀ s, m.Guarded s → m'.heap.get? s = m.heap.get? s

namespace Grows

theorem refl (hm : m.Ready) : m.Grows m := ⟨hm, rfl, fun _ hp => hp, fun _ _ => rfl⟩

theorem guarded (hg : m.Grows m₁) (hs : m.Guarded s) : m₁.Guarded s := by
  obtain ⟨hvalid, p, hp, hreach⟩ := id hs
  refine ⟨?_, p, hg.pins p hp, ?_⟩
  · obtain ⟨o, ho⟩ := Heap.valid_iff_get?.mp hvalid
    exact Heap.valid_iff_get?.mpr ⟨o, (hg.kept s hs).trans ho⟩
  -- what lies on the way to `s` is held as well
  · clear hs hvalid
    induction hreach with
    | refl => exact .refl
    | part hreach ho hmem ih =>
      have hguarded : m.Guarded _ := ⟨Heap.valid_iff_get?.mpr ⟨_, ho⟩, p, hp, hreach⟩
      exact .part ih ((hg.kept _ hguarded).trans ho) hmem

theorem trans (hg : m.Grows m₁) (hg' : m₁.Grows m₂) : m.Grows m₂ where
  ready := hg'.ready
  nil_eq := hg'.nil_eq.trans hg.nil_eq
  pins p hp := hg'.pins p (hg.pins p hp)
  kept s hs := (hg'.kept s (hg.guarded hs)).trans (hg.kept s hs)

theorem stays (hg : m.Grows m₁) (hr : m.Holds r) : m.heap.Stays m₁.heap r := fun s hs => hg.kept s (hr s hs)

/-- Pinning one more reference. -/
theorem pin (hg : m.Grows m₁) (r : Ref) : m.Grows { m₁ with pins := m₁.pins.push r } where
  ready := ⟨hg.ready.wellFormed, hg.ready.nil_eq, hg.ready.nil_root⟩
  nil_eq := hg.nil_eq
  pins p hp := Array.mem_push.mpr (Or.inl (hg.pins p hp))
  kept := hg.kept

/-- Changing a dict that was not held at first. -/
theorem setDict (hg : m.Grows m₁) {d : Ref} {t : Table Ref} (hd : m₁.heap.get? d = some (.dict t))
    (hnew : ¬ m.Guarded d) (t' : Table Ref) (notes : List Text) :
    m.Grows { m₁ with heap := m₁.heap.set d (.dict t'), notes := notes } where
  ready := by
    have hvalid := Heap.valid_iff_get?.mpr ⟨_, hd⟩
    have hne : m₁.nil ≠ d := by
      intro heq
      have hnil := hg.ready.nil_eq
      rw [heq, hd] at hnil
      cases hnil
    refine ⟨(hg.ready.wellFormed.set d _).wellFormed, ?_, ?_⟩
    · exact (Heap.get?_set hvalid _ _).trans ((if_neg hne).trans hg.ready.nil_eq)
    · exact (Heap.flag?_set hvalid _ _).trans hg.ready.nil_root
  nil_eq := hg.nil_eq
  pins := hg.pins
  kept s hs := by
    have hne : s ≠ d := by
      rintro rfl
      exact hnew hs
    exact (Heap.get?_set (Heap.valid_iff_get?.mpr ⟨_, hd⟩) _ _).trans ((if_neg hne).trans (hg.kept s hs))

end Grows

/-- A collection keeps all that pins hold. -/
theorem grows_forceCollect (hm : m.Ready) :
    m.Grows (Act.forceCollect.run m).2 ∧ (Act.forceCollect.run m).2.pins = m.pins := by
  obtain ⟨h', l', totals, notes, hrun, -, ht', -, hcleared⟩ := forceCollect_spec hm.wellFormed
  -- the shared `nil` is reachable because it is a root, the rest because of the pins
  have hnil : m.Reachable m.nil :=
    .seed (.flagged hm.nil_root (Or.inl rfl)) (Heap.valid_iff_get?.mpr ⟨_, hm.nil_eq⟩)
  rw [hrun]
  refine ⟨⟨⟨ht'.wellFormed, ?_, ?_⟩, rfl, fun _ hp => hp, ?_⟩, rfl⟩
  · exact (hcleared.get?_eq hm.wellFormed hnil).trans hm.nil_eq
  · exact (hcleared.flag?_eq hm.wellFormed hnil).trans (by rw [if_pos hm.nil_root])
  · exact fun s hs => hcleared.get?_eq hm.wellFormed hs.reachable

theorem grows_collect (hm : m.Ready) :
    m.Grows (Act.collect.run m).2 ∧ (Act.collect.run m).2.pins = m.pins := by
  rw [collect_run]
  split
  · exact grows_forceCollect hm
  · exact ⟨.refl hm, rfl⟩

/-! ## Allocating -/

/-- Going on from `m` to `m'` an object was added that `r` names, and that no pin held. -/
structure Adds (m : Machine) (o : Object) (r : Ref) (m' : Machine) : Prop where
  grows : m.Grows m'
  pins_eq : m'.pins = m.pins
  get?_eq : m'.heap.get? r = some o
  new : ¬ m.Guarded r

theorem Adds.of_grows {m' : Machine} (hg : m.Grows m₁) (hpins : m₁.pins = m.pins) (ha : m₁.Adds o r m') :
    m.Adds o r m' where
  grows := hg.trans ha.grows
  pins_eq := ha.pins_eq.trans hpins
  get?_eq := ha.get?_eq
  new hr := ha.new (hg.guarded hr)

end Machine

namespace Act

variable {m m' : Machine} {r : Ref} {o : Object}

theorem adds_of_allocRaw (hm : m.Ready) (h : (allocRaw o false).run m = (r, m')) : m.Adds o r m' := by
  obtain ⟨rfl, rfl⟩ := Prod.mk.inj h
  have hwf := hm.wellFormed
  have hget {s : Ref} {p : Object} (hp : m.heap.get? s = some p) : (m.heap.alloc o false).1.get? s = some p :=
    hwf.get?_alloc_iff.mpr (Or.inr hp)
  refine ⟨⟨⟨(hwf.alloc o false).wellFormed, ?_, ?_⟩, rfl, fun _ hp => hp, ?_⟩, rfl, ?_, ?_⟩
  · exact hget hm.nil_eq
  · exact hwf.flag?_alloc_iff.mpr (Or.inr hm.nil_root)
  · intro s hs
    obtain ⟨p, hp⟩ := Heap.valid_iff_get?.mp hs.1
    exact (hget hp).trans hp.symm
  · exact hwf.get?_alloc_iff.mpr (Or.inl ⟨rfl, rfl⟩)
  · exact fun hr => hwf.not_valid_alloc o false hr.1

/-- An allocation adds an object, whether or not it collects first. -/
theorem adds_of_alloc (hm : m.Ready) (h : (alloc o).run m = (r, m')) : m.Adds o r m' := by
  obtain ⟨hg, hpins⟩ := Machine.grows_collect hm
  exact (adds_of_allocRaw hg.ready h).of_grows hg hpins

/-- So does one that holds the parts of the object meanwhile. -/
theorem adds_of_allocHolding {parts : List Ref} (hm : m.Ready) (h : (allocHolding o parts).run m = (r, m')) :
    m.Adds o r m' := by
  let pinned : Machine := { m with pins := m.pins ++ parts }
  have hlist : pinned.pins.toList = m.pins.toList ++ parts := Array.toList_appendList
  have hg : m.Grows pinned := by
    refine ⟨⟨hm.wellFormed, hm.nil_eq, hm.nil_root⟩, rfl, fun p hp => ?_, fun _ _ => rfl⟩
    rw [← Array.mem_toList_iff, hlist]
    exact List.mem_append_left _ (Array.mem_toList_iff.mpr hp)
  have hholding : (allocHolding o parts).run m = (((alloc o).run pinned).1,
      { ((alloc o).run pinned).2 with pins := ((alloc o).run pinned).2.pins.shrink m.pins.size }) := rfl
  rcases hrun : (alloc o).run pinned with ⟨s, k⟩
  have hadds := adds_of_alloc hg.ready hrun
  rw [hholding, hrun] at h
  obtain ⟨rfl, rfl⟩ := Prod.mk.inj h
  -- the pins of the parts come last, and are dropped again
  have hpins : k.pins.shrink m.pins.size = m.pins := by
    rw [hadds.pins_eq, ← Array.toList_inj, Array.toList_shrink, hlist]
    simp
  have hgrows := hg.trans hadds.grows
  refine ⟨⟨⟨hgrows.ready.wellFormed, hgrows.ready.nil_eq, hgrows.ready.nil_root⟩, hgrows.nil_eq, fun p hp => ?_,
    hgrows.kept⟩, hpins, hadds.get?_eq, fun hr => hadds.new (hg.guarded hr)⟩
  show p ∈ k.pins.shrink m.pins.size
  rwa [hpins]

end Act

end TinyScript
