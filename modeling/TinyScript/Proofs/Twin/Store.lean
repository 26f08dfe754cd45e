import TinyScript.Proofs.Collect.Exact
import TinyScript.Proofs.Twin.Change

/-!
# The objects of twins

Allocating objects that agree extends the pairing by the two new references. A collection on either side restricts it
to what survives on both: everything that is held survives (`Twins.shrink`). `Machine.Shrinks` says what a collection
does; doing nothing is a case of it, so the two machines may collect at different times.
-/

namespace TinyScript

open Heap

variable {o p : Object} {r d : Ref} {heap : Heap} {t : Table Ref}

/-! ## Allocating -/

/-- A pairing with one more pair. -/
def Pairing.add (ρ : Pairing) (r s : Ref) : Pairing := fun x y => ρ x y ∨ (x = r ∧ y = s)

/-- A frame for captured names that no function has. -/
structure Machine.Vacant (m : Machine) (f : FrameId) : Prop where
  detached : m.Detached f
  not_owns : ¬ m.Owns f

variable {Γ : Scope} {ρ σ : Pairing} {m n m' n' : Machine}

theorem Machine.Tidy.alloc (h : m.Tidy) (isRoot : Bool)
    (hclosure : ∀ f, o.closure? = some f → m.Vacant f) :
    { m with heap := (m.heap.alloc o isRoot).1 }.Tidy := by
  have hget {r : Ref} {p : Object} :
      (m.heap.alloc o isRoot).1.get? r = some p ↔ (r = (m.heap.alloc o isRoot).2 ∧ p = o)
        ∨ m.heap.get? r = some p := h.wellFormed.get?_alloc_iff
  have hflag {r : Ref} (hr : m.heap.flag? r = some .root) :
      (m.heap.alloc o isRoot).1.flag? r = some .root := h.wellFormed.flag?_alloc_iff.mpr (Or.inr hr)
  refine ⟨(h.wellFormed.alloc o isRoot).wellFormed, h.global_lt, h.global_top, ?_, ?_, ?_, ?_, ?_⟩
  · intro r p f hp hf
    have hd : m.Detached f := by
      rcases hget.mp hp with ⟨-, rfl⟩ | hp
      · exact (hclosure f hf).detached
      · exact h.detached hp hf
    exact ⟨hd.ne_global, hd.notMem, hd.parent_eq⟩
  · intro r r' p p' f hp hp' hf hf'
    rcases hget.mp hp with ⟨rfl, rfl⟩ | hold
    · rcases hget.mp hp' with ⟨rfl, -⟩ | hold'
      · rfl
      · exact absurd ⟨r', p', hold', hf'⟩ (hclosure f hf).not_owns
    · rcases hget.mp hp' with ⟨rfl, rfl⟩ | hold'
      · exact absurd ⟨r, p, hold, hf⟩ (hclosure f hf').not_owns
      · exact h.sole hold hold' hf hf'
  · intro b hb
    obtain ⟨f, hf⟩ := h.globals b hb
    exact ⟨f, hget.mpr (Or.inr hf)⟩
  · exact ⟨hget.mpr (Or.inr h.unit_eq.1), hflag h.unit_eq.2⟩
  · exact ⟨hget.mpr (Or.inr h.nil_eq.1), hflag h.nil_eq.2⟩

namespace HeapTwins

variable {h k : Heap}

/-- Of two pairs either both sides are the same, or neither is. -/
theorem eq_iff (ht : HeapTwins ρ h k) {s r' s' : Ref} (hr : ρ r s) (hr' : ρ r' s') : r = r' ↔ s = s' := by
  constructor
  · rintro rfl
    exact ht.functional hr hr'
  · rintro rfl
    exact ht.injective hr hr'

theorem alloc (ht : HeapTwins ρ h k) (hwf : h.WellFormed) (hwf' : k.WellFormed)
    (hagree : o.Agree ρ p) (isRoot : Bool) :
    HeapTwins (ρ.add (h.alloc o isRoot).2 (k.alloc p isRoot).2) (h.alloc o isRoot).1 (k.alloc p isRoot).1 := by
  have hfresh {s : Ref} : ¬ ρ (h.alloc o isRoot).2 s := fun hr =>
    hwf.not_valid_alloc o isRoot (ht.left_valid hr)
  have hfresh' {r : Ref} : ¬ ρ r (k.alloc p isRoot).2 := fun hr =>
    hwf'.not_valid_alloc p isRoot (ht.right_valid hr)
  have hagree' {x y : Object} (hxy : x.Agree ρ y) :
      x.Agree (ρ.add (h.alloc o isRoot).2 (k.alloc p isRoot).2) y :=
    hxy.mono fun _ _ _ _ => Or.inl
  refine ⟨?_, ?_, ?_, ?_, ?_, ?_⟩
  · rintro x y z (hxy | ⟨rfl, rfl⟩) (hxz | ⟨hx, rfl⟩)
    · exact ht.functional hxy hxz
    · exact absurd (hx ▸ hxy) hfresh
    · exact absurd hxz hfresh
    · rfl
  · rintro x y z (hxz | ⟨rfl, rfl⟩) (hyz | ⟨rfl, hz⟩)
    · exact ht.injective hxz hyz
    · exact absurd (hz ▸ hxz) hfresh'
    · exact absurd hyz hfresh'
    · rfl
  · rintro x y (hxy | ⟨rfl, rfl⟩)
    · obtain ⟨u, v, hu, hv, huv⟩ := ht.agree hxy
      exact ⟨u, v, hwf.get?_alloc_iff.mpr (Or.inr hu), hwf'.get?_alloc_iff.mpr (Or.inr hv), hagree' huv⟩
    · exact ⟨o, p, hwf.get?_alloc_iff.mpr (Or.inl ⟨rfl, rfl⟩), hwf'.get?_alloc_iff.mpr (Or.inl ⟨rfl, rfl⟩),
        hagree' hagree⟩
  · rintro x y (hxy | ⟨rfl, rfl⟩)
    · have hx : x ≠ (h.alloc o isRoot).2 := fun hx => hfresh (hx ▸ hxy)
      have hy : y ≠ (k.alloc p isRoot).2 := fun hy => hfresh' (hy ▸ hxy)
      rw [hwf.flag?_alloc_iff, hwf'.flag?_alloc_iff]
      simp only [hx, hy, false_and, false_or]
      exact ht.root hxy
    · have hnone : h.flag? (h.alloc o isRoot).2 = none := by
        rw [flag?_eq, hwf.named?_alloc_self]
        rfl
      have hnone' : k.flag? (k.alloc p isRoot).2 = none := by
        rw [flag?_eq, hwf'.named?_alloc_self]
        rfl
      rw [hwf.flag?_alloc_iff, hwf'.flag?_alloc_iff]
      simp [hnone, hnone']
  · intro x hx
    rcases hwf.flag?_alloc_iff.mp hx with ⟨rfl, -⟩ | hx
    · exact ⟨_, Or.inr ⟨rfl, rfl⟩⟩
    · obtain ⟨y, hxy⟩ := ht.leftRoot hx
      exact ⟨y, Or.inl hxy⟩
  · intro y hy
    rcases hwf'.flag?_alloc_iff.mp hy with ⟨rfl, -⟩ | hy
    · exact ⟨_, Or.inr ⟨rfl, rfl⟩⟩
    · obtain ⟨x, hxy⟩ := ht.rightRoot hy
      exact ⟨x, Or.inl hxy⟩

end HeapTwins

theorem Object.Became.trans {q : Object} (h : o.Became p) (h' : p.Became q) : o.Became q := by
  rcases h with rfl | ⟨ho, hp⟩
  · exact h'
  · rcases h' with rfl | ⟨-, hq⟩
    · exact Or.inr ⟨ho, hp⟩
    · exact Or.inr ⟨ho, hq⟩

/-- What became of a heap: every object is still there, and the same unless it is a dict. -/
def Heap.Became (h h' : Heap) : Prop := ∀ {r o}, h.get? r = some o → ∃ o', h'.get? r = some o' ∧ o.Became o'

namespace Twins

/-- Changing the heaps on both sides. -/
theorem setHeap (h : Twins Γ ρ m n) (hρσ : ∀ {r s}, ρ r s → σ r s) {heap' : Heap}
    (hleft : { m with heap := heap }.Tidy) (hright : { n with heap := heap' }.Tidy)
    (hheaps : HeapTwins σ heap heap') (hbecame : m.heap.Became heap) (hbecame' : n.heap.Became heap')
    (hcaptured : ∀ {r s o f}, σ r s → heap.get? r = some o → o.closure? = some f →
      σ.Binds (m.frames.binds f) (n.frames.binds f)) :
    Twins Γ σ { m with heap := heap } { n with heap := heap' } where
  left := hleft
  right := hright
  closed := h.closed
  heaps := hheaps
  frames :=
    { h.frames with
      globals := h.frames.globals.mono fun _ _ _ _ => hρσ
      locals := fun f hf => (h.frames.locals f hf).mono fun _ _ _ _ => hρσ }
  captured := hcaptured
  pins :=
    { left_eq := h.pins.left_eq
      right_eq := h.pins.right_eq
      paired := fun e he => hρσ (h.pins.paired e he)
      left_became := fun e he => by
        obtain ⟨o, ho, hold⟩ := h.pins.left_became e he
        obtain ⟨o', ho', hnew⟩ := hbecame ho
        exact ⟨o', ho', hold.trans hnew⟩
      right_became := fun e he => by
        obtain ⟨o, ho, hold⟩ := h.pins.right_became e he
        obtain ⟨o', ho', hnew⟩ := hbecame' ho
        exact ⟨o', ho', hold.trans hnew⟩ }
  unit := hρσ h.unit
  nil := hρσ h.nil
  surroundings := h.surroundings
  inStep := h.inStep

/-- Objects that agree get paired references. -/
theorem alloc (h : Twins Γ ρ m n) (hagree : o.Agree ρ p) (isRoot : Bool)
    (hclosure : ∀ f, o.closure? = some f →
      m.Vacant f ∧ n.Vacant f ∧ ρ.Binds (m.frames.binds f) (n.frames.binds f)) :
    Twins Γ (ρ.add (m.heap.alloc o isRoot).2 (n.heap.alloc p isRoot).2)
      { m with heap := (m.heap.alloc o isRoot).1 } { n with heap := (n.heap.alloc p isRoot).1 } := by
  have hwf := h.left.wellFormed
  have hleft := h.left.alloc isRoot fun f hf => (hclosure f hf).1
  have hright := h.right.alloc isRoot fun f hf => (hclosure f (hagree.closure?_eq.trans hf)).2.1
  have hbecame {k : Heap} (hk : k.WellFormed) (o : Object) : k.Became (k.alloc o isRoot).1 :=
    fun ho => ⟨_, hk.get?_alloc_iff.mpr (Or.inr ho), Or.inl rfl⟩
  refine h.setHeap Or.inl hleft hright (h.heaps.alloc hwf h.right.wellFormed hagree isRoot) (hbecame hwf o)
    (hbecame h.right.wellFormed p) ?_
  rintro x y u f (hxy | ⟨rfl, rfl⟩) hu hf
  · rcases hwf.get?_alloc_iff.mp hu with ⟨rfl, -⟩ | hu
    · exact absurd (h.heaps.left_valid hxy) (hwf.not_valid_alloc o isRoot)
    · exact (h.captured hxy hu hf).mono fun _ _ _ _ => Or.inl
  · rcases hwf.get?_alloc_iff.mp hu with ⟨-, rfl⟩ | hu
    · exact (hclosure f hf).2.2.mono fun _ _ _ _ => Or.inl
    · exact absurd (valid_of_get? hu) (hwf.not_valid_alloc o isRoot)

end Twins

/-! ## Changing dicts and flags -/

theorem Machine.Tidy.setDict (h : m.Tidy)
    (hd : m.heap.get? d = some (.dict t)) (t' : Table Ref) :
    { m with heap := m.heap.set d (.dict t') }.Tidy := by
  have hvalid := valid_of_get? hd
  have hget {r : Ref} {o : Object} (ho : m.heap.get? r = some o) (hkind : o.kind ≠ .dict) :
      (m.heap.set d (.dict t')).get? r = some o := by
    rw [get?_set hvalid, if_neg, ho]
    rintro rfl
    rw [hd] at ho
    cases ho
    exact hkind rfl
  have hold {r : Ref} {o : Object} {f : FrameId} (ho : (m.heap.set d (.dict t')).get? r = some o)
      (hf : o.closure? = some f) : m.heap.get? r = some o := by
    rw [get?_set hvalid] at ho
    split at ho
    · cases ho
      cases hf
    · exact ho
  refine ⟨(h.wellFormed.set d (.dict t')).wellFormed, h.global_lt, h.global_top, ?_, ?_, ?_, ?_, ?_⟩
  · intro r o f ho hf
    have hdet := h.detached (hold ho hf) hf
    exact ⟨hdet.ne_global, hdet.notMem, hdet.parent_eq⟩
  · intro r r' o o' f ho ho' hf hf'
    exact h.sole (hold ho hf) (hold ho' hf') hf hf'
  · intro b hb
    obtain ⟨f, hf⟩ := h.globals b hb
    exact ⟨f, hget hf (by simp [Object.kind])⟩
  · exact ⟨hget h.unit_eq.1 (by simp [Object.kind]), (flag?_set hvalid _ _).trans h.unit_eq.2⟩
  · exact ⟨hget h.nil_eq.1 (by simp [Object.kind]), (flag?_set hvalid _ _).trans h.nil_eq.2⟩

theorem Heap.became_setDict {h : Heap} (hd : h.get? d = some (.dict t))
    (t' : Table Ref) : h.Became (h.set d (.dict t')) := by
  intro r o ho
  rw [get?_set (valid_of_get? hd)]
  split
  · next heq =>
    rw [heq, hd] at ho
    cases ho
    exact ⟨_, rfl, Or.inr ⟨rfl, rfl⟩⟩
  · exact ⟨o, ho, Or.inl rfl⟩

theorem HeapTwins.setDict {h k : Heap} (htwins : HeapTwins ρ h k) {e : Ref} (hde : ρ d e)
    {t' u' : Table Ref} (hpaired : Table.Paired ρ t' u') :
    HeapTwins ρ (h.set d (.dict t')) (k.set e (.dict u')) := by
  have hvalid := htwins.left_valid hde
  have hvalid' := htwins.right_valid hde
  have hflag (r : Ref) : (h.set d (.dict t')).flag? r = h.flag? r := flag?_set hvalid _ _
  have hflag' (s : Ref) : (k.set e (.dict u')).flag? s = k.flag? s := flag?_set hvalid' _ _
  refine ⟨htwins.functional, htwins.injective, ?_, ?_, ?_, ?_⟩
  · intro r s hr
    rw [get?_set hvalid, get?_set hvalid']
    by_cases hrd : r = d
    · rw [if_pos hrd, if_pos ((htwins.eq_iff hr hde).mp hrd)]
      exact ⟨_, _, rfl, rfl, .dict hpaired⟩
    · rw [if_neg hrd, if_neg fun hse => hrd ((htwins.eq_iff hr hde).mpr hse)]
      exact htwins.agree hr
  · intro r s hr
    rw [hflag, hflag']
    exact htwins.root hr
  · intro r hr
    rw [hflag] at hr
    exact htwins.leftRoot hr
  · intro s hs
    rw [hflag'] at hs
    exact htwins.rightRoot hs

/-- Paired dicts may change to tables that hold paired references. -/
theorem Twins.setDict (h : Twins Γ ρ m n) {e : Ref} (hde : ρ d e)
    {u : Table Ref} (ht : m.heap.get? d = some (.dict t)) (hu : n.heap.get? e = some (.dict u))
    {t' u' : Table Ref} (hpaired : Table.Paired ρ t' u') :
    Twins Γ ρ { m with heap := m.heap.set d (.dict t') } { n with heap := n.heap.set e (.dict u') } := by
  refine h.setHeap id (h.left.setDict ht t') (h.right.setDict hu u') (h.heaps.setDict hde hpaired)
    (became_setDict ht t') (became_setDict hu u') ?_
  intro r s o f hr ho hf
  rw [get?_set (valid_of_get? ht)] at ho
  split at ho
  · cases ho
    cases hf
  · exact h.captured hr ho hf

/-- A machine in which an object is no longer a root. -/
structure Machine.Unrooted (m m' : Machine) (old : Ref) : Prop where
  wellFormed : m'.heap.WellFormed
  get?_eq : ∀ r, m'.heap.get? r = m.heap.get? r
  root_iff : ∀ r, m'.heap.flag? r = some .root ↔ r ≠ old ∧ m.heap.flag? r = some .root

theorem Machine.unrooted (h : m.heap.WellFormed) {old : Ref}
    (hold : m.heap.valid old) :
    ∃ heap, m.heap.setRoot? old false = some heap ∧ m.Unrooted { m with heap := heap } old := by
  have hsome : ∃ heap, m.heap.setRoot? old false = some heap := by
    rw [Heap.setRoot?]
    obtain ⟨s, hs⟩ := Option.isSome_iff_exists.mp hold
    simp only [hs, Bool.false_eq_true, if_false]
    split
    · exact ⟨_, rfl⟩
    · exact ⟨_, rfl⟩
  obtain ⟨heap, hheap⟩ := hsome
  obtain ⟨hthreaded, hnamed⟩ := setRoot?_false h hheap
  refine ⟨heap, hheap, hthreaded.wellFormed, fun r => ?_, fun r => ?_⟩
  · rw [get?_eq, get?_eq, hnamed]
    split
    · rw [Option.map_map]
      rfl
    · rfl
  · rw [flag?_eq, flag?_eq, hnamed]
    split
    · next heq =>
      simp only [heq, ne_eq, not_true_eq_false, false_and, iff_false, Option.map_map]
      cases m.heap.named? old with
      | none => simp
      | some c =>
        by_cases hroot : c.flag = .root
        · simp [hroot]
        · simp [hroot]
    · next hne => simp [hne]

theorem Machine.Tidy.unroot (h : m.Tidy) {a : Ref} {f : Function}
    (ha : m.heap.get? a = some (.function f)) (hm : m.Unrooted { m with heap := heap } a) :
    { m with heap := heap }.Tidy := by
  have hget : ∀ r, heap.get? r = m.heap.get? r := hm.get?_eq
  refine ⟨hm.wellFormed, h.global_lt, h.global_top, ?_, ?_, ?_, ?_, ?_⟩
  · intro r o f ho hf
    rw [hget] at ho
    have hdet := h.detached ho hf
    exact ⟨hdet.ne_global, hdet.notMem, hdet.parent_eq⟩
  · intro r r' o o' f ho ho'
    rw [hget] at ho ho'
    exact h.sole ho ho'
  · intro b hb
    rw [hget]
    exact h.globals b hb
  · rw [hget]
    refine ⟨h.unit_eq.1, (hm.root_iff _).mpr ⟨?_, h.unit_eq.2⟩⟩
    rintro rfl
    rw [h.unit_eq.1] at ha
    cases ha
  · rw [hget]
    refine ⟨h.nil_eq.1, (hm.root_iff _).mpr ⟨?_, h.nil_eq.2⟩⟩
    rintro rfl
    rw [h.nil_eq.1] at ha
    cases ha

/-- Paired functions may stop being roots. -/
theorem Twins.unroot (h : Twins Γ ρ m n) {a b : Ref} (hab : ρ a b)
    {f : Function} (ha : m.heap.get? a = some (.function f)) {heap' : Heap}
    (hm : m.Unrooted { m with heap := heap } a) (hn : n.Unrooted { n with heap := heap' } b) :
    Twins Γ ρ { m with heap := heap } { n with heap := heap' } := by
  obtain ⟨p, hb, hagree⟩ := h.heaps.exists_right hab ha
  cases hagree
  have hget : ∀ r, heap.get? r = m.heap.get? r := hm.get?_eq
  have hget' : ∀ r, heap'.get? r = n.heap.get? r := hn.get?_eq
  have hheaps : HeapTwins ρ heap heap' := by
    refine ⟨h.heaps.functional, h.heaps.injective, ?_, ?_, ?_, ?_⟩
    · intro r s hr
      rw [hget, hget']
      exact h.heaps.agree hr
    · intro r s hr
      rw [hm.root_iff, hn.root_iff, h.heaps.root hr, ne_eq, h.heaps.eq_iff hr hab]
    · intro r hr
      exact h.heaps.leftRoot ((hm.root_iff r).mp hr).2
    · intro s hs
      exact h.heaps.rightRoot ((hn.root_iff s).mp hs).2
  refine h.setHeap id (h.left.unroot ha hm) (h.right.unroot hb hn) hheaps
    (fun ho => ⟨_, (hget _).trans ho, Or.inl rfl⟩) (fun ho => ⟨_, (hget' _).trans ho, Or.inl rfl⟩) ?_
  intro r s o f hr ho
  rw [hget] at ho
  exact h.captured hr ho

/-! ## Collections -/

/-- What a collection may do: free objects that are not reachable and leave the frames of captured names
that those had. -/
structure Machine.Shrinks (m m' : Machine) : Prop where
  wellFormed : m'.heap.WellFormed
  kept : ∀ {r}, m.Reachable r → m'.heap.valid r
  get?_eq : ∀ {r}, m'.heap.valid r → m'.heap.get? r = m.heap.get? r
  root_iff : ∀ {r}, m'.heap.valid r → (m'.heap.flag? r = some .root ↔ m.heap.flag? r = some .root)
  part : ∀ {r s o}, m'.heap.valid r → m.heap.get? r = some o → s ∈ o.children →
    m.heap.valid s = true → m'.heap.valid s
  captured : ∀ {r o f b}, m'.heap.valid r → m.heap.get? r = some o → o.closure? = some f →
    b ∈ m.frames.binds f → m.heap.valid b.2 → m'.heap.valid b.2
  size_eq : m'.frames.arena.size = m.frames.arena.size
  parent_eq : ∀ f, m'.frames.parent? f = m.frames.parent? f
  registered_eq : m'.frames.registered = m.frames.registered
  binds_eq : ∀ {f}, (∀ r o, m.heap.get? r = some o → o.closure? = some f → m'.heap.valid r) →
    m'.frames.binds f = m.frames.binds f
  pins_eq : m'.pins = m.pins
  unit_eq : m'.unit = m.unit
  nil_eq : m'.nil = m.nil
  surroundings_eq : m'.surroundings = m.surroundings

namespace Machine

/-- Objects that are left were there before. -/
theorem Shrinks.get?_of_get? {m m' : Machine} (h : m.Shrinks m')
    (ho : m'.heap.get? r = some o) : m.heap.get? r = some o :=
  (h.get?_eq (valid_of_get? ho)).symm.trans ho

theorem Shrinks.refl (h : m.heap.WellFormed) : m.Shrinks m where
  wellFormed := h
  kept := Reachable.valid
  get?_eq := fun _ => rfl
  root_iff := fun _ => Iff.rfl
  part := fun _ _ _ hs => hs
  captured := fun _ _ _ _ hb => hb
  size_eq := rfl
  parent_eq := fun _ => rfl
  registered_eq := rfl
  binds_eq := fun _ => rfl
  pins_eq := rfl
  unit_eq := rfl
  nil_eq := rfl
  surroundings_eq := rfl

theorem shrinks_forceCollect (hwf : m.heap.WellFormed)
    (hregistered : ∀ {r o f}, m.heap.get? r = some o → o.closure? = some f → f ∉ m.frames.registered) :
    m.Shrinks (Act.forceCollect.run m).2 := by
  obtain ⟨h', l', totals, notes, hrun, -, hthreaded, -, hcleared⟩ := forceCollect_spec hwf
  rw [hrun]
  have hvalid {r : Ref} : h'.valid r ↔ m.Reachable r := hcleared.valid_iff hwf
  have hdoomed {f : FrameId} (hf : f ∈ m.doomed) : f ∉ m.frames.registered := by
    obtain ⟨r, o, ho, hclosure, -⟩ := (mem_doomed_iff hwf).mp hf
    exact hregistered ho hclosure
  refine ⟨hthreaded.wellFormed, hvalid.mpr, ?_, ?_, ?_, ?_, ?_, ?_, ?_, ?_, rfl, rfl, rfl, rfl⟩
  · exact fun hr => hcleared.get?_eq hwf (hvalid.mp hr)
  · intro r hr
    rw [hcleared.flag?_eq hwf (hvalid.mp hr)]
    split <;> simp_all
  · intro r s o hr ho hs hvs
    exact hvalid.mpr (.part (hvalid.mp hr) ho hs hvs)
  · intro r o f b hr ho hf hb hvb
    exact hvalid.mpr (.captured (hvalid.mp hr) ho hf .self hb hvb)
  · exact Frames.size_foldl_leave _ _
  · exact fun f => Frames.parent?_foldl_leave _ f _
  · exact Frames.registered_foldl_leave _ _ fun f => hdoomed
  · intro f hf
    refine (Frames.binds_foldl_leave _ _ _).trans (if_neg fun hmem => ?_)
    obtain ⟨r, o, ho, hclosure, hnot⟩ := (mem_doomed_iff hwf).mp hmem
    exact hnot (hvalid.mp (hf r o ho hclosure))

theorem collect_run (m : Machine) :
    Act.collect.run m = if m.pacing.due m.moment = true then Act.forceCollect.run m else ({}, m) := by
  have hrun : Act.collect.run m
      = (if m.pacing.due m.moment then Act.forceCollect else pure {} : Act Collection).run m := rfl
  rw [hrun]
  split <;> rfl

theorem pacing_collect (hwf : m.heap.WellFormed) : (Act.collect.run m).2.pacing = m.pacing := by
  rw [collect_run]
  split
  · obtain ⟨h', l', totals, notes, hrun, -⟩ := forceCollect_spec hwf
    rw [hrun]
  · rfl

/-- A collection is counted if there is one. -/
theorem cycles_collect (hwf : m.heap.WellFormed) :
    (Act.collect.run m).2.totals.cycles = m.totals.cycles + if m.pacing.due m.moment = true then 1 else 0 := by
  rw [collect_run]
  split
  · obtain ⟨h', l', totals, notes, hrun, hcycles, -⟩ := forceCollect_spec hwf
    rw [hrun]
    exact hcycles
  · rfl

/-- Before an allocation only garbage is freed, whatever the pacing. -/
theorem shrinks_collect (hwf : m.heap.WellFormed)
    (hregistered : ∀ {r o f}, m.heap.get? r = some o → o.closure? = some f → f ∉ m.frames.registered) :
    m.Shrinks (Act.collect.run m).2 := by
  rw [collect_run]
  split
  · exact shrinks_forceCollect hwf hregistered
  · exact .refl hwf

theorem Tidy.shrinks_collect (h : m.Tidy) : m.Shrinks (Act.collect.run m).2 :=
  Machine.shrinks_collect h.wellFormed fun ho hf => (h.detached ho hf).notMem

end Machine

/-- What a collection keeps tidy. -/
theorem Machine.Tidy.shrink {m m' : Machine} (h : m.Tidy) (hm : m.Shrinks m') : m'.Tidy := by
  have hget {r : Ref} {o : Object} (ho : m'.heap.get? r = some o) : m.heap.get? r = some o := hm.get?_of_get? ho
  have hroot {r : Ref} {o : Object} (hr : m.heap.get? r = some o ∧ m.heap.flag? r = some .root) :
      m'.heap.get? r = some o ∧ m'.heap.flag? r = some .root := by
    have hvalid := hm.kept (.seed (.flagged hr.2 (Or.inl rfl)) (valid_of_get? hr.1))
    exact ⟨(hm.get?_eq hvalid).trans hr.1, (hm.root_iff hvalid).mpr hr.2⟩
  refine ⟨hm.wellFormed, hm.size_eq ▸ h.global_lt, (hm.parent_eq _).trans h.global_top, ?_, ?_, ?_, ?_, ?_⟩
  · intro r o f ho hf
    obtain ⟨hne, hmem, hparent⟩ := h.detached (hget ho) hf
    exact ⟨hne, hm.registered_eq ▸ hmem, (hm.parent_eq f).trans hparent⟩
  · intro r r' o o' f ho ho'
    exact h.sole (hget ho) (hget ho')
  · intro b hb
    rw [hm.binds_eq fun r o ho hf => absurd rfl (h.detached ho hf).ne_global] at hb
    obtain ⟨f, hf⟩ := h.globals b hb
    exact ⟨f, (hm.get?_eq (hm.kept (.seed (.global hb) (valid_of_get? hf)))).trans hf⟩
  · rw [hm.unit_eq]
    exact hroot h.unit_eq
  · rw [hm.nil_eq]
    exact hroot h.nil_eq

/-- Pairs of references that are valid still. -/
def Pairing.restrict (ρ : Pairing) (h k : Heap) : Pairing := fun r s =>
  ρ r s ∧ h.valid r ∧ k.valid s

namespace Twins

theorem restrict_of_root (h : Twins Γ ρ m n) (hm : m.Shrinks m') (hn : n.Shrinks n') {s : Ref} (hr : ρ r s)
    (hflag : m.heap.flag? r = some .root) : ρ.restrict m'.heap n'.heap r s :=
  ⟨hr, hm.kept (.seed (.flagged hflag (Or.inl rfl)) (h.heaps.left_valid hr)),
    hn.kept (.seed (.flagged ((h.heaps.root hr).mp hflag) (Or.inl rfl)) (h.heaps.right_valid hr))⟩

theorem restrict_of_pinned (h : Twins Γ ρ m n) (hm : m.Shrinks m') (hn : n.Shrinks n') {e : Pin}
    (he : e ∈ Γ.pins) : ρ.restrict m'.heap n'.heap e.left e.right := by
  have hpair := h.pins.paired e he
  have hleft : e.left ∈ m.pins := Array.mem_toList_iff.mp (h.pins.left_eq ▸ List.mem_map_of_mem he)
  have hright : e.right ∈ n.pins := Array.mem_toList_iff.mp (h.pins.right_eq ▸ List.mem_map_of_mem he)
  exact ⟨hpair, hm.kept (.seed (.pinned hleft) (h.heaps.left_valid hpair)),
    hn.kept (.seed (.pinned hright) (h.heaps.right_valid hpair))⟩

theorem shrink_heaps (h : Twins Γ ρ m n) (hm : m.Shrinks m') (hn : n.Shrinks n') :
    HeapTwins (ρ.restrict m'.heap n'.heap) m'.heap n'.heap := by
  refine ⟨fun hr hr' => h.heaps.functional hr.1 hr'.1, fun hr hr' => h.heaps.injective hr.1 hr'.1, ?_, ?_, ?_, ?_⟩
  · rintro r s ⟨hr, hvr, hvs⟩
    obtain ⟨o, p, ho, hp, hagree⟩ := h.heaps.agree hr
    refine ⟨o, p, (hm.get?_eq hvr).trans ho, (hn.get?_eq hvs).trans hp, hagree.mono ?_⟩
    -- the parts of what survives survive
    intro r' hr' s' hs' hpair
    exact ⟨hpair, hm.part hvr ho hr' (h.heaps.left_valid hpair),
      hn.part hvs hp hs' (h.heaps.right_valid hpair)⟩
  · rintro r s ⟨hr, hvr, hvs⟩
    rw [hm.root_iff hvr, hn.root_iff hvs]
    exact h.heaps.root hr
  · intro r hflag
    have hold := (hm.root_iff (valid_of_flag? hflag)).mp hflag
    obtain ⟨s, hr⟩ := h.heaps.leftRoot hold
    exact ⟨s, h.restrict_of_root hm hn hr hold⟩
  · intro s hflag
    have hold := (hn.root_iff (valid_of_flag? hflag)).mp hflag
    obtain ⟨r, hr⟩ := h.heaps.rightRoot hold
    exact ⟨r, h.restrict_of_root hm hn hr ((h.heaps.root hr).mpr hold)⟩

theorem shrink_frames (h : Twins Γ ρ m n) (hm : m.Shrinks m') (hn : n.Shrinks n') :
    FrameTwins Γ.frames (ρ.restrict m'.heap n'.heap) m'.frames n'.frames where
  size_eq := by
    rw [hm.size_eq, hn.size_eq]
    exact h.frames.size_eq
  parent_eq := fun f => by
    rw [hm.parent_eq, hn.parent_eq]
    exact h.frames.parent_eq f
  leftRegistered := hm.registered_eq.trans h.frames.leftRegistered
  rightRegistered := hn.registered_eq.trans h.frames.rightRegistered
  parents := fun f hf => (hm.parent_eq _).trans (h.frames.parents f hf)
  globals := by
    rw [hm.binds_eq fun r o ho hf => absurd rfl (h.left.detached ho hf).ne_global,
      hn.binds_eq fun r o ho hf => absurd rfl (h.right.detached ho hf).ne_global]
    refine h.frames.globals.mono fun b hb c hc hpair => ⟨hpair, ?_, ?_⟩
    · exact hm.kept (.seed (.global hb) (h.heaps.left_valid hpair))
    · exact hn.kept (.seed (.global hc) (h.heaps.right_valid hpair))
  locals := fun f hf => by
    have hmem : f.1 ∈ Γ.frames.map Prod.fst := List.mem_map_of_mem hf
    rw [hm.binds_eq fun r o ho hclosure => absurd ⟨r, o, ho, hclosure⟩ (h.not_owns_of_mem hmem).1,
      hn.binds_eq fun r o ho hclosure => absurd ⟨r, o, ho, hclosure⟩ (h.not_owns_of_mem hmem).2]
    refine (h.frames.locals f hf).mono fun b hb c hc hpair => ⟨hpair, ?_, ?_⟩
    · exact hm.kept (.seed (.registered (h.frames.leftRegistered ▸ hmem) .self hb) (h.heaps.left_valid hpair))
    · exact hn.kept (.seed (.registered (h.frames.rightRegistered ▸ hmem) .self hc) (h.heaps.right_valid hpair))

/-- A collection on either side, or on both, leaves twins. -/
theorem shrink (h : Twins Γ ρ m n) (hm : m.Shrinks m') (hn : n.Shrinks n')
    (hstep : m'.InStep n') : Twins Γ (ρ.restrict m'.heap n'.heap) m' n' where
  left := h.left.shrink hm
  right := h.right.shrink hn
  closed := h.closed
  heaps := h.shrink_heaps hm hn
  frames := h.shrink_frames hm hn
  captured := fun {r s o f} ⟨hr, hvr, hvs⟩ ho hf => by
    rw [hm.get?_eq hvr] at ho
    obtain ⟨p, hp, hagree⟩ := h.heaps.exists_right hr ho
    have hf' : p.closure? = some f := hagree.closure?_eq.symm.trans hf
    -- the frame belongs to this function alone, and the function survives
    rw [hm.binds_eq fun r' o' ho' hclosure => h.left.sole ho ho' hf hclosure ▸ hvr,
      hn.binds_eq fun s' p' hp' hclosure => h.right.sole hp hp' hf' hclosure ▸ hvs]
    refine (h.captured hr ho hf).mono fun b hb c hc hpair => ⟨hpair, ?_, ?_⟩
    · exact hm.captured hvr ho hf hb (h.heaps.left_valid hpair)
    · exact hn.captured hvs hp hf' hc (h.heaps.right_valid hpair)
  pins :=
    { left_eq := by rw [hm.pins_eq]; exact h.pins.left_eq
      right_eq := by rw [hn.pins_eq]; exact h.pins.right_eq
      paired := fun e he => h.restrict_of_pinned hm hn he
      left_became := fun e he => by
        rw [hm.get?_eq (h.restrict_of_pinned hm hn he).2.1]
        exact h.pins.left_became e he
      right_became := fun e he => by
        rw [hn.get?_eq (h.restrict_of_pinned hm hn he).2.2]
        exact h.pins.right_became e he }
  unit := by
    rw [hm.unit_eq, hn.unit_eq]
    exact h.restrict_of_root hm hn h.unit h.left.unit_eq.2
  nil := by
    rw [hm.nil_eq, hn.nil_eq]
    exact h.restrict_of_root hm hn h.nil h.left.nil_eq.2
  surroundings := by
    rw [hm.surroundings_eq, hn.surroundings_eq]
    exact h.surroundings
  inStep := hstep

/-- Before an allocation both sides may collect, or one of them, or none. -/
theorem collect (h : Twins Γ ρ m n) :
    Twins Γ (ρ.restrict (Act.collect.run m).2.heap (Act.collect.run n).2.heap) (Act.collect.run m).2
      (Act.collect.run n).2 := by
  have hwf := h.left.wellFormed
  have hwf' := h.right.wellFormed
  refine h.shrink h.left.shrinks_collect h.right.shrinks_collect fun hm hn => ?_
  rw [Machine.pacing_collect hwf] at hm
  rw [Machine.pacing_collect hwf'] at hn
  rw [Machine.cycles_collect hwf, Machine.cycles_collect hwf', hm _ h.safe, hn _ h.symm.safe, h.inStep hm hn]

end Twins

end TinyScript
