import TinyScript.Machine.Packed
import TinyScript.Machine.Render
import TinyScript.Machine.Convert
import TinyScript.Proofs.Twin.Logic

/-!
# Values of twins as text and as data

Paired references have the same text, the same plain data and the same packed form. All these walks over a value keep
the containers on the way to the present place and are bounded by the number of slots, which twins may have different
numbers of. The bound is never met (`Heap.Within.length_le`): the containers on the way are distinct and valid.
-/

namespace TinyScript

/-- The containers on the way to a place, with enough fuel left to go on. -/
structure Heap.Within (h : Heap) (fuel : Nat) (path : List Ref) : Prop where
  nodup : path.Nodup
  valid : ∀ r ∈ path, h.valid r
  size_lt : h.slots.size < fuel + path.length

namespace Heap.Within

variable {h : Heap} {fuel : Nat} {path : List Ref}

/-- Distinct valid references name distinct slots, so there are no more of them than slots. -/
theorem length_le (hp : h.Within fuel path) : path.length ≤ h.slots.size := by
  have hnodup : (path.map Ref.index).Nodup := by
    refine List.Nodup.map_on ?_ hp.nodup
    intro r hr s hs hindex
    exact Heap.eq_of_valid (hp.valid r hr) (hp.valid s hs) hindex
  have hsubset : path.map Ref.index ⊆ List.range h.slots.size := by
    intro i hi
    obtain ⟨r, hr, rfl⟩ := List.mem_map.mp hi
    exact List.mem_range.mpr (Heap.lt_size_of_valid (hp.valid r hr))
  simpa using (List.subperm_of_subset hnodup hsubset).length_le

theorem fuel_ne_zero (hp : h.Within fuel path) : fuel ≠ 0 := by
  have hle := hp.length_le
  have hlt := hp.size_lt
  omega

theorem cons (hp : h.Within (fuel + 1) path) {r : Ref} (hr : h.valid r) (hnot : r ∉ path) :
    h.Within fuel (r :: path) where
  nodup := List.nodup_cons.mpr ⟨hnot, hp.nodup⟩
  valid := List.forall_mem_cons.mpr ⟨hr, hp.valid⟩
  size_lt := by
    have hlt := hp.size_lt
    rw [List.length_cons]
    omega

end Heap.Within

/-- Two walks that have come to the same place. -/
structure Abreast (ρ : Pairing) (h k : Heap) (fuel fuel' : Nat) (xs ys : List Ref) : Prop where
  paired : List.Forall₂ ρ xs ys
  left : h.Within fuel xs
  right : k.Within fuel' ys

namespace Abreast

variable {ρ : Pairing} {h k : Heap} {fuel fuel' : Nat} {xs ys : List Ref} {r s : Ref}

theorem start (ρ : Pairing) (h k : Heap) : Abreast ρ h k (h.slots.size + 1) (k.slots.size + 1) [] [] where
  paired := .nil
  left := ⟨List.nodup_nil, by simp, by simp⟩
  right := ⟨List.nodup_nil, by simp, by simp⟩

/-- Both walks notice at the same time that they are inside a container again. -/
theorem mem_iff (ha : Abreast ρ h k fuel fuel' xs ys) (ht : HeapTwins ρ h k) (hr : ρ r s) :
    r ∈ xs ↔ s ∈ ys := by
  constructor
  · intro hmem
    obtain ⟨s', hs', hpair⟩ := exists_of_forall₂_of_mem ha.paired hmem
    exact ht.functional hr hpair ▸ hs'
  · intro hmem
    obtain ⟨r', hr', hpair⟩ := exists_of_forall₂_of_mem ha.paired.flip hmem
    exact ht.injective hr hpair ▸ hr'

/-- Walks abreast meet a cycle together. -/
theorem contains_eq (ha : Abreast ρ h k fuel fuel' xs ys) (ht : HeapTwins ρ h k) (hr : ρ r s) :
    xs.contains r = ys.contains s := by
  rw [Bool.eq_iff_iff, List.contains_iff_mem, List.contains_iff_mem]
  exact ha.mem_iff ht hr

/-- Both go on below a container they are not inside of. -/
theorem below (ha : Abreast ρ h k (fuel + 1) (fuel' + 1) xs ys) (ht : HeapTwins ρ h k) (hr : ρ r s)
    (hnot : ¬ ys.contains s) : Abreast ρ h k fuel fuel' (r :: xs) (s :: ys) := by
  rw [List.contains_iff_mem] at hnot
  exact ⟨.cons hr ha.paired, ha.left.cons (ht.left_valid hr) fun hmem => hnot ((ha.mem_iff ht hr).mp hmem),
    ha.right.cons (ht.right_valid hr) hnot⟩

end Abreast

theorem map_eq_of_forall₂ {α β γ : Type} {R : α → β → Prop} {xs : List α} {ys : List β}
    (h : List.Forall₂ R xs ys) {f : α → γ} {g : β → γ} (hfg : ∀ x y, R x y → f x = g y) :
    xs.map f = ys.map g := by
  induction h with
  | nil => rfl
  | cons hr _ ih => rw [List.map_cons, List.map_cons, hfg _ _ hr, ih]

theorem mapM_eq_of_forall₂ {α β γ ε : Type} {R : α → β → Prop} {xs : List α} {ys : List β}
    (h : List.Forall₂ R xs ys) {f : α → Except ε γ} {g : β → Except ε γ} (hfg : ∀ x y, R x y → f x = g y) :
    xs.mapM f = ys.mapM g := by
  induction h with
  | nil => rfl
  | cons hr _ ih => rw [List.mapM_cons, List.mapM_cons, hfg _ _ hr, ih]

theorem forM_eq_of_forall₂ {α β : Type} {R : α → β → Prop} {xs : List α} {ys : List β} (h : List.Forall₂ R xs ys)
    {f : α → Packing Unit} {g : β → Packing Unit} (hfg : ∀ x y, R x y → f x = g y) : xs.forM f = ys.forM g := by
  induction h with
  | nil => rfl
  | cons hr _ ih => rw [List.forM, List.forM, hfg _ _ hr, ih]

namespace Machine

variable {α : Type} {m n : Machine} {f g : Nat → List Ref → Ref → α}

/-- Walks over the values of two machines that do the same at objects whose parts they treat alike. -/
def Alike (m n : Machine) (f g : Nat → List Ref → Ref → α) : Prop :=
  ∀ ⦃ρ : Pairing⦄ ⦃fuel fuel' xs ys r s⦄, (m.object r).Agree ρ (n.object s) → xs.contains r = ys.contains s →
    (¬ ys.contains s → ∀ x y, ρ x y → f fuel (r :: xs) x = g fuel' (s :: ys) y) →
    f (fuel + 1) xs r = g (fuel' + 1) ys s

/-- They end alike at paired references of twins. -/
theorem Alike.twins (h : m.Alike n f g) {Γ : Scope} {ρ : Pairing} (ht : Twins Γ ρ m n) {fuel fuel' : Nat}
    {xs ys : List Ref} (ha : Abreast ρ m.heap n.heap fuel fuel' xs ys) {r s : Ref} (hr : ρ r s) :
    f fuel xs r = g fuel' ys s := by
  -- a path holds distinct containers, fewer than there are slots, so neither walk runs out of fuel
  induction fuel generalizing fuel' xs ys r s with
  | zero => exact absurd rfl ha.left.fuel_ne_zero
  | succ fuel ih =>
    obtain _ | fuel' := fuel'
    · exact absurd rfl ha.right.fuel_ne_zero
    · exact h (ht.object hr) (ha.contains_eq ht.heaps hr) fun hnot x y hxy => ih (ha.below ht.heaps hr hnot) hxy

/-- They are one walk over one heap. -/
theorem Alike.eq (h : m.Alike n f g) (hheap : m.heap = n.heap)
    (hzero : ∀ path r, m.kind r = n.kind r → f 0 path r = g 0 path r) : f = g := by
  have hobject (r : Ref) : m.object r = n.object r := by rw [object, object, hheap]
  funext fuel path r
  induction fuel generalizing path r with
  | zero => exact hzero path r (by rw [kind, kind, hobject])
  | succ fuel ih =>
    refine h (ρ := Eq) (hobject r ▸ .self fun _ _ => rfl) rfl fun _ x y hxy => ?_
    rw [hxy, ih]

theorem alike_renderWithin (m n : Machine) (style : Style) :
    m.Alike n (m.renderWithin style) (n.renderWithin style) := by
  intro ρ fuel fuel' xs ys r s hagree hcontains hpart
  rw [renderWithin, renderWithin, hcontains]
  generalize m.object r = o at hagree ⊢
  generalize n.object s = p at hagree ⊢
  cases hagree with
  | pair hx hy =>
    dsimp only
    split
    · rfl
    · next hnot => rw [hpart hnot _ _ hx, hpart hnot _ _ hy]
  | list hxs =>
    dsimp only
    split
    · rfl
    · next hnot => rw [map_eq_of_forall₂ hxs (hpart hnot)]
  | dict ht =>
    dsimp only
    split
    · rfl
    · next hnot =>
      rw [map_eq_of_forall₂ ht.toList]
      rintro ⟨k, x⟩ ⟨_, y⟩ ⟨rfl, hxy⟩
      rw [hpart hnot _ _ hxy]
  | _ => rfl

theorem alike_toDatumWithin (m n : Machine) : m.Alike n m.toDatumWithin n.toDatumWithin := by
  intro ρ fuel fuel' xs ys r s hagree hcontains hpart
  rw [toDatumWithin, toDatumWithin, hcontains]
  generalize m.object r = o at hagree ⊢
  generalize n.object s = p at hagree ⊢
  cases hagree with
  | pair hx hy =>
    dsimp only
    split
    · rfl
    · next hnot => rw [hpart hnot _ _ hx, hpart hnot _ _ hy]
  | list hxs =>
    dsimp only
    split
    · rfl
    · next hnot => rw [mapM_eq_of_forall₂ hxs (hpart hnot)]
  | dict ht =>
    dsimp only
    split
    · rfl
    · next hnot =>
      rw [mapM_eq_of_forall₂ ht.toList]
      rintro ⟨k, x⟩ ⟨_, y⟩ ⟨rfl, hxy⟩
      rw [hpart hnot _ _ hxy]
  | _ => rfl

theorem alike_packWithin (m n : Machine) : m.Alike n m.packWithin n.packWithin := by
  intro ρ fuel fuel' xs ys r s hagree hcontains hpart
  rw [packWithin, packWithin, hcontains]
  generalize m.object r = o at hagree ⊢
  generalize n.object s = p at hagree ⊢
  cases hagree with
  | pair hx hy =>
    dsimp only
    split
    · rfl
    · next hnot =>
      rw [hpart hnot _ _ hx, hpart hnot _ _ hy]
      rfl
  | list hxs =>
    dsimp only
    split
    · rfl
    · next hnot =>
      rw [mapM_eq_of_forall₂ hxs (hpart hnot), hxs.length_eq]
      rfl
  | dict ht =>
    dsimp only
    split
    · rfl
    · next hnot =>
      rw [mapM_eq_of_forall₂ ht.toList, ht.count_eq]
      · rfl
      · rintro ⟨k, x⟩ ⟨_, y⟩ ⟨rfl, hxy⟩
        rw [hpart hnot _ _ hxy]
  | _ => rfl

theorem alike_streamWithin (m n : Machine) : m.Alike n m.streamWithin n.streamWithin := by
  intro ρ fuel fuel' xs ys r s hagree hcontains hpart
  rw [streamWithin, streamWithin, hcontains]
  generalize m.object r = o at hagree ⊢
  generalize n.object s = p at hagree ⊢
  cases hagree with
  | pair hx hy =>
    dsimp only
    split
    · rfl
    · next hnot =>
      rw [hpart hnot _ _ hx, hpart hnot _ _ hy]
      rfl
  | list hxs =>
    dsimp only
    split
    · rfl
    · next hnot =>
      rw [forM_eq_of_forall₂ hxs (hpart hnot), hxs.length_eq]
      rfl
  | dict ht =>
    dsimp only
    split
    · rfl
    · next hnot =>
      rw [forM_eq_of_forall₂ ht.toList, ht.count_eq]
      · rfl
      · rintro ⟨k, x⟩ ⟨_, y⟩ ⟨rfl, hxy⟩
        rw [hpart hnot _ _ hxy]
  | _ => rfl

/-! Only the objects matter for the outcome of a walk. -/

/-- Walks read nothing but the heap. -/
theorem render_congr (h : m.heap = n.heap) : m.render = n.render := by
  funext style r
  rw [render, render, (m.alike_renderWithin n style).eq h fun _ _ _ => rfl, h]

theorem toDatum_congr (h : m.heap = n.heap) : m.toDatum = n.toDatum := by
  have hwithin : m.toDatumWithin = n.toDatumWithin :=
    (m.alike_toDatumWithin n).eq h fun path r hkind => by rw [toDatumWithin, toDatumWithin, hkind]
  funext r
  rw [toDatum, toDatum, hwithin, h]

theorem pack_congr (h : m.heap = n.heap) : m.pack = n.pack := by
  have hwithin : m.packWithin = n.packWithin :=
    (m.alike_packWithin n).eq h fun path r hkind => by rw [packWithin, packWithin, hkind]
  funext r
  rw [pack, pack, hwithin, h]

theorem packStream_congr (h : m.heap = n.heap) : m.packStream = n.packStream := by
  have hwithin : m.streamWithin = n.streamWithin :=
    (m.alike_streamWithin n).eq h fun path r hkind => by rw [streamWithin, streamWithin, hkind]
  funext r
  rw [packStream, packStream, hwithin, h]

end Machine

namespace Twins

variable {Γ : Scope} {ρ : Pairing} {m n : Machine}

/-- Paired references have the same text. -/
theorem render (h : Twins Γ ρ m n) (style : Style) {r s : Ref} (hr : ρ r s) : m.render style r = n.render style s :=
  (m.alike_renderWithin n style).twins h (.start ..) hr

/-- Paired references have the same plain data. -/
theorem toDatum (h : Twins Γ ρ m n) {r s : Ref} (hr : ρ r s) : m.toDatum r = n.toDatum s :=
  (m.alike_toDatumWithin n).twins h (.start ..) hr

/-- Paired references have the same packed form. -/
theorem pack (h : Twins Γ ρ m n) {r s : Ref} (hr : ρ r s) : m.pack r = n.pack s :=
  (m.alike_packWithin n).twins h (.start ..) hr

/-- Paired references are written to a file in the same pieces. -/
theorem packStream (h : Twins Γ ρ m n) {r s : Ref} (hr : ρ r s) : m.packStream r = n.packStream s := by
  rw [Machine.packStream, Machine.packStream, (m.alike_streamWithin n).twins h (.start ..) hr]

end Twins

end TinyScript
