import TinyScript.Proofs.Packed.Structure
import TinyScript.Proofs.Twin.Walk

/-!
# Walks over a heap

A walk over a value goes into every container but those that it is inside of already, which are its path.
`Machine.Descent` says that such a walk ends: the containers of a path are distinct and valid, so no path is longer
than the heap has slots (`Machine.descent`), and a larger bound makes no difference (`Machine.Local.eq_of_within`).
-/

namespace TinyScript

namespace Heap

variable {h : Heap} {r s : Ref}

/-- A container that lies inside itself. -/
def Cyclic (h : Heap) (s : Ref) : Prop := ∃ o, h.get? s = some o ∧ ∃ c ∈ o.children, h.Reaches c s

theorem Reaches.eq_or_part (hrs : h.Reaches r s) :
    s = r ∨ ∃ o, h.get? r = some o ∧ ∃ c ∈ o.children, h.Reaches c s := by
  cases ho : h.get? r with
  | some o =>
    rcases hrs.eq_or_child ho with rfl | hchild
    · exact Or.inl rfl
    · exact Or.inr ⟨o, rfl, hchild⟩
  | none =>
    left
    induction hrs with
    | refl => rfl
    | part _ hp _ ih =>
      subst ih
      rw [ho] at hp
      cases hp

/-- Nothing lies inside itself if that is so in all the parts: what lies inside itself lies in a part of its. -/
theorem not_cyclic_of_parts
    (hparts : ∀ o, h.get? r = some o → ∀ c ∈ o.children, ∀ s, h.Reaches c s → ¬ h.Cyclic s) :
    ∀ s, h.Reaches r s → ¬ h.Cyclic s := by
  intro s hs hcyclic
  rcases hs.eq_or_part with rfl | ⟨o, ho, c, hc, hcs⟩
  · obtain ⟨o, ho, c, hc, hback⟩ := hcyclic
    exact hparts o ho c hc s hback ⟨o, ho, c, hc, hback⟩
  · exact hparts o ho c hc s hcs hcyclic

/-- A walk below nothing yet. -/
theorem within_nil {bound : Nat} (hbound : h.slots.size < bound) : h.Within bound [] :=
  ⟨List.nodup_nil, List.forall_mem_nil _, hbound⟩

/-- Where nothing lies inside itself, a walk comes to no container of its path again, and it is not stopped
by a bound that exceeds the number of slots. -/
theorem descend (h : Heap) {Q : Ref → Prop} {P : Nat → List Ref → Ref → Prop}
    (hstep : ∀ {fuel path r}, Q r → r ∉ path → (∀ o, h.get? r = some o → ∀ c ∈ o.children, P fuel (r :: path) c) →
      P (fuel + 1) path r)
    (hr : ∀ s, h.Reaches r s → Q s ∧ ¬ h.Cyclic s) : P (h.slots.size + 1) [] r := by
  -- by induction on the bound, where `r` lies inside of everything on the path
  suffices hwalk : ∀ {fuel : Nat} {path : List Ref} {r : Ref}, h.Within fuel path →
      (∀ p ∈ path, ∃ o, h.get? p = some o ∧ ∃ c ∈ o.children, h.Reaches c r) →
      (∀ s, h.Reaches r s → Q s ∧ ¬ h.Cyclic s) → P fuel path r from
    hwalk (within_nil (Nat.lt_succ_self _)) (List.forall_mem_nil _) hr
  intro fuel
  induction fuel with
  | zero => exact fun hwithin => absurd rfl hwithin.fuel_ne_zero
  | succ fuel ih =>
    intro path r hwithin hpath hr
    obtain ⟨hQ, hacyclic⟩ := hr r .refl
    -- so if it were on the path itself, it would lie inside itself
    have hnot : r ∉ path := fun hmem => hacyclic (hpath r hmem)
    refine hstep hQ hnot fun o ho c hc => ?_
    refine ih (hwithin.cons (valid_iff_get?.mpr ⟨o, ho⟩) hnot) (fun p hp => ?_) fun s hs => hr s (.of_child ho hc hs)
    rcases List.mem_cons.mp hp with rfl | hp
    · exact ⟨o, ho, c, hc, .refl⟩
    · obtain ⟨q, hq, x, hx, hreach⟩ := hpath p hp
      exact ⟨q, hq, x, hx, .part hreach ho hc⟩

end Heap

namespace Machine

variable {m : Machine} {r c : Ref}

/-- What a stale reference is read as has no parts. -/
theorem mem_children_object_iff :
    c ∈ (m.object r).children ↔ ∃ o, m.heap.get? r = some o ∧ c ∈ o.children := by
  rw [object]
  cases m.heap.get? r with
  | none => simp [Object.children]
  | some o => simp

/-! ## Every walk ends -/

/-- A walk that has come to a reference, inside of the containers of a path, comes to an end: it turns back at a
container of the path, and elsewhere it comes to an end in every part. -/
inductive Descent (m : Machine) : List Ref → Ref → Prop
  | again {path r} : r ∈ path → Descent m path r
  | enter {path r} : r ∉ path → (∀ c ∈ (m.object r).children, Descent m (r :: path) c) → Descent m path r

theorem descent_of_within {fuel : Nat} {path : List Ref} (hwithin : m.heap.Within fuel path) (r : Ref) :
    m.Descent path r := by
  induction fuel generalizing path r with
  | zero => exact absurd rfl hwithin.fuel_ne_zero
  | succ fuel ih =>
    by_cases hmem : r ∈ path
    · exact .again hmem
    · refine .enter hmem fun c hc => ?_
      obtain ⟨o, ho, -⟩ := mem_children_object_iff.mp hc
      exact ih (hwithin.cons (Heap.valid_iff_get?.mpr ⟨o, ho⟩) hmem) c

/-- **Every walk ends**, whatever is shared, stale or lies inside itself. -/
theorem descent (m : Machine) (r : Ref) : m.Descent [] r :=
  descent_of_within (Heap.within_nil (Nat.lt_succ_self _)) r

/-- A bounded walk whose outcome at a reference depends on the bound only through its outcomes at the parts, and
not at all on the path. -/
def Local {α : Type} (m : Machine) (f : Nat → List Ref → Ref → α) : Prop :=
  ∀ ⦃fuel fuel' path r⦄, (r ∉ path → ∀ c ∈ (m.object r).children, f fuel (r :: path) c = f fuel' (r :: path) c) →
    f (fuel + 1) path r = f (fuel' + 1) path r

theorem Alike.local {α : Type} {f : Nat → List Ref → Ref → α} (h : m.Alike m f f) : m.Local f := by
  intro fuel fuel' path r hpart
  refine h (ρ := fun x y => x = y ∧ x ∈ (m.object r).children) (.self fun c hc => ⟨rfl, hc⟩) rfl ?_
  rintro hnot x _ ⟨rfl, hx⟩
  exact hpart (by simpa using hnot) x hx

theorem local_renderWithin (m : Machine) (style : Style) : m.Local (m.renderWithin style) :=
  (m.alike_renderWithin m style).local

theorem local_toDatumWithin (m : Machine) : m.Local m.toDatumWithin := (m.alike_toDatumWithin m).local

theorem local_packWithin (m : Machine) : m.Local m.packWithin := (m.alike_packWithin m).local

/-- The bound makes no difference. -/
theorem Local.eq_of_within {α : Type} {f : Nat → List Ref → Ref → α} (hlocal : m.Local f) {fuel fuel' : Nat}
    {path : List Ref} (hwithin : m.heap.Within fuel path) (hwithin' : m.heap.Within fuel' path) (r : Ref) :
    f fuel path r = f fuel' path r := by
  induction fuel generalizing fuel' path r with
  | zero => exact absurd rfl hwithin.fuel_ne_zero
  | succ fuel ih =>
    obtain _ | fuel' := fuel'
    · exact absurd rfl hwithin'.fuel_ne_zero
    · refine hlocal fun hnot c hc => ?_
      obtain ⟨o, ho, -⟩ := mem_children_object_iff.mp hc
      have hvalid := Heap.valid_iff_get?.mpr ⟨o, ho⟩
      exact ih (hwithin.cons hvalid hnot) (hwithin'.cons hvalid hnot) c

end Machine

end TinyScript
