import TinyScript.Machine.Collect
import TinyScript.Proofs.Heap.Threading

/-!
# What holds of every object

A property of all objects on a heap, whether the slots are threaded well or not. An allocation keeps it if
the new object has it. Marking, sweeping and what concerns roots put nothing into any slot (`Heap.Fades`), so
they keep it in any case.
-/

namespace TinyScript

variable {o : Object} {f : Slot → Slot}

/-- The object in the slot, if there is one, has the property. -/
def Slot.Every (P : Object → Prop) (s : Slot) : Prop := ∀ o, s.object = some o → P o

/-- Every object has the property. -/
def Heap.Every (P : Object → Prop) (h : Heap) : Prop := ∀ (i : Nat) (s : Slot), h.slots[i]? = some s → s.Every P

namespace Heap

variable {P : Object → Prop} {h : Heap}

theorem every_empty (P : Object → Prop) : empty.Every P := by
  intro i s hs
  simp [empty] at hs

theorem Every.modify (hh : h.Every P) (i : Nat) (hf : ∀ s, s.Every P → (f s).Every P) :
    (h.modify i f).Every P := by
  intro j s hs
  rw [getElem?_modify] at hs
  split at hs
  · obtain ⟨s', hs', rfl⟩ := Option.map_eq_some_iff.1 hs
    exact hf s' (hh j s' hs')
  · exact hh j s hs

/-- What holds of every object holds of one that is found. -/
theorem Every.get? (hh : h.Every P) {r : Ref} (ho : h.get? r = some o) : P o := by
  obtain ⟨s, hs, ho⟩ := Option.bind_eq_some_iff.1 ho
  rw [slot?] at hs
  split at hs
  · cases hs
  · split at hs
    · next t ht =>
      split at hs
      · cases hs
        exact hh _ _ ht o ho
      · cases hs
    · cases hs

theorem Every.set (hh : h.Every P) (r : Ref) (ho : P o) : (h.set r o).Every P := by
  rw [Heap.set]
  split
  · refine hh.modify _ fun s _ p hp => ?_
    cases hp
    exact ho
  · exact hh

theorem Every.link (hh : h.Every P) (i : Nat) (ho : P o) (isRoot : Bool) :
    (h.link i o isRoot).1.Every P := by
  rw [Heap.link]
  cases h.tail with
  | none =>
    dsimp only [Heap.Every]
    refine hh.modify i fun s _ p hp => ?_
    cases hp
    exact ho
  | some t =>
    dsimp only [Heap.Every]
    refine Every.modify (hh.modify i fun s _ p hp => ?_) t fun s hs => hs
    cases hp
    exact ho

/-- A new object has to have the property, and no more. -/
theorem Every.alloc (hh : h.Every P) (ho : P o) (isRoot : Bool) :
    (h.alloc o isRoot).1.Every P := by
  rw [Heap.alloc]
  split
  · refine Every.link ?_ _ ho isRoot
    exact hh
  · refine Every.link ?_ _ ho isRoot
    intro i s hs
    rw [Array.getElem?_push] at hs
    split at hs
    · cases hs
      intro p hp
      cases hp
    · exact hh i s hs

/-! ## Losing objects -/

/-- The object in a slot. -/
def objectAt? (h : Heap) (i : Nat) : Option Object := h.slots[i]?.bind Slot.object

/-- The generation of a slot, zero for one that was never used. -/
def genAt (h : Heap) (i : Nat) : UInt32 := (h.slots[i]?.map Slot.gen).getD 0

/-- Nothing is put into any slot: each has the generation it had, and the object it had or none. -/
def Fades (h h' : Heap) : Prop :=
  ∀ i, h'.genAt i = h.genAt i ∧ (h'.objectAt? i = h.objectAt? i ∨ h'.objectAt? i = none)

theorem Fades.refl (h : Heap) : h.Fades h := fun _ => ⟨rfl, .inl rfl⟩

theorem Fades.trans {h h₁ h₂ : Heap} (h₀₁ : h.Fades h₁) (h₁₂ : h₁.Fades h₂) : h.Fades h₂ := by
  intro i
  obtain ⟨hgen, hobject⟩ := h₁₂ i
  refine ⟨hgen.trans (h₀₁ i).1, hobject.elim (fun heq => ?_) .inr⟩
  rw [heq]
  exact (h₀₁ i).2

/-- A property of all objects is kept when some go. -/
theorem Every.fades {h' : Heap} (hh : h.Every P) (hf : h.Fades h') : h'.Every P := by
  intro i s hs o ho
  have hobject : h'.objectAt? i = some o := by rw [objectAt?, hs, Option.bind_some, ho]
  rcases (hf i).2 with heq | hnone
  · obtain ⟨s', hs', ho'⟩ := Option.bind_eq_some_iff.1 (heq.symm.trans hobject)
    exact hh i s' hs' o ho'
  · rw [hnone] at hobject
    cases hobject

/-- A slot may lose its object. -/
theorem Fades.modify {h' : Heap} (hh : h.Fades h') (i : Nat) (hgen : ∀ s, (f s).gen = s.gen)
    (hobject : ∀ s, (f s).object = s.object ∨ (f s).object = none) : h.Fades (h'.modify i f) := by
  refine hh.trans fun j => ?_
  rw [genAt, genAt, objectAt?, objectAt?, getElem?_modify]
  split
  · cases h'.slots[j]? with
    | none => exact ⟨rfl, .inl rfl⟩
    | some s => exact ⟨hgen s, hobject s⟩
  · exact ⟨rfl, .inl rfl⟩

/-- A change of links and flags. -/
theorem Fades.relink {h' : Heap} (hh : h.Fades h') (i : Nat) (hgen : ∀ s, (f s).gen = s.gen)
    (hobject : ∀ s, (f s).object = s.object) : h.Fades (h'.modify i f) := hh.modify i hgen fun s => .inl (hobject s)

theorem fades_setRoot? {r : Ref} {isRoot : Bool} {h' : Heap} (heq : h.setRoot? r isRoot = some h') : h.Fades h' := by
  rw [Heap.setRoot?] at heq
  split at heq
  · cases heq
  · split at heq
    · cases heq
      exact (Fades.refl h).relink _ (fun _ => rfl) fun _ => rfl
    · split at heq
      · cases heq
        exact (Fades.refl h).relink _ (fun _ => rfl) fun _ => rfl
      · cases heq
        exact .refl h

theorem fades_unlink (h : Heap) (i : Nat) : h.Fades (h.unlink i) := by
  rw [Heap.unlink]
  split
  · exact .refl h
  · next next prev _ =>
    dsimp only [Fades]
    refine Fades.modify ?_ i (fun _ => rfl) fun _ => .inr rfl
    cases next with
    | none =>
      cases prev with
      | none => exact .refl h
      | some p => exact (Fades.refl h).relink p (fun _ => rfl) fun _ => rfl
    | some n =>
      refine Fades.relink ?_ n (fun _ => rfl) fun _ => rfl
      cases prev with
      | none => exact .refl h
      | some p => exact (Fades.refl h).relink p (fun _ => rfl) fun _ => rfl

end Heap

namespace Machine

variable {P : Object → Prop}

/-- What marking any slot keeps, marking keeps. -/
theorem mark_induction {Q : Heap → Prop} (hstep : ∀ h i, Q h → Q (h.modify i fun s => { s with flag := .marked }))
    {m : Machine} (hm : Q m.heap) : Q m.mark.1.heap := by
  have hvisit (k : Marking) (r : Ref) (hk : Q k.heap) : Q (k.visit r).heap := by
    rw [Marking.visit]
    split
    · rw [Marking.markSlot]
      split
      · exact hstep _ _ hk
      · exact hk
    · exact hk
  have hall (rs : List Ref) : ∀ k : Marking, Q k.heap → Q (k.visitAll rs).heap := by
    induction rs with
    | nil => exact fun _ hk => hk
    | cons r rs ih => exact fun k hk => ih _ (hvisit k r hk)
  have hflagged (k : Marking) (fuel : Nat) (next : Option Nat) (hk : Q k.heap) :
      Q (k.visitFlagged fuel next).heap := by
    fun_induction Marking.visitFlagged fuel next k with
    | case1 fuel i k s _ ih =>
      refine ih ?_
      split
      · exact hk
      · exact hvisit _ _ hk
    | case2 | case3 => exact hk
  have hframe (k : Marking) (fuel : Nat) (f : FrameId) (hk : Q k.heap) :
      Q (k.visitFrame m.frames fuel f).heap := by
    fun_induction Marking.visitFrame m.frames fuel f k with
    | case1 | case2 => exact hk
    | case3 fuel f k _ _ p _ ih => exact ih (hall _ _ hk)
    | case4 fuel f k => exact hall _ _ hk
  have hframes (fs : List FrameId) : ∀ k : Marking, Q k.heap →
      Q (fs.foldl (fun k f => k.visitFrame m.frames m.frames.arena.size f) k).heap := by
    induction fs with
    | nil => exact fun _ hk => hk
    | cons f fs ih => exact fun k hk => ih _ (hframe k _ f hk)
  have hdrain (k : Marking) (fuel : Nat) (hk : Q k.heap) : Q (k.drain m.frames fuel).heap := by
    fun_induction Marking.drain m.frames fuel k with
    | case1 | case2 => exact hk
    | case3 _ _ _ _ _ _ _ ih => exact ih hk
    | case4 fuel k i gray _ _ o _ _ searched ih =>
      refine ih ?_
      subst searched
      split
      · exact hframe _ _ _ (hall _ _ hk)
      · exact hall _ _ hk
  exact hdrain _ _ (hall _ _ (hframes _ _ (hflagged _ _ _ hm)))

theorem fades_mark (m : Machine) : m.heap.Fades m.mark.1.heap :=
  mark_induction (Q := m.heap.Fades) (fun _ i h => h.relink i (fun _ => rfl) fun _ => rfl) (.refl _)

/-- What holds at the beginning and is kept by every treatment holds at the end. -/
theorem walk_induction {treat : Machine → Nat → Machine × Bool} {Q : Machine → Prop}
    (hstep : ∀ m i, Q m → Q (treat m i).1) {m : Machine} (hm : Q m) : Q (m.walk treat).1 := by
  have hfrom (fuel : Nat) : ∀ (next : Option Nat) (mn : Machine × Nat), Q mn.1 → Q (walkFrom treat fuel next mn).1 := by
    induction fuel with
    | zero =>
      intro next mn h
      cases next <;> exact h
    | succ fuel ih =>
      intro next mn h
      cases next with
      | none => exact h
      | some i => exact ih _ _ (hstep _ _ h)
  exact hfrom _ _ (m, 0) hm

theorem fades_free (m : Machine) (i : Nat) : m.heap.Fades (m.free i).heap := m.heap.fades_unlink i

/-- Sweeping a slot frees its object or keeps it. -/
theorem fades_sweepSlot (m : Machine) (i : Nat) : m.heap.Fades (m.sweepSlot i).1.heap := by
  rw [Machine.sweepSlot]
  split
  · exact .refl _
  · split
    · exact m.fades_free i
    · exact (Heap.Fades.refl _).relink i (fun _ => rfl) fun _ => rfl
    · exact .refl _

/-- What no treatment of a slot puts anything into, a walk does not either. -/
theorem fades_walk {treat : Machine → Nat → Machine × Bool}
    (htreat : ∀ (m : Machine) i, m.heap.Fades (treat m i).1.heap) (m : Machine) :
    m.heap.Fades (m.walk treat).1.heap :=
  walk_induction (Q := fun m' => m.heap.Fades m'.heap) (fun m' i h => h.trans (htreat m' i)) (.refl _)

/-- Sweeping frees objects. -/
theorem fades_sweep (m : Machine) : m.heap.Fades m.sweep.1.heap := fades_walk fades_sweepSlot m

theorem fades_releaseAll (m : Machine) : m.heap.Fades m.releaseAll.1.heap := fades_walk fades_free m

end Machine

end TinyScript
