import Mathlib.Data.List.Basic
import Mathlib.Data.List.Nodup
import Mathlib.Data.List.Perm.Subperm
import Mathlib.Tactic.Common
import TinyScript.Heap.Basic

/-!
# The slots in use

The heap threads the slots in use into a list, forwards and backwards, and keeps the others on the free list.
`Threaded h l` says that it does so for the list `l`, oldest first: wherever `l` is cut at a slot, the slot points to
the head of what follows and to the last of what precedes. `order` reads the list back (`Threaded.order_eq`).

What a slot in use holds, its links left out, is its `Cell`; allocating and freeing change one cell each.
-/

namespace TinyScript

open List

/-- What a slot in use holds, its links left out. -/
structure Cell where
  object : Object
  gen : UInt32
  flag : Flag

/-- The cell of a slot, if it is in use. -/
def Slot.cell? (s : Slot) : Option Cell := s.object.map fun o => ⟨o, s.gen, s.flag⟩

namespace Heap

/-- The cell of the slot with an index, if that slot is in use. -/
def cell? (h : Heap) (i : Nat) : Option Cell := h.slots[i]?.bind Slot.cell?

theorem lt_size_of_cell? {h : Heap} {i : Nat} {c : Cell} (hc : h.cell? i = some c) :
    i < h.slots.size := by
  rw [cell?, Option.bind_eq_some_iff] at hc
  obtain ⟨s, hs, -⟩ := hc
  exact (Array.getElem?_eq_some_iff.mp hs).1

/-! ## Threading -/

/-- The heap threads exactly the slots of `l`, in this order, and all other slots are free. -/
structure Threaded (h : Heap) (l : List Nat) : Prop where
  nodup : l.Nodup
  mem_iff : ∀ {i}, i ∈ l ↔ (h.cell? i).isSome
  link : ∀ {before i after}, l = before ++ i :: after →
    ∃ s, h.slots[i]? = some s ∧ s.next = after.head? ∧ s.prev = before.getLast?
  head_eq : h.head = l.head?
  tail_eq : h.tail = l.getLast?
  live_eq : h.live = l.length
  gen_ne_zero : ∀ {i c}, h.cell? i = some c → c.gen ≠ 0
  free_nodup : h.free.Nodup
  mem_free : ∀ {i}, i ∈ h.free ↔ i < h.slots.size ∧ h.cell? i = none

/-- The heap threads its slots in use, in the order in which it goes through them. -/
def WellFormed (h : Heap) : Prop := h.Threaded h.order

variable {h : Heap} {l : List Nat} {i : Nat} {before after : List Nat}

theorem Threaded.length_le (ht : h.Threaded l) : l.length ≤ h.slots.size := by
  have hsub : l ⊆ List.range h.slots.size := by
    intro i hi
    obtain ⟨c, hc⟩ := Option.isSome_iff_exists.mp (ht.mem_iff.mp hi)
    exact List.mem_range.mpr (lt_size_of_cell? hc)
  simpa using (ht.nodup.subperm hsub).length_le

/-- Following the links from any place of the list gives the rest of it. -/
theorem Threaded.threadFrom_eq (ht : h.Threaded l) {fuel : Nat} (before after : List Nat)
    (hl : l = before ++ after) (hfuel : after.length ≤ fuel) :
    h.threadFrom fuel after.head? before.reverse = l := by
  induction fuel generalizing before after with
  | zero =>
    have hnil : after = [] := List.length_eq_zero_iff.mp (by omega)
    subst hnil
    simp [threadFrom, hl]
  | succ fuel ih =>
    cases after with
    | nil => simp [threadFrom, hl]
    | cons i after =>
      obtain ⟨s, hs, hnext, -⟩ := ht.link hl
      have hstep := ih (before ++ [i]) after (by simpa using hl)
        (by simpa using hfuel)
      rw [reverse_append, reverse_singleton, singleton_append] at hstep
      rw [head?_cons, threadFrom, hs, Option.bind_some, hnext]
      exact hstep

/-- The list that is threaded is read back. -/
theorem Threaded.order_eq (ht : h.Threaded l) : h.order = l := by
  have hfrom := ht.threadFrom_eq [] l rfl ht.length_le
  rw [← ht.head_eq] at hfrom
  exact hfrom

theorem Threaded.wellFormed (ht : h.Threaded l) : h.WellFormed := by
  rw [WellFormed, ht.order_eq]
  exact ht

theorem threaded_empty : Heap.empty.Threaded [] := by
  refine ⟨nodup_nil, ?_, ?_, rfl, rfl, rfl, ?_, nodup_nil, ?_⟩
  · simp [cell?, empty]
  · intro before i after hl
    simp at hl
  · simp [cell?, empty]
  · simp [empty]

/-! ## Changing a slot in place -/

theorem getElem?_modify (h : Heap) (i j : Nat) (f : Slot → Slot) :
    (h.modify i f).slots[j]? = if i = j then h.slots[j]?.map f else h.slots[j]? :=
  Array.getElem?_modify

@[simp] theorem size_modify (h : Heap) (i : Nat) (f : Slot → Slot) :
    (h.modify i f).slots.size = h.slots.size := by
  simp [modify]

theorem cell?_modify (h : Heap) (i j : Nat) (f : Slot → Slot) :
    (h.modify i f).cell? j
      = if i = j then h.slots[j]?.bind fun s => (f s).cell? else h.cell? j := by
  rw [cell?, getElem?_modify]
  split
  · rw [Option.bind_map]
    rfl
  · rfl

/-- A change that keeps the links, the use and the generation of a slot keeps the list. -/
theorem Threaded.modify (ht : h.Threaded l) {f : Slot → Slot} (hnext : ∀ s, (f s).next = s.next)
    (hprev : ∀ s, (f s).prev = s.prev) (hgen : ∀ s, (f s).gen = s.gen)
    (hobj : ∀ s, h.slots[i]? = some s → ((f s).object.isSome ↔ s.object.isSome)) :
    (h.modify i f).Threaded l := by
  have hsome (j : Nat) : ((h.modify i f).cell? j).isSome ↔ (h.cell? j).isSome := by
    rw [cell?_modify]
    split
    · next hij =>
      subst hij
      cases hs : h.slots[i]? with
      | none => simp [cell?, hs]
      | some s => simpa [cell?, hs, Slot.cell?] using hobj s hs
    · rfl
  refine ⟨ht.nodup, ?_, ?_, ht.head_eq, ht.tail_eq, ht.live_eq, ?_, ht.free_nodup, ?_⟩
  · intro j
    rw [hsome]
    exact ht.mem_iff
  · intro before j after hl
    obtain ⟨s, hs, hn, hp⟩ := ht.link hl
    rw [getElem?_modify, hs]
    by_cases hij : i = j
    · exact ⟨f s, by simp [hij], by rw [hnext, hn], by rw [hprev, hp]⟩
    · exact ⟨s, by simp [hij], hn, hp⟩
  · intro j c hc
    rw [cell?_modify] at hc
    split at hc
    · next hij =>
      subst hij
      obtain ⟨s, hs, hcell⟩ := Option.bind_eq_some_iff.mp hc
      obtain ⟨o, ho, rfl⟩ := Option.map_eq_some_iff.mp hcell
      obtain ⟨o', ho'⟩ := Option.isSome_iff_exists.mp ((hobj s hs).mp (by simp [ho]))
      rw [hgen]
      exact ht.gen_ne_zero (i := i) (c := ⟨o', s.gen, s.flag⟩) (by simp [cell?, hs, Slot.cell?, ho'])
    · exact ht.gen_ne_zero hc
  · intro j
    rw [size_modify, ← Option.not_isSome_iff_eq_none, hsome, Option.not_isSome_iff_eq_none]
    exact ht.mem_free

/-! ## Allocating -/

/-- No slot in use has generation zero. -/
theorem nextGen_ne_zero (g : UInt32) : nextGen g ≠ 0 := by
  rw [nextGen]
  split
  · decide
  · assumption

section Link

variable {h : Heap} {i : Nat} (o : Object) (isRoot : Bool)

theorem getElem?_link (hi : i < h.slots.size) (htail : h.tail ≠ some i) (j : Nat) :
    (h.link i o isRoot).1.slots[j]?
      = if i = j then
          some ⟨some o, (h.link i o isRoot).2.gen, if isRoot then .root else .marked, none, h.tail⟩
        else if h.tail = some j then h.slots[j]?.map fun s => { s with next := some i }
        else h.slots[j]? := by
  have hslot : h.slots[i]? = some h.slots[i] := Array.getElem?_eq_getElem hi
  by_cases hij : i = j
  · subst hij
    cases ht : h.tail with
    | none => simp only [link, ht, getElem?_modify, if_true, hslot, Option.map_some]
    | some t =>
      have hti : t ≠ i := fun hti => htail (by rw [ht, hti])
      simp only [link, ht, getElem?_modify, if_true, hti, if_false, hslot, Option.map_some]
  · cases ht : h.tail with
    | none => simp only [link, ht, getElem?_modify, hij, if_false, reduceCtorEq]
    | some t => simp only [link, ht, getElem?_modify, hij, if_false, Option.some.injEq]

/-- Linking a slot makes a cell of it. -/
theorem cell?_link (hi : i < h.slots.size) (htail : h.tail ≠ some i) (j : Nat) :
    (h.link i o isRoot).1.cell? j
      = if i = j then some ⟨o, (h.link i o isRoot).2.gen, if isRoot then .root else .marked⟩
        else h.cell? j := by
  rw [cell?, getElem?_link o isRoot hi htail]
  split
  · rfl
  · split
    · rw [Option.bind_map]
      rfl
    · rfl

theorem size_link : (h.link i o isRoot).1.slots.size = h.slots.size := by
  cases ht : h.tail <;> simp [link, ht]

theorem free_link : (h.link i o isRoot).1.free = h.free := by
  cases ht : h.tail <;> simp [link, ht, modify]

theorem head_link : (h.link i o isRoot).1.head = if h.tail = none then some i else h.head := by
  cases ht : h.tail <;> simp [link, ht, modify]

theorem live_link : (h.link i o isRoot).1.live = h.live + 1 := by
  cases ht : h.tail <;> simp [link, ht, modify]

end Link

section LinkSlot

variable {h : Heap} {l : List Nat} {i : Nat}

/-- A free slot is not in use. -/
theorem Threaded.unused_of_free (ht : { h with free := i :: h.free }.Threaded l) :
    i < h.slots.size ∧ i ∉ l ∧ h.tail ≠ some i := by
  obtain ⟨hi, hnone⟩ : i < h.slots.size ∧ h.cell? i = none := ht.mem_free.mp mem_cons_self
  have hmem : i ∈ l ↔ (h.cell? i).isSome := ht.mem_iff
  have hnotMem : i ∉ l := by
    rw [hmem, hnone]
    simp
  have htail : h.tail = l.getLast? := ht.tail_eq
  refine ⟨hi, hnotMem, ?_⟩
  rw [htail]
  exact fun hlast => hnotMem (mem_of_getLast? hlast)

/-- The links when a slot is linked. -/
theorem Threaded.relink_last (ht : { h with free := i :: h.free }.Threaded l) (o : Object) (isRoot : Bool)
    {before after : List Nat} {j : Nat} (hl : l ++ [i] = before ++ j :: after) :
    ∃ s, (h.link i o isRoot).1.slots[j]? = some s ∧ s.next = after.head? ∧ s.prev = before.getLast? := by
  obtain ⟨hi, hnotMem, htaili⟩ := ht.unused_of_free
  have htail : h.tail = l.getLast? := ht.tail_eq
  rcases eq_nil_or_concat after with rfl | ⟨after, k, rfl⟩
  · -- the new slot itself
    obtain ⟨rfl, hj⟩ := append_inj' hl rfl
    obtain rfl : i = j := by simpa using hj
    refine ⟨_, by rw [getElem?_link o isRoot hi htaili, if_pos rfl], rfl, ?_⟩
    exact htail
  · -- a slot before it: only the newest one changes
    have hlast : l ++ [i] = (before ++ j :: after) ++ [k] := by simpa using hl
    obtain ⟨hl', hk⟩ := append_inj' hlast rfl
    obtain rfl : i = k := by simpa using hk
    obtain ⟨s, hs, hnext, hprev⟩ := ht.link hl'
    have hij : i ≠ j := fun hij => hnotMem (by rw [hl', hij]; simp)
    rw [getElem?_link o isRoot hi htaili, if_neg hij, htail, hl']
    cases after with
    | nil =>
      rw [if_pos (by simp)]
      exact ⟨{ s with next := some i }, by rw [hs]; rfl, rfl, hprev⟩
    | cons k after =>
      have hnodup := ht.nodup
      rw [hl'] at hnodup
      have hne : (before ++ j :: k :: after).getLast? ≠ some j := by
        intro hlast
        rw [getLast?_append_of_ne_nil _ (by simp), getLast?_cons_cons] at hlast
        have hj := mem_of_getLast? hlast
        exact (List.nodup_cons.mp (List.nodup_append.mp hnodup).2.1).1 hj
      rw [if_neg hne]
      exact ⟨s, hs, by simpa using hnext, hprev⟩

/-- Linking a slot that is neither in use nor on the free list puts it behind all others. The slot
counts as free before, so that the free list may have lost it already. -/
theorem Threaded.link_slot (ht : { h with free := i :: h.free }.Threaded l) (o : Object) (isRoot : Bool) :
    (h.link i o isRoot).1.Threaded (l ++ [i]) := by
  obtain ⟨hi, hnotMem, htaili⟩ := ht.unused_of_free
  have htail : h.tail = l.getLast? := ht.tail_eq
  have hcell := cell?_link o isRoot hi htaili
  refine ⟨?_, ?_, ht.relink_last o isRoot, ?_, ?_, ?_, ?_, ?_, ?_⟩
  · rw [nodup_append]
    refine ⟨ht.nodup, by simp, ?_⟩
    rintro j hj k hk rfl
    exact hnotMem (by rwa [← List.mem_singleton.mp hk])
  · intro j
    have hmem : j ∈ l ↔ (h.cell? j).isSome := ht.mem_iff
    rw [hcell, mem_append, mem_singleton, hmem]
    split
    · next hij => simp [hij]
    · next hij => simp [Ne.symm hij]
  · rw [head_link, htail, ht.head_eq]
    cases l <;> simp
  · cases ht : h.tail <;> simp [Heap.link, ht]
  · rw [live_link, length_append, length_singleton]
    exact congrArg (· + 1) ht.live_eq
  · intro j c hc
    rw [hcell] at hc
    split at hc
    · cases hc
      exact nextGen_ne_zero _
    · exact ht.gen_ne_zero hc
  · rw [free_link]
    exact (List.nodup_cons.mp ht.free_nodup).2
  · intro j
    have hnotFree : i ∉ h.free := (List.nodup_cons.mp ht.free_nodup).1
    have hj : j ∈ i :: h.free ↔ j < h.slots.size ∧ h.cell? j = none := ht.mem_free
    rw [free_link, size_link, hcell]
    by_cases hij : i = j
    · subst hij
      simp [hnotFree]
    · rw [if_neg hij, ← hj, mem_cons]
      simp [Ne.symm hij]

end LinkSlot

/-- An unused slot at the end of the arena changes nothing. -/
theorem Threaded.push (ht : h.Threaded l) :
    { h with slots := h.slots.push {}, free := h.slots.size :: h.free }.Threaded l := by
  have hslot (j : Nat) : (h.slots.push {})[j]? = if j = h.slots.size then some {} else h.slots[j]? := by
    rw [Array.getElem?_push]
  have hcell (j : Nat) :
      { h with slots := h.slots.push {}, free := h.slots.size :: h.free }.cell? j = h.cell? j := by
    rw [cell?, hslot]
    split
    · next hj => simp [cell?, hj, Slot.cell?]
    · rfl
  refine ⟨ht.nodup, ?_, ?_, ht.head_eq, ht.tail_eq, ht.live_eq, ?_, ?_, ?_⟩
  · intro j
    rw [hcell]
    exact ht.mem_iff
  · intro before j after hl
    obtain ⟨s, hs, hlinks⟩ := ht.link hl
    have hj := (Array.getElem?_eq_some_iff.mp hs).1
    exact ⟨s, by rw [hslot, if_neg (by omega), hs], hlinks⟩
  · intro j c hc
    rw [hcell] at hc
    exact ht.gen_ne_zero hc
  · refine List.nodup_cons.mpr ⟨fun hfree => ?_, ht.free_nodup⟩
    exact absurd (ht.mem_free.mp hfree).1 (Nat.lt_irrefl _)
  · intro j
    rw [hcell, mem_cons, ht.mem_free]
    simp only [Array.size_push]
    constructor
    · rintro (rfl | ⟨hj, hnone⟩)
      · exact ⟨by omega, by simp [cell?]⟩
      · exact ⟨by omega, hnone⟩
    · rintro ⟨hj, hnone⟩
      by_cases hsize : j = h.slots.size
      · exact Or.inl hsize
      · exact Or.inr ⟨by omega, hnone⟩

/-- Allocating is linking a slot that was taken off the free list, or added to the arena, before. -/
theorem alloc_eq_link (h : Heap) (o : Object) (isRoot : Bool) :
    ∃ h' : Heap, h.alloc o isRoot = h'.link (h.alloc o isRoot).2.index o isRoot ∧
      (∀ {l}, h.Threaded l → { h' with free := (h.alloc o isRoot).2.index :: h'.free }.Threaded l) ∧
      (∀ j, h'.cell? j = h.cell? j) := by
  cases hfree : h.free with
  | nil =>
    have halloc : h.alloc o isRoot
        = { h with slots := h.slots.push {} }.link h.slots.size o isRoot := by
      simp only [alloc, hfree]
    refine ⟨{ h with slots := h.slots.push {} }, ?_, fun ht => ?_, fun j => ?_⟩
    · rw [halloc]
      rfl
    · rw [halloc]
      exact ht.push
    · simp only [cell?, Array.getElem?_push]
      split
      · next hj => simp [hj, Slot.cell?]
      · rfl
  | cons i rest =>
    have halloc : h.alloc o isRoot = { h with free := rest }.link i o isRoot := by
      simp only [alloc, hfree]
    refine ⟨{ h with free := rest }, ?_, fun ht => ?_, fun j => rfl⟩
    · rw [halloc]
      rfl
    · rw [halloc]
      change { h with free := i :: rest }.Threaded _
      rw [← hfree]
      exact ht

/-- A new object goes behind all others, into a slot that was not in use. -/
theorem Threaded.alloc (ht : h.Threaded l) (o : Object) (isRoot : Bool) :
    (h.alloc o isRoot).1.Threaded (l ++ [(h.alloc o isRoot).2.index]) := by
  obtain ⟨h', heq, ht', -⟩ := h.alloc_eq_link o isRoot
  rw [heq]
  exact (ht' ht).link_slot o isRoot

theorem Threaded.cell?_alloc_index (ht : h.Threaded l) (o : Object) (isRoot : Bool) :
    h.cell? (h.alloc o isRoot).2.index = none := by
  obtain ⟨h', -, ht', hcell⟩ := h.alloc_eq_link o isRoot
  rw [← hcell]
  exact ((ht' ht).mem_free.mp mem_cons_self).2

/-- Allocating makes one cell. -/
theorem Threaded.cell?_alloc (ht : h.Threaded l) (o : Object) (isRoot : Bool) (j : Nat) :
    (h.alloc o isRoot).1.cell? j
      = if (h.alloc o isRoot).2.index = j
        then some ⟨o, (h.alloc o isRoot).2.gen, if isRoot then .root else .marked⟩
        else h.cell? j := by
  obtain ⟨h', heq, ht', hcell⟩ := h.alloc_eq_link o isRoot
  obtain ⟨hi, -, htail⟩ := (ht' ht).unused_of_free
  conv_lhs => rw [heq, cell?_link o isRoot hi htail, ← heq]
  rw [hcell]

theorem gen_alloc_ne_zero (h : Heap) (o : Object) (isRoot : Bool) : (h.alloc o isRoot).2.gen ≠ 0 := by
  obtain ⟨h', heq, -, -⟩ := h.alloc_eq_link o isRoot
  rw [heq]
  exact nextGen_ne_zero _

/-! ## Freeing -/

theorem getElem?_unlink {s : Slot} (hs : h.slots[i]? = some s) (hprev : s.prev ≠ some i)
    (hnext : s.next ≠ some i) (j : Nat) :
    (h.unlink i).slots[j]?
      = if i = j then
          some { s with object := none, flag := .unmarked, next := none, prev := none }
        else h.slots[j]?.map fun t =>
          { t with next := if s.prev = some j then s.next else t.next,
                   prev := if s.next = some j then s.prev else t.prev } := by
  obtain ⟨o, gen, flag, next, prev⟩ := s
  by_cases hij : i = j
  · subst hij
    cases prev with
    | none =>
      cases next with
      | none => simp only [unlink, hs, getElem?_modify, if_true, Option.map_some]
      | some n =>
        have hn : n ≠ i := fun hn => hnext (by rw [hn])
        simp only [unlink, hs, getElem?_modify, if_true, hn, if_false, Option.map_some]
    | some p =>
      have hp : p ≠ i := fun hp => hprev (by rw [hp])
      cases next with
      | none => simp only [unlink, hs, getElem?_modify, if_true, hp, if_false, Option.map_some]
      | some n =>
        have hn : n ≠ i := fun hn => hnext (by rw [hn])
        simp only [unlink, hs, getElem?_modify, if_true, hn, hp, if_false, Option.map_some]
  · cases prev with
    | none =>
      cases next with
      | none => simp [unlink, hs, getElem?_modify, hij]
      | some n => by_cases hn : n = j <;> simp [unlink, hs, getElem?_modify, hij, hn]
    | some p =>
      cases next with
      | none => by_cases hp : p = j <;> simp [unlink, hs, getElem?_modify, hij, hp]
      | some n =>
        by_cases hp : p = j <;> by_cases hn : n = j <;>
          simp [unlink, hs, getElem?_modify, hij, hp, hn, Function.comp_def]

section Unlink

variable {h : Heap} {i : Nat} {s : Slot} (hs : h.slots[i]? = some s)
include hs

theorem cell?_unlink_slot (hprev : s.prev ≠ some i) (hnext : s.next ≠ some i) (j : Nat) :
    (h.unlink i).cell? j = if i = j then none else h.cell? j := by
  rw [cell?, getElem?_unlink hs hprev hnext]
  split
  · rfl
  · rw [Option.bind_map]
    rfl

theorem size_unlink : (h.unlink i).slots.size = h.slots.size := by
  obtain ⟨o, gen, flag, next, prev⟩ := s
  cases prev <;> cases next <;> simp [unlink, hs]

theorem free_unlink : (h.unlink i).free = i :: h.free := by
  obtain ⟨o, gen, flag, next, prev⟩ := s
  cases prev <;> cases next <;> simp [unlink, hs, modify]

theorem live_unlink : (h.unlink i).live = h.live - 1 := by
  obtain ⟨o, gen, flag, next, prev⟩ := s
  cases prev <;> cases next <;> simp [unlink, hs, modify]

theorem head_unlink : (h.unlink i).head = if s.prev = none then s.next else h.head := by
  obtain ⟨o, gen, flag, next, prev⟩ := s
  cases prev <;> cases next <;> simp [unlink, hs, modify]

theorem tail_unlink : (h.unlink i).tail = if s.next = none then s.prev else h.tail := by
  obtain ⟨o, gen, flag, next, prev⟩ := s
  cases prev <;> cases next <;> simp [unlink, hs, modify]

end Unlink

theorem Threaded.notMem (ht : h.Threaded (before ++ i :: after)) : i ∉ before ∧ i ∉ after := by
  simpa [not_or] using (List.nodup_cons.mp (List.nodup_middle.mp ht.nodup)).1

/-- The slot at a place of the list is linked to its neighbours and not to itself. -/
theorem Threaded.exists_slot (ht : h.Threaded (before ++ i :: after)) :
    ∃ s, h.slots[i]? = some s ∧ s.next = after.head? ∧ s.prev = before.getLast? ∧
      s.next ≠ some i ∧ s.prev ≠ some i := by
  obtain ⟨s, hs, hnext, hprev⟩ := ht.link rfl
  obtain ⟨hbefore, hafter⟩ := ht.notMem
  refine ⟨s, hs, hnext, hprev, ?_, ?_⟩
  · exact fun hn => hafter (mem_of_head? (hnext.symm.trans hn))
  · exact fun hp => hbefore (mem_of_getLast? (hprev.symm.trans hp))

/-- The links of a slot behind one that is taken out. -/
theorem Threaded.relink_behind {before mid back : List Nat} {i j : Nat}
    (ht : h.Threaded (before ++ i :: (mid ++ j :: back))) :
    ∃ t, (h.slots[j]?.map fun t =>
        { t with next := if before.getLast? = some j then (mid ++ j :: back).head? else t.next,
                 prev := if (mid ++ j :: back).head? = some j then before.getLast? else t.prev })
          = some t ∧ t.next = back.head? ∧ t.prev = (before ++ mid).getLast? := by
  have hl : before ++ i :: (mid ++ j :: back) = (before ++ i :: mid) ++ j :: back := by simp
  obtain ⟨t, ht', hnext, hprev⟩ := ht.link hl
  have hnodup := ht.nodup
  rw [hl] at hnodup
  have hj : j ∉ before ++ i :: mid := fun hj =>
    (List.nodup_append.mp hnodup).2.2 j hj j mem_cons_self rfl
  have hfront : before.getLast? ≠ some j := fun hlast =>
    hj (mem_append_left _ (mem_of_getLast? hlast))
  refine ⟨_, by rw [ht']; rfl, ?_, ?_⟩
  · simp only [if_neg hfront, hnext]
  · cases mid with
    | nil => simp
    | cons k mid =>
      have hk : k ≠ j := by
        rintro rfl
        exact hj (by simp)
      simp only [cons_append, head?_cons, Option.some.injEq, hk, if_false, hprev]
      rw [getLast?_append_of_ne_nil _ (by simp), getLast?_append_of_ne_nil _ (by simp),
        getLast?_cons_cons]

/-- The links of a slot before one that is taken out. -/
theorem Threaded.relink_before {front mid after : List Nat} {i j : Nat}
    (ht : h.Threaded (front ++ j :: mid ++ i :: after)) :
    ∃ t, (h.slots[j]?.map fun t =>
        { t with next := if (front ++ j :: mid).getLast? = some j then after.head? else t.next,
                 prev := if after.head? = some j then (front ++ j :: mid).getLast? else t.prev })
          = some t ∧ t.next = (mid ++ after).head? ∧ t.prev = front.getLast? := by
  have hl : front ++ j :: mid ++ i :: after = front ++ j :: (mid ++ i :: after) := by simp
  obtain ⟨t, ht', hnext, hprev⟩ := ht.link hl
  have hnodup := ht.nodup
  rw [hl] at hnodup
  have hj : j ∉ mid ++ i :: after :=
    (List.nodup_cons.mp (List.nodup_append.mp hnodup).2.1).1
  have hback : after.head? ≠ some j := fun hhead =>
    hj (mem_append_right _ (mem_cons_of_mem _ (mem_of_head? hhead)))
  refine ⟨_, by rw [ht']; rfl, ?_, ?_⟩
  · rcases eq_nil_or_concat' mid with rfl | ⟨mid, k, rfl⟩
    · simp
    · have hk : k ≠ j := by
        rintro rfl
        exact hj (by simp)
      have hlast : (front ++ j :: (mid ++ [k])).getLast? = some k := by
        rw [← cons_append, ← append_assoc, getLast?_concat]
      simp only [hlast, Option.some.injEq, hk, if_false, hnext]
      cases mid <;> rfl
  · simp only [if_neg hback, hprev]

/-- A freed slot drops out of the list. Of the links, those of its two neighbours change. -/
theorem Threaded.unlink (ht : h.Threaded (before ++ i :: after)) :
    (h.unlink i).Threaded (before ++ after) := by
  obtain ⟨s, hs, hnext, hprev, hnexti, hprevi⟩ := ht.exists_slot
  obtain ⟨hib, hia⟩ := ht.notMem
  have hcell := cell?_unlink_slot hs hprevi hnexti
  refine ⟨(List.nodup_cons.mp (List.nodup_middle.mp ht.nodup)).2, ?_, ?_, ?_, ?_, ?_, ?_, ?_, ?_⟩
  · intro j
    have hj : j ∈ before ++ i :: after ↔ (h.cell? j).isSome := ht.mem_iff
    rw [hcell]
    split
    · next hij => simp [← hij, hib, hia]
    · next hij =>
      rw [← hj]
      simp [Ne.symm hij]
  · intro front j back hl
    have hij : i ≠ j := by
      rintro rfl
      have hmem : i ∈ before ++ after := by simp [hl]
      exact (List.mem_append.mp hmem).elim hib hia
    rw [getElem?_unlink hs hprevi hnexti, if_neg hij, hprev, hnext]
    rcases List.append_eq_append_iff.mp hl with ⟨mid, rfl, rfl⟩ | ⟨mid, rfl, hmid⟩
    · exact ht.relink_behind
    · cases mid with
      | nil =>
        rw [nil_append] at hmid
        subst hmid
        rw [append_nil] at ht ⊢
        rw [← nil_append (j :: back)] at ht ⊢
        simpa using ht.relink_behind
      | cons k mid =>
        rw [cons_append, List.cons.injEq] at hmid
        obtain ⟨rfl, rfl⟩ := hmid
        exact ht.relink_before
  · rw [head_unlink hs, hprev, hnext, ht.head_eq]
    cases before <;> simp
  · rw [tail_unlink hs, hprev, hnext, ht.tail_eq]
    cases after with
    | nil => simp
    | cons k after =>
      rw [if_neg (by simp), getLast?_append_of_ne_nil _ (by simp), getLast?_cons_cons,
        getLast?_append_of_ne_nil _ (by simp)]
  · rw [live_unlink hs, ht.live_eq]
    simp
  · intro j c hc
    rw [hcell] at hc
    split at hc
    · cases hc
    · exact ht.gen_ne_zero hc
  · rw [free_unlink hs]
    refine List.nodup_cons.mpr ⟨fun hfree => ?_, ht.free_nodup⟩
    have hmem : (h.cell? i).isSome := ht.mem_iff.mp (by simp)
    rw [(ht.mem_free.mp hfree).2] at hmem
    cases hmem
  · intro j
    rw [free_unlink hs, size_unlink hs, hcell, mem_cons, ht.mem_free]
    by_cases hij : i = j
    · subst hij
      simp [(Array.getElem?_eq_some_iff.mp hs).1]
    · simp [hij, Ne.symm hij]

/-- Freeing a slot takes one cell away. -/
theorem Threaded.cell?_unlink (ht : h.Threaded l) (hi : i ∈ l) (j : Nat) :
    (h.unlink i).cell? j = if i = j then none else h.cell? j := by
  obtain ⟨before, after, rfl⟩ := append_of_mem hi
  obtain ⟨s, hs, -, -, hnexti, hprevi⟩ := ht.exists_slot
  exact cell?_unlink_slot hs hprevi hnexti j

end Heap

end TinyScript
