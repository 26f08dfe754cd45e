import TinyScript.Proofs.Collect.Exact

/-!
# Histories of a heap

A history is any sequence of allocations, changes of objects and root flags, markings, sweeps and releases. After every
history the heap is as its representation promises (`Heap.Represents`): the links thread the slots in use in both
directions, oldest first, and the other slots are free. The age of a slot is the number of allocations since it was
handed out, read off the history; the invariant is that the threaded list has falling ages (`Machine.History.Aligned`).
-/

namespace TinyScript

open List

variable {m : Machine} {t : History}

/-! ## Operations -/

/-- What can happen to a heap. -/
inductive HeapOp where
  | alloc (o : Object) (isRoot : Bool)
  /-- Change the object that a reference names. -/
  | write (r : Ref) (o : Object)
  | setRoot (r : Ref) (isRoot : Bool)
  /-- Let other frames and pins hold references. -/
  | surround (frames : Frames) (pins : Array Ref)
  | markAll
  | sweep
  | release

namespace HeapOp

/-- What an operation makes of a machine. -/
def apply (m : Machine) : HeapOp → Machine
  | alloc o isRoot => { m with heap := (m.heap.alloc o isRoot).1 }
  | write r o => { m with heap := m.heap.set r o }
  | setRoot r isRoot => { m with heap := (m.heap.setRoot? r isRoot).getD m.heap }
  | surround frames pins => { m with frames := frames, pins := pins }
  | markAll => m.mark.1
  | sweep => m.sweep.1
  | release => m.releaseAll.1

/-- The slot that an operation hands out, if it is an allocation. -/
def slot? (m : Machine) : HeapOp → Option Nat
  | alloc o isRoot => some (m.heap.alloc o isRoot).2.index
  | _ => none

end HeapOp

/-- A machine in the course of a history, with the slots handed out so far, the first one in front. -/
structure Machine.History where
  machine : Machine
  handed : List Nat

namespace Machine.History

/-- The history in which nothing has happened, on a machine whose heap has no slot. -/
def start (m : Machine) : History := ⟨{ m with heap := .empty }, []⟩

/-- A history continued by an operation. -/
def step (t : History) (op : HeapOp) : History :=
  ⟨op.apply t.machine, t.handed ++ (op.slot? t.machine).toList⟩

/-- A history continued by operations. -/
def run (t : History) (ops : List HeapOp) : History := ops.foldl step t

/-- The number of allocations since a slot was last handed out. -/
def age (t : History) (i : Nat) : Nat := t.handed.reverse.idxOf i

end Machine.History

namespace Heap

/-! ## The representation -/

/-- Whether a slot is in use: it holds an object. -/
def InUse (h : Heap) (i : Nat) : Prop := ∃ s o, h.slots[i]? = some s ∧ s.object = some o

/-- Following links from a slot, or from none, passes the slots of a list and then ends. -/
inductive Follows (link : Nat → Option Nat) : Option Nat → List Nat → Prop
  | nil : Follows link none []
  | cons {i : Nat} {l : List Nat} : Follows link (link i) l → Follows link (some i) (i :: l)

/-- The link of a slot to the one allocated next. -/
def next? (h : Heap) (i : Nat) : Option Nat := h.slots[i]?.bind Slot.next

/-- The link of a slot to the one allocated before. -/
def prev? (h : Heap) (i : Nat) : Option Nat := h.slots[i]?.bind Slot.prev

/-- What a heap promises, with the slots in use in the order of allocation and the age of each. -/
structure Represents (h : Heap) (age : Nat → Nat) (l : List Nat) : Prop where
  forwards : Follows h.next? h.head l
  backwards : Follows h.prev? h.tail l.reverse
  nodup : l.Nodup
  mem_iff : ∀ {i}, i ∈ l ↔ h.InUse i
  oldest_first : l.Pairwise fun i j => age j < age i
  free_nodup : h.free.Nodup
  mem_free : ∀ {i}, i ∈ h.free ↔ i < h.slots.size ∧ ¬ h.InUse i
  live_eq : h.live = {i | h.InUse i}.ncard
  gen_ne_zero : ∀ {i s}, h.slots[i]? = some s → h.InUse i → s.gen ≠ 0

theorem inUse_iff {h : Heap} {i : Nat} : h.InUse i ↔ (h.cell? i).isSome := by
  constructor
  · rintro ⟨s, o, hs, ho⟩
    simp [cell?, hs, Slot.cell?, ho]
  · intro hi
    obtain ⟨c, hc⟩ := Option.isSome_iff_exists.mp hi
    obtain ⟨s, hs, hsc⟩ := Option.bind_eq_some_iff.mp hc
    obtain ⟨o, ho, -⟩ := Option.map_eq_some_iff.mp hsc
    exact ⟨s, o, hs, ho⟩

section Threaded

variable {h : Heap} {l : List Nat} (ht : h.Threaded l)
include ht

theorem Threaded.follows_next (before after : List Nat) (hl : l = before ++ after) :
    Follows h.next? after.head? after := by
  induction after generalizing before with
  | nil => exact .nil
  | cons i after ih =>
    obtain ⟨s, hs, hnext, -⟩ := ht.link hl
    refine .cons ?_
    rw [next?, hs, Option.bind_some, hnext]
    exact ih (before ++ [i]) (by simpa using hl)

theorem Threaded.follows_prev (before after : List Nat) (hl : l = before ++ after) :
    Follows h.prev? before.getLast? before.reverse := by
  induction before using List.reverseRecOn generalizing after with
  | nil => exact .nil
  | append_singleton before i ih =>
    rw [append_assoc, singleton_append] at hl
    obtain ⟨s, hs, -, hprev⟩ := ht.link hl
    rw [getLast?_concat, reverse_concat]
    refine .cons ?_
    rw [prev?, hs, Option.bind_some, hprev]
    exact ih (i :: after) hl

/-- Threading says all of the representation but the order of ages. -/
theorem Threaded.represents {age : Nat → Nat} (hage : l.Pairwise fun i j => age j < age i) :
    h.Represents age l where
  forwards := by
    rw [ht.head_eq]
    exact ht.follows_next [] l rfl
  backwards := by
    rw [ht.tail_eq]
    exact ht.follows_prev l [] (append_nil l).symm
  nodup := ht.nodup
  mem_iff := by
    intro i
    rw [inUse_iff, ht.mem_iff]
  oldest_first := hage
  free_nodup := ht.free_nodup
  mem_free := by
    intro i
    rw [ht.mem_free, inUse_iff, Option.not_isSome_iff_eq_none]
  live_eq := by
    have hset : {i | h.InUse i} = (l.toFinset : Set Nat) := by
      ext i
      simp [inUse_iff, ht.mem_iff]
    rw [hset, Set.ncard_coe_finset, toFinset_card_of_nodup ht.nodup, ht.live_eq]
  gen_ne_zero := by
    intro i s hs hi
    obtain ⟨s', o, hs', ho⟩ := hi
    rw [hs, Option.some.injEq] at hs'
    subst hs'
    exact ht.gen_ne_zero (i := i) (c := ⟨o, s.gen, s.flag⟩) (by simp [cell?, hs, Slot.cell?, ho])

theorem Threaded.setRoot? (r : Ref) (isRoot : Bool) :
    ((h.setRoot? r isRoot).getD h).Threaded l := by
  have hflag (f : Flag) : (h.modify r.index fun s => { s with flag := f }).Threaded l :=
    ht.modify (fun s => rfl) (fun s => rfl) (fun s => rfl) fun s _ => Iff.rfl
  rw [Heap.setRoot?]
  cases h.slot? r with
  | none => exact ht
  | some s =>
    cases isRoot with
    | true => exact hflag .root
    | false =>
      by_cases hroot : s.flag = .root
      · simpa [hroot] using hflag .marked
      · simpa [hroot] using ht

/-- Walking through the heap passes the threaded slots. -/
theorem Threaded.map_index_objects : (h.objects.map fun x => x.1.index) = l := by
  have hrefs := ht.map_index_refs
  rwa [refs, map_map] at hrefs

end Threaded

end Heap

namespace Machine

theorem mark_threaded {l : List Nat} (ht : m.heap.Threaded l) : m.mark.1.heap.Threaded l :=
  ht.order_eq ▸ (marks_marking ht.wellFormed).threaded

theorem sweep_threaded {l : List Nat} (ht : m.heap.Threaded l) :
    ∃ l', m.sweep.1.heap.Threaded l' ∧ l'.Sublist l := by
  have hall : m.heap.Threaded ([] ++ l) := ht
  obtain ⟨h', l', heq, ht', hsub, -⟩ := sweepSlots_spec l hall 0
  refine ⟨l', ?_, hsub⟩
  rw [sweep, walk_eq oneByOne_sweepSlot ht, heq]
  exact ht'

/-- Freeing the oldest slots one after the other leaves the others. -/
theorem foldl_free_threaded (front : List Nat) (mn : Machine × Nat) {l : List Nat}
    (ht : mn.1.heap.Threaded (front ++ l)) :
    (front.foldl (tally fun m i => (m.free i, true)) mn).1.heap.Threaded l := by
  induction front generalizing mn with
  | nil => exact ht
  | cons i front ih =>
    have ht : mn.1.heap.Threaded ([] ++ i :: (front ++ l)) := ht
    exact ih _ ht.unlink

theorem releaseAll_threaded {l : List Nat} (ht : m.heap.Threaded l) :
    m.releaseAll.1.heap.Threaded [] := by
  rw [releaseAll, walk_eq oneByOne_free ht]
  exact foldl_free_threaded l (m, 0) (by rwa [append_nil])

namespace History

/-! ## Histories -/

/-- The heap threads a list of slots with falling ages. -/
def Aligned (t : History) : Prop :=
  ∃ l, t.machine.heap.Threaded l ∧ l.Pairwise fun i j => t.age j < t.age i

theorem aligned_start (m : Machine) : (start m).Aligned :=
  ⟨[], Heap.threaded_empty, List.Pairwise.nil⟩

/-- The slot handed out last is the youngest, and all others grow older by one. -/
theorem age_concat (m : Machine) (handed : List Nat) (k i : Nat) :
    (⟨m, handed ++ [k]⟩ : History).age i = if k = i then 0 else (⟨m, handed⟩ : History).age i + 1 := by
  rw [age, reverse_concat]
  by_cases hki : k = i
  · rw [if_pos hki, hki, idxOf_cons_self]
  · rw [if_neg hki, idxOf_cons_ne _ hki]
    rfl

theorem Aligned.alloc (h : t.Aligned) (o : Object) (isRoot : Bool) :
    (t.step (.alloc o isRoot)).Aligned := by
  obtain ⟨l, ht, hage⟩ := h
  refine ⟨l ++ [(t.machine.heap.alloc o isRoot).2.index], ht.alloc o isRoot, ?_⟩
  have hfresh : ∀ i ∈ l, (t.machine.heap.alloc o isRoot).2.index ≠ i := by
    rintro i hi rfl
    have hcell := ht.mem_iff.mp hi
    rw [ht.cell?_alloc_index o isRoot] at hcell
    cases hcell
  have hold {i : Nat} (hi : i ∈ l) : (t.step (.alloc o isRoot)).age i = t.age i + 1 := by
    rw [step, HeapOp.slot?, Option.toList_some, age_concat, if_neg (hfresh i hi)]
    rfl
  have hnew : (t.step (.alloc o isRoot)).age (t.machine.heap.alloc o isRoot).2.index = 0 := by
    rw [step, HeapOp.slot?, Option.toList_some, age_concat, if_pos rfl]
  rw [pairwise_append]
  refine ⟨hage.imp_of_mem fun hi hj hij => ?_, pairwise_singleton _ _, fun i hi k hk => ?_⟩
  · rw [hold hi, hold hj]
    omega
  · rw [List.mem_singleton.mp hk, hold hi, hnew]
    omega

/-- An operation that hands out no slot and keeps a sublist of the slots in use keeps their order. -/
theorem Aligned.of_sublist {op : HeapOp} {l l' : List Nat}
    (hage : l.Pairwise fun i j => t.age j < t.age i) (hslot : op.slot? t.machine = none)
    (ht' : (op.apply t.machine).heap.Threaded l') (hsub : l'.Sublist l) : (t.step op).Aligned := by
  refine ⟨l', ht', ?_⟩
  have hsame (i : Nat) : (t.step op).age i = t.age i := by
    rw [step, hslot, Option.toList_none, append_nil]
    rfl
  simp only [hsame]
  exact hage.sublist hsub

theorem Aligned.step (h : t.Aligned) (op : HeapOp) : (t.step op).Aligned := by
  cases op with
  | alloc o isRoot => exact h.alloc o isRoot
  | write r o =>
    obtain ⟨l, ht, hage⟩ := h
    exact .of_sublist hage rfl (ht.set r o) (List.Sublist.refl l)
  | setRoot r isRoot =>
    obtain ⟨l, ht, hage⟩ := h
    exact .of_sublist hage rfl (ht.setRoot? r isRoot) (List.Sublist.refl l)
  | surround frames pins =>
    obtain ⟨l, ht, hage⟩ := h
    exact .of_sublist hage rfl ht (List.Sublist.refl l)
  | markAll =>
    obtain ⟨l, ht, hage⟩ := h
    exact .of_sublist hage rfl (mark_threaded ht) (List.Sublist.refl l)
  | sweep =>
    obtain ⟨l, ht, hage⟩ := h
    obtain ⟨l', ht', hsub⟩ := sweep_threaded ht
    exact .of_sublist hage rfl ht' hsub
  | release =>
    obtain ⟨l, ht, hage⟩ := h
    exact .of_sublist hage rfl (releaseAll_threaded ht) (nil_sublist l)

theorem Aligned.run (h : t.Aligned) (ops : List HeapOp) : (t.run ops).Aligned := by
  induction ops generalizing t with
  | nil => exact h
  | cons op ops ih => exact ih (h.step op)

/-- **The representation holds after every history.** The links from the head and from the tail thread
the same slots, `l` and its reverse: those in use, each once, in the order in which they were last handed
out; the free list holds the other slots, each once, and the counter counts the slots in use. So walking
through the heap visits the object of every slot in use once, the oldest first, and the next allocation
takes a slot that is not in use. -/
theorem run_represents (m : Machine) (ops : List HeapOp) :
    let t := (start m).run ops
    let h := t.machine.heap
    ∃ l, h.Represents t.age l ∧
      (h.objects.map fun x => x.1.index) = l ∧
      (∀ r o f, (r, o, f) ∈ h.objects ↔ h.get? r = some o ∧ h.flag? r = some f) ∧
      ∀ o isRoot, ¬ h.InUse (h.alloc o isRoot).2.index := by
  intro t h
  obtain ⟨l, ht, hage⟩ := (aligned_start m).run ops
  refine ⟨l, ht.represents hage, ht.map_index_objects, fun r o f => ?_, fun o isRoot => ?_⟩
  · rw [ht.mem_objects, Heap.get?_eq, Heap.flag?_eq, Option.map_eq_some_iff, Option.map_eq_some_iff]
    constructor
    · intro hr
      exact ⟨⟨_, hr, rfl⟩, ⟨_, hr, rfl⟩⟩
    · rintro ⟨⟨c, hc, rfl⟩, c', hc', rfl⟩
      obtain rfl : c = c' := Option.some.inj (hc.symm.trans hc')
      rw [hc, ← (Heap.named?_eq_some_iff.mp hc).2.2]
  · rw [Heap.inUse_iff, ht.cell?_alloc_index o isRoot]
    simp

end History

end Machine

end TinyScript
