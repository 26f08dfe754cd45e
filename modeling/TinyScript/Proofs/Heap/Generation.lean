import TinyScript.Proofs.Heap.Every
import TinyScript.Proofs.Heap.History

/-!
# Stale references

A slot is handed out again and again, each time with the next generation. Generations are a ring of `2 ^ 32 - 1`
numbers, so a reference is told apart from all later ones to its slot until the slot has been handed out as many times
again (`Heap.iterate_nextGen_eq_iff`). What one operation does to a slot is said once (`Machine.History.step_slot`);
the rest is by induction over a history.
-/

namespace TinyScript

variable {h : Heap} {i : Nat} {o : Object} {l : List Nat}

namespace Heap

/-! ## The ring of generations -/

theorem toNat_nextGen (g : UInt32) : (nextGen g).toNat = g.toNat % (2 ^ 32 - 1) + 1 := by
  have hlt := g.toNat_lt
  rw [nextGen]
  split
  · next hwrap =>
    have hsum : (g + 1).toNat = 0 := by rw [hwrap]; rfl
    rw [UInt32.toNat_add] at hsum
    have hlast : g.toNat = 2 ^ 32 - 1 := by
      simp at hsum
      omega
    rw [hlast]
    rfl
  · next hwrap =>
    have hne : (g + 1).toNat ≠ 0 := fun h => hwrap (UInt32.toNat_inj.1 h)
    rw [UInt32.toNat_add] at hne ⊢
    simp at hne ⊢
    omega

/-- A generation comes back after a whole number of rounds. -/
theorem iterate_nextGen_eq_iff {g : UInt32} (hg : g ≠ 0) (k : Nat) : nextGen^[k] g = g ↔ 2 ^ 32 - 1 ∣ k := by
  have hpos : g.toNat ≠ 0 := fun h => hg (UInt32.toNat_inj.1 h)
  have hlt := g.toNat_lt
  have hk : (nextGen^[k] g).toNat = (g.toNat - 1 + k) % (2 ^ 32 - 1) + 1 := by
    induction k with
    | zero => simp; omega
    | succ k ih =>
      rw [Function.iterate_succ_apply', toNat_nextGen, ih]
      omega
  rw [← UInt32.toNat_inj, hk]
  omega

/-! ## Slots -/

theorem objectAt?_eq_some_iff :
    h.objectAt? i = some o ↔ ∃ s, h.slots[i]? = some s ∧ s.object = some o := Option.bind_eq_some_iff

theorem inUse_iff_objectAt? : h.InUse i ↔ ∃ o, h.objectAt? i = some o := by
  constructor
  · rintro ⟨s, o, hs⟩
    exact ⟨o, objectAt?_eq_some_iff.2 ⟨s, hs⟩⟩
  · rintro ⟨o, ho⟩
    obtain ⟨s, hs⟩ := objectAt?_eq_some_iff.1 ho
    exact ⟨s, o, hs⟩

theorem get?_eq_some_iff_at {r : Ref} :
    h.get? r = some o ↔ r.gen ≠ 0 ∧ h.genAt r.index = r.gen ∧ h.objectAt? r.index = some o := by
  rw [get?, slot?, genAt, objectAt?]
  split
  · next hzero => simp [hzero]
  · next hzero =>
    cases h.slots[r.index]? with
    | none => simp
    | some s => by_cases hgen : s.gen = r.gen <;> cases hs : s.object <;> simp [hs, hzero, hgen]

/-- The object of a slot is named by the reference with the generation of the slot. -/
theorem Threaded.get?_genAt (ht : h.Threaded l) (i : Nat) :
    h.get? ⟨i, h.genAt i⟩ = h.objectAt? i := by
  refine Option.ext fun o => get?_eq_some_iff_at.trans ⟨fun hr => hr.2.2, fun ho => ⟨?_, rfl, ho⟩⟩
  obtain ⟨s, hs, hso⟩ := objectAt?_eq_some_iff.1 ho
  have hgen : s.gen ≠ 0 := ht.gen_ne_zero (i := i) (c := ⟨o, s.gen, s.flag⟩) (by simp [cell?, hs, Slot.cell?, hso])
  simpa [genAt, hs] using hgen

theorem genAt_set (h : Heap) (r : Ref) (o : Object) (i : Nat) : (h.set r o).genAt i = h.genAt i := by
  rw [set]
  split
  · rw [genAt, genAt, getElem?_modify]
    split
    · cases h.slots[i]? <;> rfl
    · rfl
  · rfl

theorem genAt_link (hi : i < h.slots.size) (o : Object) (isRoot : Bool) (j : Nat) :
    (h.link i o isRoot).1.genAt j = if i = j then nextGen (h.genAt j) else h.genAt j := by
  have hslot : h.slots[i]? = some h.slots[i] := Array.getElem?_eq_getElem hi
  by_cases hij : i = j
  · subst hij
    cases htail : h.tail with
    | none => simp [link, htail, genAt, getElem?_modify, hslot]
    | some t => by_cases hti : t = i <;> simp [link, htail, genAt, getElem?_modify, hslot, hti]
  · cases htail : h.tail with
    | none => simp [link, htail, genAt, getElem?_modify, hij]
    | some t => by_cases htj : t = j <;> simp [link, htail, genAt, getElem?_modify, hij, htj, Function.comp_def]

theorem Threaded.genAt_alloc (ht : h.Threaded l) (o : Object) (isRoot : Bool) (i : Nat) :
    (h.alloc o isRoot).1.genAt i
      = if (h.alloc o isRoot).2.index = i then nextGen (h.genAt i) else h.genAt i := by
  rw [Heap.alloc]
  split
  · next k rest hfree =>
    have hk := (ht.mem_free.1 (hfree ▸ List.mem_cons_self)).1
    exact genAt_link (h := { h with free := rest }) hk o isRoot i
  · have hpush : ({ h with slots := h.slots.push {} } : Heap).genAt i = h.genAt i := by
      simp only [genAt, Array.getElem?_push]
      split
      · next hi => simp [hi]
      · rfl
    rw [← hpush]
    exact genAt_link (h := { h with slots := h.slots.push {} }) (by simp) o isRoot i

theorem Threaded.objectAt?_alloc (ht : h.Threaded l) (o : Object) (isRoot : Bool) (i : Nat) :
    (h.alloc o isRoot).1.objectAt? i
      = if (h.alloc o isRoot).2.index = i then some o else h.objectAt? i := by
  have hcell (h : Heap) : h.objectAt? i = (h.cell? i).map Cell.object := by
    rw [objectAt?, cell?]
    cases h.slots[i]? with
    | none => rfl
    | some s => cases hs : s.object <;> simp [Slot.cell?, hs]
  rw [hcell, hcell, ht.cell?_alloc]
  split <;> rfl

end Heap

/-! ## What one operation does to a slot -/

/-- The object that a reference names behind an operation, if it is still there. -/
def HeapOp.rewritten (r : Ref) (o : Object) : HeapOp → Object
  | write r' o' => if r' = r then o' else o
  | _ => o

namespace Machine.History

variable {t : History}

/-- A slot is handed out, or keeps its generation and, if it still has one, its object. -/
theorem step_slot (h : t.Aligned) (op : HeapOp) (i : Nat) :
    (op.slot? t.machine = some i ∧ ¬ t.machine.heap.InUse i ∧
      (t.step op).machine.heap.genAt i = Heap.nextGen (t.machine.heap.genAt i)) ∨
    (op.slot? t.machine ≠ some i ∧ (t.step op).machine.heap.genAt i = t.machine.heap.genAt i ∧
      ((t.step op).machine.heap.objectAt? i
          = (t.machine.heap.objectAt? i).map (op.rewritten ⟨i, t.machine.heap.genAt i⟩) ∨
        (t.step op).machine.heap.objectAt? i = none)) := by
  obtain ⟨l, ht, -⟩ := h
  have hfades {h' : Heap} (hf : t.machine.heap.Fades h') : h'.genAt i = t.machine.heap.genAt i ∧
      (h'.objectAt? i = (t.machine.heap.objectAt? i).map (fun o => o) ∨ h'.objectAt? i = none) := by
    rw [Option.map_id']
    exact hf i
  have hnone : (none : Option Nat) ≠ some i := (Option.some_ne_none i).symm
  cases op with
  | alloc o isRoot =>
    by_cases hi : (t.machine.heap.alloc o isRoot).2.index = i
    · refine .inl ⟨congrArg some hi, fun huse => ?_, (ht.genAt_alloc o isRoot i).trans (if_pos hi)⟩
      rw [Heap.inUse_iff, ← hi, ht.cell?_alloc_index] at huse
      cases huse
    · refine .inr ⟨fun hslot => hi (Option.some.inj hslot), (ht.genAt_alloc o isRoot i).trans (if_neg hi), .inl ?_⟩
      exact ((ht.objectAt?_alloc o isRoot i).trans (if_neg hi)).trans Option.map_id'.symm
  | write r o =>
    have hgen : (t.machine.heap.set r o).genAt i = t.machine.heap.genAt i := t.machine.heap.genAt_set r o i
    refine .inr ⟨hnone, hgen, .inl ?_⟩
    show (t.machine.heap.set r o).objectAt? i = _
    rw [← (ht.set r o).get?_genAt, ← ht.get?_genAt, hgen]
    simp only [HeapOp.rewritten]
    by_cases hname : r = ⟨i, t.machine.heap.genAt i⟩
    · simp only [← hname, if_true]
      cases hr : t.machine.heap.get? r with
      | none =>
        have hinvalid : t.machine.heap.valid r = false := by
          rw [Heap.valid_eq, ← Option.isSome_map, ← Heap.get?_eq, hr]
          rfl
        rw [Heap.set, hinvalid, if_neg Bool.false_ne_true, hr, Option.map_none]
      | some p => rw [Heap.get?_set (Heap.valid_of_get? hr), if_pos rfl, Option.map_some]
    · simp only [if_neg hname, Option.map_id']
      by_cases hr : t.machine.heap.valid r
      · rw [Heap.get?_set hr, if_neg (Ne.symm hname)]
      · rw [Heap.set, if_neg hr]
  | setRoot r isRoot =>
    refine .inr ⟨hnone, hfades ?_⟩
    show t.machine.heap.Fades ((t.machine.heap.setRoot? r isRoot).getD t.machine.heap)
    cases hroot : t.machine.heap.setRoot? r isRoot with
    | none => exact .refl _
    | some h' => exact Heap.fades_setRoot? hroot
  | surround frames pins => exact .inr ⟨hnone, hfades (.refl _)⟩
  | markAll => exact .inr ⟨hnone, hfades t.machine.fades_mark⟩
  | sweep => exact .inr ⟨hnone, hfades t.machine.fades_sweep⟩
  | release => exact .inr ⟨hnone, hfades t.machine.fades_releaseAll⟩

/-! ## Histories -/

theorem count_handed_step (op : HeapOp) (i : Nat) :
    (t.step op).handed.count i = t.handed.count i + if op.slot? t.machine = some i then 1 else 0 := by
  rw [step, List.count_append]
  cases op.slot? t.machine with
  | none => simp
  | some j => by_cases hij : j = i <;> simp [hij]

/-- The generation of a slot counts how often it was handed out, and a slot that is never handed out stays out of
use. -/
theorem run_slot (h : t.Aligned) (ops : List HeapOp) (i : Nat) : ∃ k,
    (t.run ops).handed.count i = t.handed.count i + k ∧
      (t.run ops).machine.heap.genAt i = Heap.nextGen^[k] (t.machine.heap.genAt i) ∧
      (k = 0 → ¬ t.machine.heap.InUse i → ¬ (t.run ops).machine.heap.InUse i) := by
  induction ops generalizing t with
  | nil => exact ⟨0, rfl, rfl, fun _ huse => huse⟩
  | cons op ops ih =>
    obtain ⟨k, hcount, hgen, hvacant⟩ := ih (h.step op)
    rw [count_handed_step] at hcount
    rcases step_slot h op i with ⟨hslot, -, hnext⟩ | ⟨hslot, hsame, hobject⟩
    · rw [if_pos hslot] at hcount
      refine ⟨k + 1, by rw [← Nat.add_assoc, Nat.add_right_comm]; exact hcount, ?_, fun hk => absurd hk k.succ_ne_zero⟩
      rw [Function.iterate_succ_apply, ← hnext]
      exact hgen
    · rw [if_neg hslot, Nat.add_zero] at hcount
      refine ⟨k, hcount, hsame ▸ hgen, fun hk huse => hvacant hk fun huse' => huse ?_⟩
      obtain ⟨o, ho⟩ := Heap.inUse_iff_objectAt?.1 huse'
      rcases hobject with heq | hnone
      · obtain ⟨o', ho', -⟩ := Option.map_eq_some_iff.1 (heq.symm.trans ho)
        exact Heap.inUse_iff_objectAt?.2 ⟨o', ho'⟩
      · rw [hnone] at ho
        cases ho

/-- An object that is never freed stays where it is, and is changed through its reference only. -/
theorem run_object (h : t.Aligned) (ops : List HeapOp) {r : Ref}
    (hgen : t.machine.heap.genAt r.index = r.gen) (ho : t.machine.heap.objectAt? r.index = some o)
    (huse : ∀ now, now <+: ops → (t.run now).machine.heap.InUse r.index) :
    (t.run ops).machine.heap.genAt r.index = r.gen ∧
      (t.run ops).machine.heap.objectAt? r.index = some (ops.foldl (HeapOp.rewritten r) o) := by
  induction ops generalizing t o with
  | nil => exact ⟨hgen, ho⟩
  | cons op ops ih =>
    have hnow : (t.step op).machine.heap.InUse r.index := huse [op] (List.cons_prefix_cons.2 ⟨rfl, List.nil_prefix⟩)
    rcases step_slot h op r.index with ⟨-, hvacant, -⟩ | ⟨-, hsame, hobject⟩
    · exact absurd (huse [] List.nil_prefix) hvacant
    · rw [hgen] at hsame
      obtain ⟨p, hp⟩ := Heap.inUse_iff_objectAt?.1 hnow
      rcases hobject with heq | hnone
      · rw [ho, Option.map_some, hgen] at heq
        exact ih (h.step op) hsame heq fun now hprefix => huse (op :: now) (List.cons_prefix_cons.2 ⟨rfl, hprefix⟩)
      · rw [hnone] at hp
        cases hp

/-- **Stale references are told apart.** Take the reference `r` to a new object, at any point of any history. It
is not zero, and whatever happens afterwards, no reference with generation zero is valid. As long as the slot
of `r` has been handed out again fewer than `2 ^ 32 - 1` times, `r` names this object, as it was last written
through `r`, while it has not been freed, and names nothing ever after. This bound is exact: the slot has the
generation of `r` again whenever it was handed out a multiple of `2 ^ 32 - 1` times. -/
theorem run_reference (m : Machine) (before : List HeapOp) (o : Object) (isRoot : Bool) (after : List HeapOp) :
    let t := (start m).run before
    let r := (t.machine.heap.alloc o isRoot).2
    let t₁ := t.step (.alloc o isRoot)
    let h := (t₁.run after).machine.heap
    let again := (t₁.run after).handed.count r.index - t₁.handed.count r.index
    r.isZero = false ∧ (∀ i, h.valid ⟨i, 0⟩ = false) ∧ (h.genAt r.index = r.gen ↔ 2 ^ 32 - 1 ∣ again) ∧
      (again < 2 ^ 32 - 1 →
        ((∀ now, now <+: after → (t₁.run now).machine.heap.InUse r.index) →
          h.get? r = some (after.foldl (HeapOp.rewritten r) o)) ∧
        ∀ now, now <+: after → ¬ (t₁.run now).machine.heap.InUse r.index → h.get? r = none) := by
  intro t r t₁ h again
  obtain ⟨l, ht, hage⟩ := (aligned_start m).run before
  have haligned : t₁.Aligned := Aligned.alloc ⟨l, ht, hage⟩ o isRoot
  have hzero : r.gen ≠ 0 := t.machine.heap.gen_alloc_ne_zero o isRoot
  have hnew : t₁.machine.heap.get? r = some o := ht.get?_alloc_iff.2 (.inl ⟨rfl, rfl⟩)
  obtain ⟨-, hgen, ho⟩ := Heap.get?_eq_some_iff_at.1 hnew
  obtain ⟨k, hcount, hlater, -⟩ := run_slot haligned after r.index
  have hagain : again = k := by
    show (t₁.run after).handed.count r.index - t₁.handed.count r.index = k
    rw [hcount, Nat.add_sub_cancel_left]
  have hround : h.genAt r.index = r.gen ↔ 2 ^ 32 - 1 ∣ again := by
    rw [hlater, hgen, hagain]
    exact Heap.iterate_nextGen_eq_iff hzero k
  refine ⟨decide_eq_false hzero, fun i => rfl, hround, fun hfew => ⟨fun huse => ?_, fun now hnow hfreed => ?_⟩⟩
  · exact Heap.get?_eq_some_iff_at.2 ⟨hzero, run_object haligned after hgen ho huse⟩
  · refine Option.eq_none_iff_forall_ne_some.2 fun p hp => ?_
    obtain ⟨-, hsame, hp⟩ := Heap.get?_eq_some_iff_at.1 hp
    have hk : k = 0 := hagain ▸ Nat.eq_zero_of_dvd_of_lt (hround.1 hsame) hfew
    -- the slot was not handed out at all, so also not after it was freed
    obtain ⟨rest, rfl⟩ := hnow
    obtain ⟨k₁, hcount₁, -⟩ := run_slot haligned now r.index
    obtain ⟨k₂, hcount₂, -, hvacant⟩ := run_slot (haligned.run now) rest r.index
    have happend : t₁.run (now ++ rest) = (t₁.run now).run rest := List.foldl_append
    rw [happend] at hcount
    refine hvacant (by omega) hfreed (Heap.inUse_iff_objectAt?.2 ⟨p, ?_⟩)
    rw [← happend]
    exact hp

/-- A slot that was freed and handed out again does not answer to the old reference. -/
theorem run_reference_reused :
    let t := (start {}).step (.alloc (.u64 7) false)
    let ops : List HeapOp := [.release, .alloc .nil false]
    (t.run ops).handed.count 0 - t.handed.count 0 < 2 ^ 32 - 1 ∧ ¬ (t.run [.release]).machine.heap.InUse 0 ∧
      t.machine.heap.get? ⟨0, 1⟩ = some (.u64 7) ∧ (t.run ops).machine.heap.get? ⟨0, 1⟩ = none ∧
      (t.run ops).machine.heap.get? ⟨0, 2⟩ = some .nil := by
  intro t ops
  have hfew : (t.run ops).handed.count 0 - t.handed.count 0 < 2 ^ 32 - 1 := by decide
  have hfreed : ¬ (t.run [.release]).machine.heap.InUse 0 := by
    rintro ⟨s, o, hs, ho⟩
    cases hs
    cases ho
  have hstale := ((run_reference {} [] (.u64 7) false ops).2.2.2 hfew).2 [.release] ⟨_, rfl⟩ hfreed
  exact ⟨hfew, hfreed, rfl, hstale, rfl⟩

end Machine.History

end TinyScript
