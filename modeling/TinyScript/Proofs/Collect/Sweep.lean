import TinyScript.Proofs.Collect.Reachability

/-!
# Sweeping

Sweeping goes once through the slots in use. It follows the links between them while slots are taken out, but reads
the link of a slot before that slot is changed, so it comes to the slots of the list that the heap threaded before
(`Machine.walk_eq`). Per cell, it drops unmarked cells and turns marked ones into unmarked ones (`Cell.swept?`). A freed
function leaves the frame of its captured names.
-/

namespace TinyScript

namespace Cell

/-- A cell after a sweep, if it survives. -/
def swept? (c : Cell) : Option Cell :=
  match c.flag with
  | .unmarked => none
  | .marked => some { c with flag := .unmarked }
  | .root => some c

/-- The frame that is left when a cell is swept away. -/
def dropped? (c : Cell) : Option FrameId := if c.flag = .unmarked then c.object.closure? else none

/-- A cell after a collection that it survived. -/
def settled (c : Cell) : Cell := { c with flag := if c.flag = .root then .root else .unmarked }

theorem swept?_touched (c : Cell) : c.touched.swept? = some c.settled := by
  obtain ⟨o, gen, flag⟩ := c
  cases flag <;> rfl

end Cell

namespace Machine

/-! ## Walks -/

/-- Treat a slot and count it if it was freed. -/
def tally (treat : Machine → Nat → Machine × Bool) (mn : Machine × Nat) (i : Nat) : Machine × Nat :=
  let treated := treat mn.1 i
  (treated.1, if treated.2 then mn.2 + 1 else mn.2)

/-- A treatment that takes out no slot but the one treated. -/
def OneByOne (treat : Machine → Nat → Machine × Bool) : Prop :=
  ∀ {m : Machine} {before after : List Nat} {i : Nat}, m.heap.Threaded (before ++ i :: after) →
    ∃ before', (treat m i).1.heap.Threaded (before' ++ after)

theorem walkFrom_eq {treat : Machine → Nat → Machine × Bool} (htreat : OneByOne treat) {is before : List Nat}
    (mn : Machine × Nat) (ht : mn.1.heap.Threaded (before ++ is)) {fuel : Nat} (hfuel : is.length ≤ fuel) :
    walkFrom treat fuel is.head? mn = is.foldl (tally treat) mn := by
  induction is generalizing before mn fuel with
  | nil => cases fuel <;> rfl
  | cons i is ih =>
    obtain ⟨fuel, rfl⟩ : ∃ n, fuel = n + 1 := ⟨fuel - 1, by simp at hfuel; omega⟩
    obtain ⟨s, hs, hnext, -⟩ := ht.link rfl
    obtain ⟨before', ht'⟩ := htreat ht
    rw [List.head?_cons, walkFrom, hs, Option.bind_some, hnext]
    exact ih (tally treat mn i) ht' (by simpa using hfuel)

/-- A walk comes to the slots in use as they were at its beginning, whatever it takes out. -/
theorem walk_eq {treat : Machine → Nat → Machine × Bool} (htreat : OneByOne treat) {m : Machine} {l : List Nat}
    (ht : m.heap.Threaded l) : m.walk treat = l.foldl (tally treat) (m, 0) := by
  have hall : m.heap.Threaded ([] ++ l) := ht
  rw [walk, ht.head_eq]
  exact walkFrom_eq htreat (m, 0) hall ht.length_le

theorem oneByOne_free : OneByOne fun m i => (m.free i, true) := fun ht => ⟨_, ht.unlink⟩

/-! ## Sweeping -/

theorem sweepSlot_spec {m : Machine} {before after : List Nat} {i : Nat} (ht : m.heap.Threaded (before ++ i :: after))
    {c : Cell} (hc : m.heap.cell? i = some c) :
    ∃ h' kept, m.sweepSlot i
        = ({ m with heap := h', frames := c.dropped?.toList.foldl Frames.leave m.frames },
          decide (c.flag = .unmarked)) ∧
      h'.Threaded (kept ++ after) ∧ kept.Sublist (before ++ [i]) ∧
      ∀ j, h'.cell? j = if i = j then c.swept? else m.heap.cell? j := by
  obtain ⟨s, hs, hsc⟩ := Option.bind_eq_some_iff.mp hc
  obtain ⟨o, ho, rfl⟩ := Option.map_eq_some_iff.mp hsc
  have hlist : before ++ i :: after = (before ++ [i]) ++ after := by rw [List.append_assoc, List.singleton_append]
  cases hflag : s.flag with
  | unmarked =>
    refine ⟨m.heap.unlink i, before, ?_, ht.unlink, by simp, fun j => ?_⟩
    · simp only [sweepSlot, hs, hflag, free, Option.bind_some, ho, Cell.dropped?, decide_true, if_true]
      cases o.closure? <;> rfl
    · rw [ht.cell?_unlink (by simp)]
      simp [Cell.swept?]
  | marked =>
    refine ⟨m.heap.modify i fun s => { s with flag := .unmarked }, before ++ [i], ?_, hlist ▸ ?_, List.Sublist.refl _,
      fun j => ?_⟩
    · simp [sweepSlot, hs, hflag, Cell.dropped?]
    · exact ht.modify (fun s => rfl) (fun s => rfl) (fun s => rfl) fun s _ => Iff.rfl
    · rw [Heap.cell?_modify]
      split
      · next hij =>
        subst hij
        simp [hs, Slot.cell?, ho, Cell.swept?]
      · rfl
  | root =>
    refine ⟨m.heap, before ++ [i], ?_, hlist ▸ ht, List.Sublist.refl _, fun j => ?_⟩
    · simp [sweepSlot, hs, hflag, Cell.dropped?]
    · split
      · next hij =>
        subst hij
        simp [hc, hflag, Cell.swept?]
      · rfl

theorem oneByOne_sweepSlot : OneByOne sweepSlot := by
  intro m before after i ht
  have hmem : i ∈ before ++ i :: after := by simp
  obtain ⟨c, hc⟩ := Option.isSome_iff_exists.mp (ht.mem_iff.mp hmem)
  obtain ⟨h', kept, heq, ht', -⟩ := sweepSlot_spec ht hc
  exact ⟨kept, by rwa [heq]⟩

/-- Sweeping slot after slot sweeps every cell, and leaves the frames of the functions that go. -/
theorem sweepSlots_spec (is : List Nat) {m : Machine} {before : List Nat} (ht : m.heap.Threaded (before ++ is))
    (n : Nat) :
    ∃ h' l', is.foldl (tally sweepSlot) (m, n)
        = ({ m with
              heap := h'
              frames := (is.filterMap fun i => (m.heap.cell? i).bind Cell.dropped?).foldl Frames.leave m.frames },
          n + is.countP fun i => (m.heap.cell? i).any fun c => c.flag = .unmarked) ∧
      h'.Threaded l' ∧ l'.Sublist (before ++ is) ∧
      ∀ j, h'.cell? j = if j ∈ is then (m.heap.cell? j).bind Cell.swept? else m.heap.cell? j := by
  induction is generalizing m before n with
  | nil => exact ⟨m.heap, before ++ [], by simp, ht, List.Sublist.refl _, fun j => by simp⟩
  | cons i is ih =>
    have hi := ht.notMem.2
    have hmem : i ∈ before ++ i :: is := by simp
    obtain ⟨c, hc⟩ := Option.isSome_iff_exists.mp (ht.mem_iff.mp hmem)
    obtain ⟨h₁, kept, heq₁, ht₁, hkept, hcell₁⟩ := sweepSlot_spec ht hc
    have hother {j : Nat} (hj : j ∈ is) : h₁.cell? j = m.heap.cell? j := by
      rw [hcell₁, if_neg fun hij : i = j => hi (hij ▸ hj)]
    obtain ⟨h₂, l₂, heq₂, ht₂, hl₂, hcell₂⟩ := ih (m := { m with
        heap := h₁, frames := c.dropped?.toList.foldl Frames.leave m.frames }) ht₁
      (if decide (c.flag = .unmarked) = true then n + 1 else n)
    refine ⟨h₂, l₂, ?_, ht₂, hl₂.trans ?_, fun j => ?_⟩
    · have hcount : (is.countP fun j => (h₁.cell? j).any fun c => c.flag = .unmarked)
          = is.countP fun j => (m.heap.cell? j).any fun c => c.flag = .unmarked :=
        List.countP_congr fun j hj => by rw [hother hj]
      have hdropped : (is.filterMap fun j => (h₁.cell? j).bind Cell.dropped?)
          = is.filterMap fun j => (m.heap.cell? j).bind Cell.dropped? :=
        List.filterMap_congr fun j hj => by rw [hother hj]
      rw [List.foldl_cons, tally, heq₁, heq₂]
      simp only [hcount, hdropped, List.countP_cons, List.filterMap_cons, hc, Option.bind_some,
        Option.any_some]
      congr 1
      · cases c.dropped? <;> rfl
      · split <;> omega
    · simpa using hkept.append_right is
    · rw [hcell₂]
      by_cases hij : i = j
      · subst hij
        simp [hi, hcell₁, hc]
      · simp [hcell₁, hij, Ne.symm hij]

end Machine

end TinyScript
