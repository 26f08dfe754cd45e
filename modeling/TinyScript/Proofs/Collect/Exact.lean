import Mathlib.Data.Set.Card
import TinyScript.Proofs.Collect.Sweep

/-!
# What a collection frees

A collection frees exactly the objects that are not reachable. `forceCollect_spec` says what it does to
every cell: one that was reached settles, every other one goes (`Machine.Cleared`). From this follow the
references that stay valid, what they name, the order of the survivors and the counts
(`forceCollect_frees_unreachable`).
-/

namespace TinyScript

namespace Machine

/-- The frames of the functions that a collection frees. -/
def doomed (m : Machine) : List FrameId :=
  m.heap.order.filterMap fun i =>
    if m.reachable.getD i false = true then none
    else (m.heap.cell? i).bind fun c => c.object.closure?

/-- An object that is not unmarked is reached. -/
theorem reachable_of_flag {m : Machine} (hwf : m.heap.WellFormed) {i : Nat} {c : Cell}
    (hc : m.heap.cell? i = some c) (hflag : c.flag ≠ .unmarked) : m.reachable.getD i false := by
  have hname := Heap.Threaded.named?_of_cell? hwf hc
  have hvalid : m.heap.valid ⟨i, c.gen⟩ = true := Heap.valid_iff_named?.mpr ⟨c, hname⟩
  have hseed : m.Seed ⟨i, c.gen⟩ := by
    refine .flagged (f := c.flag) (by rw [Heap.flag?_eq, hname]; rfl) ?_
    cases hf : c.flag with
    | unmarked => exact absurd hf hflag
    | marked => exact Or.inr rfl
    | root => exact Or.inl rfl
  exact (getD_reachable_iff hwf hvalid).mpr (.seed hseed hvalid)

theorem flag_of_not_reached {m : Machine} (hwf : m.heap.WellFormed) {i : Nat} {c : Cell}
    (hc : m.heap.cell? i = some c) (hseen : ¬ m.reachable.getD i false) : c.flag = .unmarked := by
  by_contra hflag
  exact hseen (reachable_of_flag hwf hc hflag)

/-- A heap in which only the cells that were reached are left, all settled. -/
def Cleared (m : Machine) (h' : Heap) : Prop := ∀ j, h'.cell? j
  = if m.reachable.getD j false = true then (m.heap.cell? j).map Cell.settled else none

theorem note_run (t : Text) (m : Machine) :
    (Act.note t).run m = ((), { m with notes := if m.verbose then t :: m.notes else m.notes }) := by
  show ((), if m.verbose then { m with notes := t :: m.notes } else m) = _
  by_cases hverbose : m.verbose
  · rw [if_pos hverbose, if_pos hverbose]
  · rw [if_neg hverbose, if_neg hverbose]

theorem forceCollect_eq (m : Machine) :
    ∃ (totals : Collection) (notes : List Text), Act.forceCollect.run m
      = (⟨1, m.mark.2, m.mark.1.sweep.2, m.mark.1.sweep.1.heap.live⟩,
        { m.mark.1.sweep.1 with totals := totals, notes := notes }) ∧
      totals.cycles = m.mark.1.sweep.1.totals.cycles + 1 ∧
      totals.collected = m.mark.1.sweep.1.totals.collected + m.mark.1.sweep.2 := by
  let swept := m.mark.1.sweep.1
  let cycle : Collection := ⟨1, m.mark.2, m.mark.1.sweep.2, swept.heap.live⟩
  let totals : Collection := ⟨swept.totals.cycles + 1, swept.totals.marked + cycle.marked,
    swept.totals.collected + cycle.collected, cycle.live⟩
  have hrun : Act.forceCollect.run m
      = (cycle, ((Act.note (cycle.message totals.cycles)).run { swept with totals := totals }).2) := rfl
  rw [note_run] at hrun
  exact ⟨_, _, hrun, rfl, rfl⟩

/-- A collection settles the cells that were reached, and frees the others. -/
theorem forceCollect_spec {m : Machine} (hwf : m.heap.WellFormed) :
    ∃ (h' : Heap) (l' : List Nat) (totals : Collection) (notes : List Text),
      Act.forceCollect.run m
        = (⟨1, m.heap.order.countP fun i => m.reachable.getD i false
                && (m.heap.cell? i).any fun c => c.flag = .unmarked,
            m.heap.order.countP fun i => !m.reachable.getD i false, h'.live⟩,
          { m with heap := h', frames := m.doomed.foldl Frames.leave m.frames, totals := totals,
                   notes := notes }) ∧
      totals.cycles = m.totals.cycles + 1 ∧ h'.Threaded l' ∧ l'.Sublist m.heap.order ∧ m.Cleared h' := by
  have hmarks := marks_marking hwf
  obtain ⟨k, hk⟩ : ∃ k, m.marking = k := ⟨_, rfl⟩
  have hseen : m.reachable = k.seen := congrArg Marking.seen hk
  rw [hk] at hmarks
  have hcell₁ (i : Nat) : k.heap.cell? i
      = if m.reachable.getD i false = true then (m.heap.cell? i).map Cell.touched else m.heap.cell? i := by
    rw [hseen, hmarks.cell_eq]
  have hall : ({ m with heap := k.heap } : Machine).heap.Threaded ([] ++ m.heap.order) := hmarks.threaded
  obtain ⟨h₂, l₂, hsweep, ht₂, hl₂, hcell₂⟩ := sweepSlots_spec (m := { m with heap := k.heap }) m.heap.order hall 0
  have hmem {i : Nat} (hi : i ∈ m.heap.order) : ∃ c, m.heap.cell? i = some c :=
    Option.isSome_iff_exists.mp (hwf.mem_iff.mp hi)
  have hdropped : (m.heap.order.filterMap fun i => (k.heap.cell? i).bind Cell.dropped?) = m.doomed := by
    refine List.filterMap_congr fun i hi => ?_
    obtain ⟨c, hc⟩ := hmem hi
    rw [hcell₁, hc]
    by_cases hseen : m.reachable.getD i false
    · obtain ⟨o, gen, flag⟩ := c
      cases flag <;> simp [hseen, Cell.touched, Cell.dropped?]
    · simp [hseen, Cell.dropped?, flag_of_not_reached hwf hc hseen]
  have hcount : (m.heap.order.countP fun i => (k.heap.cell? i).any fun c => c.flag = .unmarked)
      = m.heap.order.countP fun i => !m.reachable.getD i false := by
    refine List.countP_congr fun i hi => ?_
    obtain ⟨c, hc⟩ := hmem hi
    rw [hcell₁, hc]
    by_cases hseen : m.reachable.getD i false
    · obtain ⟨o, gen, flag⟩ := c
      cases flag <;> simp [hseen, Cell.touched]
    · simp [hseen, flag_of_not_reached hwf hc hseen]
  have hcleared : m.Cleared h₂ := by
    intro j
    rw [hcell₂, hcell₁]
    by_cases hj : j ∈ m.heap.order
    · obtain ⟨c, hc⟩ := hmem hj
      by_cases hseen : m.reachable.getD j false
      · simp [hj, hseen, hc, Cell.swept?_touched]
      · simp [hj, hseen, hc, Cell.swept?, flag_of_not_reached hwf hc hseen]
    · have hnone : m.heap.cell? j = none := by
        rw [← Option.not_isSome_iff_eq_none, ← hwf.mem_iff]
        exact hj
      simp [hj, hnone]
  have hmark : m.mark = ({ m with heap := k.heap }, k.marked) := by rw [mark, hk]
  have hswept : Machine.sweep { m with heap := k.heap } = _ := (walk_eq oneByOne_sweepSlot hall).trans hsweep
  rw [Nat.zero_add, hdropped, hcount] at hswept
  obtain ⟨totals, notes, hrun, hcycles, -⟩ := forceCollect_eq m
  rw [hmark] at hrun hcycles
  dsimp only at hrun hcycles
  rw [hswept] at hrun hcycles
  rw [hmarks.marked_eq, ← hseen] at hrun
  exact ⟨h₂, l₂, totals, notes, hrun, hcycles, ht₂, hl₂, hcleared⟩

namespace Cleared

variable {m : Machine} {h' : Heap} {r : Ref}

/-- What a reference names after a collection. -/
theorem named?_eq (hcleared : m.Cleared h') (hwf : m.heap.WellFormed) (r : Ref) :
    (m.Reachable r → h'.named? r = (m.heap.named? r).map Cell.settled) ∧
      (¬ m.Reachable r → h'.named? r = none) := by
  by_cases hr : m.heap.valid r
  · obtain ⟨c, hc⟩ := Heap.valid_iff_named?.mp hr
    obtain ⟨hzero, hcellr, hgen⟩ := Heap.named?_eq_some_iff.mp hc
    rw [← getD_reachable_iff hwf hr]
    constructor
    · intro hreach
      rw [hc, Option.map_some, Heap.named?_eq_some_iff, hcleared, if_pos hreach, hcellr]
      exact ⟨hzero, rfl, hgen⟩
    · intro hreach
      rw [Heap.named?, hcleared, if_neg hreach]
      simp
  · refine ⟨fun hreach => absurd hreach.valid hr, fun _ => ?_⟩
    have hnone : m.heap.named? r = none := by
      rw [← Option.not_isSome_iff_eq_none, ← Heap.valid_eq]
      exact hr
    rw [← Option.not_isSome_iff_eq_none, Option.isSome_iff_exists]
    rintro ⟨c', hc'⟩
    obtain ⟨hzero, hcellr, hgen⟩ := Heap.named?_eq_some_iff.mp hc'
    rw [hcleared] at hcellr
    split at hcellr
    · obtain ⟨c, hc, rfl⟩ := Option.map_eq_some_iff.mp hcellr
      rw [Heap.named?_eq_some_iff.mpr ⟨hzero, hc, hgen⟩] at hnone
      cases hnone
    · cases hcellr

theorem valid_iff (hcleared : m.Cleared h') (hwf : m.heap.WellFormed) : h'.valid r ↔ m.Reachable r := by
  rw [Heap.valid_eq]
  constructor
  · intro hvalid
    by_contra hreach
    rw [(hcleared.named?_eq hwf r).2 hreach] at hvalid
    cases hvalid
  · intro hreach
    rw [(hcleared.named?_eq hwf r).1 hreach, Option.isSome_map, ← Heap.valid_eq]
    exact hreach.valid

/-- Survivors keep what they hold. -/
theorem get?_eq (hcleared : m.Cleared h') (hwf : m.heap.WellFormed) (hr : m.Reachable r) :
    h'.get? r = m.heap.get? r := by
  rw [Heap.get?_eq, (hcleared.named?_eq hwf r).1 hr, Heap.get?_eq, Option.map_map]
  rfl

/-- Roots stay roots, and all other survivors become unmarked. -/
theorem flag?_eq (hcleared : m.Cleared h') (hwf : m.heap.WellFormed) (hr : m.Reachable r) :
    h'.flag? r = some (if m.heap.flag? r = some .root then .root else .unmarked) := by
  obtain ⟨c, hc⟩ := Heap.valid_iff_named?.mp hr.valid
  rw [Heap.flag?_eq, (hcleared.named?_eq hwf r).1 hr, Heap.flag?_eq, hc]
  simp [Cell.settled]

/-- The survivors keep their order. -/
theorem order_eq (hcleared : m.Cleared h') (hwf : m.heap.WellFormed) {l' : List Nat}
    (ht' : h'.Threaded l') (hl' : l'.Sublist m.heap.order) :
    l' = m.heap.order.filter fun i => m.reachable.getD i false := by
  have hmem {j : Nat} (hj : j ∈ m.heap.order) : j ∈ l' ↔ m.reachable.getD j false := by
    obtain ⟨c, hc⟩ := Option.isSome_iff_exists.mp (hwf.mem_iff.mp hj)
    rw [ht'.mem_iff, hcleared, hc]
    split <;> simp_all
  have hkept : l'.filter (fun i => m.reachable.getD i false) = l' :=
    List.filter_eq_self.mpr fun j hj => (hmem (hl'.subset hj)).mp hj
  have hsub : l'.Sublist (m.heap.order.filter fun i => m.reachable.getD i false) := by
    rw [← hkept]
    exact hl'.filter _
  refine hsub.eq_of_length_le ((hwf.nodup.filter _).subperm fun j hj => ?_).length_le
  obtain ⟨hj, hseen⟩ := List.mem_filter.mp hj
  exact (hmem hj).mpr hseen

open Classical in
theorem refs_eq (hcleared : m.Cleared h') (hwf : m.heap.WellFormed) {l' : List Nat} (ht' : h'.Threaded l')
    (hl' : l'.Sublist m.heap.order) : h'.refs = m.heap.refs.filter fun r => m.Reachable r := by
  rw [ht'.refs_eq, hcleared.order_eq hwf ht' hl', Heap.Threaded.refs_eq hwf, List.filter_filterMap,
    List.filterMap_filter]
  refine List.filterMap_congr fun i hi => ?_
  obtain ⟨c, hc⟩ := Option.isSome_iff_exists.mp (hwf.mem_iff.mp hi)
  have hvalid : m.heap.valid ⟨i, c.gen⟩ = true :=
    Heap.valid_iff_named?.mpr ⟨c, Heap.Threaded.named?_of_cell? hwf hc⟩
  have hiff := getD_reachable_iff hwf hvalid
  rw [hcleared, hc]
  by_cases hseen : m.reachable.getD i false
  · simp [hseen, hiff.mp hseen, Cell.settled, Option.filter_some]
  · have hreach : ¬ m.Reachable ⟨i, c.gen⟩ := fun hreach => hseen (hiff.mpr hreach)
    simp [hseen, hreach, Option.filter_some]

end Cleared

/-! ## Counts -/

/-- The number of references to objects whose slots satisfy a condition. -/
theorem ncard_refs {h : Heap} {l : List Nat} (ht : h.Threaded l) (p : Nat → Bool) {s : Set Ref}
    (hs : ∀ r, r ∈ s ↔ h.valid r ∧ p r.index) : s.ncard = l.countP p := by
  have hset : s = ↑(h.refs.filter fun r => p r.index).toFinset := by
    ext r
    rw [hs, ← ht.mem_refs]
    simp
  rw [hset, Set.ncard_coe_finset, List.toFinset_card_of_nodup (ht.refs_nodup.filter _),
    ← List.countP_eq_length_filter, ← ht.map_index_refs, List.countP_map]
  rfl

theorem ncard_reachable {m : Machine} (hwf : m.heap.WellFormed) :
    {r | m.Reachable r}.ncard = m.heap.order.countP fun i => m.reachable.getD i false := by
  refine ncard_refs hwf _ fun r => ?_
  constructor
  · intro hr
    have hreach : m.Reachable r := hr
    exact ⟨hreach.valid, (getD_reachable_iff hwf hreach.valid).mpr hreach⟩
  · rintro ⟨hvalid, hseen⟩
    exact (getD_reachable_iff hwf hvalid).mp hseen

theorem ncard_unreachable {m : Machine} (hwf : m.heap.WellFormed) :
    {r | m.heap.valid r = true ∧ ¬ m.Reachable r}.ncard
      = m.heap.order.countP fun i => !m.reachable.getD i false := by
  refine ncard_refs hwf _ fun r => and_congr_right fun hvalid => ?_
  rw [← getD_reachable_iff hwf hvalid, Bool.not_eq_true', Bool.not_eq_true]

theorem ncard_unmarked {m : Machine} (hwf : m.heap.WellFormed) :
    {r | m.Reachable r ∧ m.heap.flag? r = some .unmarked}.ncard
      = m.heap.order.countP fun i => m.reachable.getD i false
          && (m.heap.cell? i).any fun c => c.flag = .unmarked := by
  refine ncard_refs hwf _ fun r => ?_
  rw [Set.mem_ofPred_eq, Bool.and_eq_true]
  by_cases hvalid : m.heap.valid r
  · obtain ⟨c, hc⟩ := Heap.valid_iff_named?.mp hvalid
    obtain ⟨-, hcell, -⟩ := Heap.named?_eq_some_iff.mp hc
    rw [getD_reachable_iff hwf hvalid, Heap.flag?_eq, hc, hcell]
    simp [hvalid]
  · exact iff_of_false (fun hr => hvalid hr.1.valid) fun hr => hvalid hr.1

theorem mem_doomed_iff {m : Machine} (hwf : m.heap.WellFormed) {f : FrameId} :
    f ∈ m.doomed ↔ ∃ r o, m.heap.get? r = some o ∧ o.closure? = some f ∧ ¬ m.Reachable r := by
  rw [doomed, List.mem_filterMap]
  constructor
  · rintro ⟨i, -, hi⟩
    split at hi
    · cases hi
    · next hseen =>
      obtain ⟨c, hc, hf⟩ := Option.bind_eq_some_iff.mp hi
      have hname := Heap.Threaded.named?_of_cell? hwf hc
      have hvalid : m.heap.valid ⟨i, c.gen⟩ = true := Heap.valid_iff_named?.mpr ⟨c, hname⟩
      refine ⟨⟨i, c.gen⟩, c.object, by rw [Heap.get?_eq, hname]; rfl, hf, fun hreach => hseen ?_⟩
      exact (getD_reachable_iff hwf hvalid).mpr hreach
  · rintro ⟨r, o, ho, hf, hreach⟩
    have hvalid := Heap.valid_of_get? ho
    obtain ⟨c, hc, rfl⟩ := Heap.get?_eq_some_iff.mp ho
    obtain ⟨-, hcell, -⟩ := Heap.named?_eq_some_iff.mp hc
    refine ⟨r.index, hwf.mem_iff.mpr (by simp [hcell]), ?_⟩
    rw [if_neg fun hseen => hreach ((getD_reachable_iff hwf hvalid).mp hseen), hcell]
    exact hf

open Classical in
/-- A collection frees exactly the objects that are not reachable. The survivors keep what they hold and
their order of allocation, roots stay roots and all others become unmarked, and the counts are those of
the objects newly marked, freed and left. A frame keeps its bindings unless it is that of a function
that was freed. -/
theorem forceCollect_frees_unreachable (m : Machine) (hwf : m.heap.WellFormed) :
    let cycle := (Act.forceCollect.run m).1
    let after := (Act.forceCollect.run m).2
    (∀ r, after.heap.valid r = true ↔ m.Reachable r) ∧
    (∀ r, m.Reachable r → after.heap.get? r = m.heap.get? r) ∧
    (∀ r, m.Reachable r → after.heap.flag? r
      = some (if m.heap.flag? r = some .root then .root else .unmarked)) ∧
    after.heap.refs = m.heap.refs.filter (fun r => m.Reachable r) ∧
    (∀ g, (∀ r o, m.heap.get? r = some o → ¬ m.Reachable r → o.closure? ≠ some g) →
      after.frames.binds g = m.frames.binds g) ∧
    after.heap.WellFormed ∧
    cycle.marked = {r | m.Reachable r ∧ m.heap.flag? r = some .unmarked}.ncard ∧
    cycle.collected = {r | m.heap.valid r = true ∧ ¬ m.Reachable r}.ncard ∧
    cycle.live = {r | m.Reachable r}.ncard ∧
    after.heap.live = {r | m.Reachable r}.ncard := by
  obtain ⟨h', l', totals, notes, hrun, -, ht', hl', hcleared⟩ := forceCollect_spec hwf
  have hlive : h'.live = {r | m.Reachable r}.ncard := by
    rw [ht'.live_eq, hcleared.order_eq hwf ht' hl', ← List.countP_eq_length_filter, ncard_reachable hwf]
  rw [hrun]
  refine ⟨fun r => hcleared.valid_iff hwf, fun r => hcleared.get?_eq hwf, fun r => hcleared.flag?_eq hwf,
    hcleared.refs_eq hwf ht' hl', ?_, ht'.wellFormed, (ncard_unmarked hwf).symm, (ncard_unreachable hwf).symm,
    hlive, hlive⟩
  intro g hg
  rw [Frames.binds_foldl_leave, if_neg]
  intro hdoomed
  obtain ⟨r, o, ho, hf, hreach⟩ := (mem_doomed_iff hwf).mp hdoomed
  exact hg r o ho hreach hf

/-- A pinned unit, and two pairs that hold nothing but each other. All are new. -/
def knot : Machine where
  heap :=
    let (h, _) := Heap.empty.alloc .unit false
    let (h, _) := h.alloc (.pair ⟨2, 1⟩ ⟨2, 1⟩) false
    let (h, _) := h.alloc (.pair ⟨1, 1⟩ ⟨1, 1⟩) false
    h
  pins := #[⟨0, 1⟩]

theorem wellFormed_knot : knot.heap.WellFormed :=
  (((Heap.threaded_empty.alloc _ _).alloc _ _).alloc _ _).wellFormed

/-- New objects survive their first collection; the second one frees the two pairs. -/
theorem forceCollect_frees_knot :
    let m := (Act.forceCollect.run knot).2
    m.heap.WellFormed ∧ m.Reachable ⟨0, 1⟩ ∧ {r | m.heap.valid r = true ∧ ¬ m.Reachable r}.ncard = 2 := by
  have hwf : (Act.forceCollect.run knot).2.heap.WellFormed :=
    (forceCollect_frees_unreachable knot wellFormed_knot).2.2.2.2.2.1
  have hexact := forceCollect_frees_unreachable (Act.forceCollect.run knot).2 hwf
  refine ⟨hwf, (hexact.1 ⟨0, 1⟩).mp (by decide), ?_⟩
  rw [← hexact.2.2.2.2.2.2.2.1]
  decide

end Machine

end TinyScript
