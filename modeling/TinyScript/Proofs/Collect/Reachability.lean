import TinyScript.Machine.Collect
import TinyScript.Proofs.Frame.Chain
import TinyScript.Proofs.Heap.Reference

/-!
# Reachable objects

`Machine.Reachable` says which references a search from the seeds comes to. The search that runs finds exactly these
(`Machine.getD_reachable_iff`) and changes nothing but the flags of what it finds (`Machine.marks_marking`).

It is bounded by the number of slots, since `Marking.work` falls by one whenever a slot is taken off the list. On the
way up from a frame it stops at the first frame that was gone through before, and misses nothing (`Marking.Covers`).
-/

namespace TinyScript

open List

variable {r : Ref} {i fuel : Nat} {f : FrameId} {o : Object}

/-- A cell after it was reached. -/
def Cell.touched (c : Cell) : Cell := if c.flag = .unmarked then { c with flag := .marked } else c

namespace Machine

/-- The references from which a search starts: those of objects that are roots or new, what the global
frame and the registered frames with the frames above them bind, and the pins. -/
inductive Seed (m : Machine) : Ref → Prop
  | flagged {r : Ref} {f : Flag} : m.heap.flag? r = some f → f = .root ∨ f = .marked → Seed m r
  | global {b : Text × Ref} : b ∈ m.frames.binds Frames.global → Seed m b.2
  | registered {f g : FrameId} {b : Text × Ref} : f ∈ m.frames.registered → m.frames.Above f g →
    b ∈ m.frames.binds g → Seed m b.2
  | pinned {r : Ref} : r ∈ m.pins → Seed m r

/-- The references that a search comes to. -/
inductive Reachable (m : Machine) : Ref → Prop
  | seed {r : Ref} : m.Seed r → m.heap.valid r → Reachable m r
  | part {r s : Ref} {o : Object} : Reachable m r → m.heap.get? r = some o → s ∈ o.children →
    m.heap.valid s = true → Reachable m s
  | captured {r : Ref} {o : Object} {f g : FrameId} {b : Text × Ref} : Reachable m r →
    m.heap.get? r = some o → o.closure? = some f → m.frames.Above f g → b ∈ m.frames.binds g →
    m.heap.valid b.2 = true → Reachable m b.2

theorem Reachable.valid {m : Machine} (h : m.Reachable r) : m.heap.valid r := by
  cases h <;> assumption

/-- What is bound by a frame or by one above it. -/
def BoundFrom (m : Machine) (f : FrameId) (s : Ref) : Prop :=
  ∃ g b, m.frames.Above f g ∧ b ∈ m.frames.binds g ∧ b.2 = s

/-- One step of the search. -/
def Next (m : Machine) (o : Object) (s : Ref) : Prop :=
  s ∈ o.children ∨ ∃ f, o.closure? = some f ∧ m.BoundFrom f s

/-- The slots that the search comes to. -/
def reachable (m : Machine) : Array Bool := m.marking.seen

end Machine

namespace Marking

variable {m : Machine} {k k' k'' : Marking} {new new' : Nat → Prop}

/-- Whether a slot was reached. -/
def Saw (k : Marking) (i : Nat) : Prop := k.seen.getD i false = true

/-- Whether a frame was gone through, or there is no such frame. -/
def Passed (k : Marking) (f : FrameId) : Prop := k.passed.getD f true = true

/-- How many slots are not reached yet or still to be looked at. -/
def work (k : Marking) : Nat := k.seen.toList.count false + k.gray.length

/-- How many frames were not gone through yet. -/
def ahead (k : Marking) : Nat := k.passed.toList.count false

/-- Nothing but flags has changed: what was reached is marked, and counted if it was unmarked. -/
structure Marks (m : Machine) (k : Marking) : Prop where
  size_eq : k.seen.size = m.heap.slots.size
  passed_size : k.passed.size = m.frames.arena.size
  threaded : k.heap.Threaded m.heap.order
  cell_eq : ∀ i, k.heap.cell? i
    = if k.seen.getD i false = true then (m.heap.cell? i).map Cell.touched else m.heap.cell? i
  marked_eq : k.marked = m.heap.order.countP fun i =>
    k.seen.getD i false && (m.heap.cell? i).any fun c => c.flag = .unmarked

/-! ## Visiting references -/

theorem Marks.named?_isSome (hk : k.Marks m) (r : Ref) :
    (k.heap.named? r).isSome = (m.heap.named? r).isSome := by
  have htouched (c : Cell) : c.touched.gen = c.gen := by
    rw [Cell.touched]
    split <;> rfl
  rw [Heap.named?, Heap.named?, hk.cell_eq]
  cases m.heap.cell? r.index with
  | none => simp
  | some c =>
    cases k.seen.getD r.index false with
    | true => simp [apply_ite Option.isSome, Option.filter_some, htouched]
    | false => rfl

/-- The search does not change which references are valid. -/
theorem Marks.valid_eq (hk : k.Marks m) (r : Ref) : k.heap.valid r = m.heap.valid r := by
  rw [Heap.valid_eq, Heap.valid_eq, hk.named?_isSome]

/-- The object of a slot is the same as before. -/
theorem Marks.object_eq (hk : k.Marks m) (i : Nat) :
    (k.heap.slots[i]?).bind Slot.object = (m.heap.cell? i).map Cell.object := by
  have hobject (h : Heap) : (h.slots[i]?).bind Slot.object = (h.cell? i).map Cell.object := by
    rw [Heap.cell?]
    cases h.slots[i]? with
    | none => rfl
    | some s => cases ho : s.object <;> simp [Slot.cell?, ho]
  have htouched (c : Cell) : c.touched.object = c.object := by
    rw [Cell.touched]
    split <;> rfl
  rw [hobject, hk.cell_eq]
  split
  · rw [Option.map_map]
    exact congrFun (congrArg _ (funext htouched)) _
  · rfl

/-- One more of the elements of a list is counted. -/
theorem countP_eq_add {l : List Nat} {p q : Nat → Bool} (hl : l.Nodup) (hi : i ∈ l)
    (hp : p i = false) (hq : ∀ j, i ≠ j → q j = p j) : l.countP q = l.countP p + if q i then 1 else 0 := by
  induction l with
  | nil => cases hi
  | cons j l ih =>
    obtain ⟨hj, hl⟩ := List.nodup_cons.mp hl
    rw [countP_cons, countP_cons]
    by_cases hij : i = j
    · subst hij
      have hrest : l.countP q = l.countP p :=
        countP_congr fun x hx => by rw [hq x fun hix => hj (hix ▸ hx)]
      simp [hrest, hp]
    · rw [ih hl ((List.mem_cons.mp hi).resolve_left hij), hq j hij]
      omega

theorem markSlot_spec {l : List Nat} (ht : k.heap.Threaded l) {c : Cell} (hc : k.heap.cell? i = some c) :
    ∃ h', k.markSlot i
        = { k with heap := h', marked := k.marked + if c.flag = .unmarked then 1 else 0 } ∧
      h'.Threaded l ∧ ∀ j, h'.cell? j = if i = j then some c.touched else k.heap.cell? j := by
  obtain ⟨s, hs, hsc⟩ := Option.bind_eq_some_iff.mp hc
  obtain ⟨o, ho, rfl⟩ := Option.map_eq_some_iff.mp hsc
  rw [markSlot, hs, Option.any_some]
  by_cases hflag : s.flag = .unmarked
  · refine ⟨k.heap.modify i fun s => { s with flag := .marked }, by simp [hflag], ?_, fun j => ?_⟩
    · exact ht.modify (fun s => rfl) (fun s => rfl) (fun s => rfl) fun s _ => Iff.rfl
    · rw [Heap.cell?_modify]
      split
      · next hij =>
        subst hij
        simp [hs, Slot.cell?, ho, Cell.touched, hflag]
      · rfl
  · refine ⟨k.heap, by simp [hflag], ht, fun j => ?_⟩
    split
    · next hij =>
      subst hij
      simp [hc, Cell.touched, hflag]
    · rfl

/-- What visiting references does, the references given by the slots `new` that they name. -/
structure Visited (m : Machine) (new : Nat → Prop) (k k' : Marking) : Prop where
  marks : k'.Marks m
  saw_iff : ∀ i, k'.Saw i ↔ k.Saw i ∨ new i
  gray_iff : ∀ i, i ∈ k'.gray ↔ i ∈ k.gray ∨ (new i ∧ ¬ k.Saw i)
  work_eq : k'.work = k.work

namespace Visited

theorem refl (hk : k.Marks m) (hnew : ∀ i, new i → k.Saw i) : Visited m new k k where
  marks := hk
  saw_iff i := ⟨Or.inl, fun h => h.elim id (hnew i)⟩
  gray_iff i := ⟨Or.inl, fun h => h.elim id fun h => absurd (hnew i h.1) h.2⟩
  work_eq := rfl

theorem trans (h : Visited m new k k') (h' : Visited m new' k' k'') :
    Visited m (fun i => new i ∨ new' i) k k'' where
  marks := h'.marks
  saw_iff i := by rw [h'.saw_iff, h.saw_iff, or_assoc]
  gray_iff i := by
    rw [h'.gray_iff, h.gray_iff, h.saw_iff]
    tauto
  work_eq := h'.work_eq.trans h.work_eq

/-- The slots may be described in another way. -/
theorem congr (h : Visited m new k k') (hnew : ∀ i, new' i ↔ new i) : Visited m new' k k' := by
  obtain rfl : new' = new := funext fun i => propext (hnew i)
  exact h

theorem saw_of_saw (h : Visited m new k k') (hi : k.Saw i) : k'.Saw i := (h.saw_iff i).mpr (Or.inl hi)

end Visited

@[simp] theorem passed_visit (k : Marking) (r : Ref) : (k.visit r).passed = k.passed := by
  rw [visit]
  split
  · rw [markSlot]
    split <;> rfl
  · rfl

@[simp] theorem passed_visitAll (k : Marking) (rs : List Ref) : (k.visitAll rs).passed = k.passed := by
  induction rs generalizing k with
  | nil => rfl
  | cons r rs ih => exact (ih _).trans (passed_visit k r)

theorem visit_spec (hk : k.Marks m) (r : Ref) :
    Visited m (fun i => m.heap.valid r ∧ r.index = i) k (k.visit r) := by
  rw [visit, hk.valid_eq]
  by_cases hvalid : m.heap.valid r
  · have hlt : r.index < k.seen.size := by
      rw [hk.size_eq]
      exact Heap.lt_size_of_valid hvalid
    have hgetD (d : Bool) : k.seen.getD r.index d = k.seen[r.index] := by
      rw [Array.getD_eq_getD_getElem?, Array.getElem?_eq_getElem hlt, Option.getD_some]
    rw [hvalid, hgetD, Bool.true_and]
    cases hold : k.seen[r.index] with
    | true =>
      refine Visited.refl hk ?_
      rintro i ⟨-, rfl⟩
      rw [Saw, hgetD, hold]
    | false =>
      have hunseen : k.seen.getD r.index false = false := (hgetD false).trans hold
      have hseen (i : Nat) : (k.seen.setIfInBounds r.index true).getD i false
          = if r.index = i then true else k.seen.getD i false := by
        rw [Array.getD_eq_getD_getElem?, Array.getElem?_setIfInBounds, Array.getD_eq_getD_getElem?]
        by_cases hi : r.index = i
        · simp [← hi, hlt]
        · simp [hi]
      obtain ⟨c, hc⟩ := Heap.valid_iff_named?.mp hvalid
      have hcell := (Heap.named?_eq_some_iff.mp hc).2.1
      have hcellk : k.heap.cell? r.index = some c := by
        rw [hk.cell_eq, hunseen, if_neg Bool.false_ne_true, hcell]
      have hmem : r.index ∈ m.heap.order := hk.threaded.mem_iff.mpr (by simp [hcellk])
      obtain ⟨h', heq, ht', hcell'⟩ := markSlot_spec
        (k := { k with seen := k.seen.setIfInBounds r.index true, gray := r.index :: k.gray }) hk.threaded hcellk
      simp only [Bool.not_false, if_true, heq]
      refine ⟨⟨by simpa using hk.size_eq, hk.passed_size, ht', fun i => ?_, ?_⟩, fun i => ?_, fun i => ?_, ?_⟩
      · show h'.cell? i = if (k.seen.setIfInBounds r.index true).getD i false = true then _ else _
        rw [hcell', hseen]
        by_cases hi : r.index = i
        · simp [← hi, hcell]
        · simp [hi, hk.cell_eq]
      · show k.marked + _ = m.heap.order.countP fun i => (k.seen.setIfInBounds r.index true).getD i false && _
        rw [countP_eq_add (p := fun i => k.seen.getD i false && (m.heap.cell? i).any fun c => c.flag = .unmarked)
          hk.threaded.nodup hmem (by rw [hunseen]; rfl) fun j hj => by rw [hseen, if_neg hj], ← hk.marked_eq, hseen,
          hcell]
        simp
      · show (k.seen.setIfInBounds r.index true).getD i false = true ↔ _
        rw [hseen, Saw]
        by_cases hi : r.index = i <;> simp [hi]
      · show i ∈ r.index :: k.gray ↔ _
        rw [mem_cons, Saw]
        constructor
        · rintro (rfl | hi)
          · exact Or.inr ⟨⟨trivial, rfl⟩, by rw [hunseen]; exact Bool.false_ne_true⟩
          · exact Or.inl hi
        · rintro (hi | ⟨⟨-, rfl⟩, -⟩)
          · exact Or.inr hi
          · exact Or.inl rfl
      · -- one slot less is not reached, and one more is to be looked at
        have hpos : 0 < k.seen.toList.count false :=
          List.count_pos_iff.mpr (Array.mem_toList_iff.mpr (hold ▸ Array.getElem_mem hlt))
        simp only [work, Array.toList_setIfInBounds, length_cons]
        rw [count_set (by simpa using hlt)]
        rw [Array.getElem_toList, hold, if_pos (by decide), if_neg (by decide)]
        omega
  · rw [Bool.not_eq_true] at hvalid
    rw [hvalid, Bool.false_and]
    exact Visited.refl hk fun i h => by simp at h

theorem visitAll_spec (rs : List Ref) (hk : k.Marks m) :
    Visited m (fun i => ∃ r ∈ rs, m.heap.valid r ∧ r.index = i) k (k.visitAll rs) := by
  induction rs generalizing k with
  | nil => exact Visited.refl hk fun i h => by simp at h
  | cons r rs ih =>
    have hfirst := visit_spec hk r
    exact (hfirst.trans (ih hfirst.marks)).congr fun i => by simp

@[simp] theorem passed_visitFlagged (fuel : Nat) (next : Option Nat) (k : Marking) :
    (k.visitFlagged fuel next).passed = k.passed := by
  induction fuel generalizing next k with
  | zero => cases next <;> rfl
  | succ fuel ih =>
    cases next with
    | none => rfl
    | some i =>
      rw [visitFlagged]
      split
      · rw [ih]
        split
        · rfl
        · exact passed_visit k _
      · rfl

/-- An object that is a root or new. -/
def Flagged (m : Machine) (i : Nat) : Prop := ∃ c, m.heap.cell? i = some c ∧ c.flag ≠ .unmarked

/-- The walk that looks for flagged objects goes along the slots in use; marking changes no link. -/
theorem visitFlagged_spec {is before : List Nat} (horder : m.heap.order = before ++ is) (hk : k.Marks m)
    (hflagged : ∀ i, k.Saw i → Flagged m i) (hfuel : is.length ≤ fuel) :
    Visited m (fun i => i ∈ is ∧ Flagged m i) k (k.visitFlagged fuel is.head?) := by
  induction is generalizing before k fuel with
  | nil =>
    have hsame : k.visitFlagged fuel none = k := by cases fuel <;> rfl
    rw [head?_nil, hsame]
    exact Visited.refl hk fun i h => by simp at h
  | cons i is ih =>
    obtain ⟨fuel, rfl⟩ : ∃ n, fuel = n + 1 := ⟨fuel - 1, by simp at hfuel; omega⟩
    have hmem : i ∈ m.heap.order := by simp [horder]
    obtain ⟨c', hc'⟩ := Option.isSome_iff_exists.mp (hk.threaded.mem_iff.mp hmem)
    obtain ⟨c, hc, hsame⟩ : ∃ c, m.heap.cell? i = some c ∧ k.heap.cell? i = some c := by
      rw [hk.cell_eq] at hc' ⊢
      split at hc'
      · next hsaw =>
        obtain ⟨c, hc, hflag⟩ := hflagged i hsaw
        exact ⟨c, hc, by rw [if_pos hsaw, hc, Option.map_some, Cell.touched, if_neg hflag]⟩
      · next hsaw => exact ⟨c', hc', by rw [if_neg hsaw, hc']⟩
    obtain ⟨s, hs, hnext, -⟩ := hk.threaded.link horder
    have hslot : s.cell? = some c := by rwa [Heap.cell?, hs, Option.bind_some] at hsame
    obtain ⟨o, ho, rfl⟩ := Option.map_eq_some_iff.mp hslot
    have hrest : m.heap.order = (before ++ [i]) ++ is := by rw [horder, append_assoc, singleton_append]
    rw [length_cons, Nat.add_le_add_iff_right] at hfuel
    rw [head?_cons, visitFlagged]
    simp only [hs, hnext]
    by_cases hflag : s.flag = .unmarked
    · rw [if_pos hflag]
      refine (ih hrest hk hflagged hfuel).congr fun j => and_congr_left fun hj => ?_
      rw [mem_cons, or_iff_right]
      rintro rfl
      obtain ⟨c, hcj, hne⟩ := hj
      rw [hc] at hcj
      cases hcj
      exact hne hflag
    · have hflagi : Flagged m i := ⟨_, hc, hflag⟩
      have hvalid : m.heap.valid ⟨i, s.gen⟩ = true := by
        rw [← hk.valid_eq]
        exact Heap.valid_iff_named?.mpr ⟨_, hk.threaded.named?_of_cell? hsame⟩
      have hfirst := visit_spec hk ⟨i, s.gen⟩
      rw [if_neg hflag]
      refine (hfirst.trans (ih hrest hfirst.marks (fun j hj => ?_) hfuel)).congr fun j => ?_
      · rcases (hfirst.saw_iff j).mp hj with hj | ⟨-, rfl⟩
        · exact hflagged j hj
        · exact hflagi
      · rw [mem_cons]
        constructor
        · rintro ⟨rfl | hj, hflagj⟩
          · exact Or.inl ⟨hvalid, rfl⟩
          · exact Or.inr ⟨hj, hflagj⟩
        · rintro (⟨-, rfl⟩ | ⟨hj, hflagj⟩)
          · exact ⟨Or.inl rfl, hflagi⟩
          · exact ⟨Or.inr hj, hflagj⟩

/-! ## Going up from a frame -/

/-- What the frames gone through bind was reached, and the frames above them were gone through as well. Only a
frame that is `pending` may still be ahead. -/
def Covers (m : Machine) (k : Marking) (pending : FrameId → Prop) : Prop := ∀ f, k.Passed f →
  (∀ b ∈ m.frames.binds f, m.heap.valid b.2 → k.Saw b.2.index) ∧
    ∀ p, m.frames.above? f = some p → k.Passed p ∨ pending p

theorem Covers.mono {pending pending' : FrameId → Prop} (h : k.Covers m pending) (hpassed : k'.passed = k.passed)
    (hsaw : ∀ i, k.Saw i → k'.Saw i) (hpending : ∀ p, pending p → pending' p) : k'.Covers m pending' := by
  intro f hf
  rw [Passed, hpassed] at hf
  refine ⟨fun b hb hvalid => hsaw _ ((h f hf).1 b hb hvalid), fun p hp => ((h f hf).2 p hp).imp ?_ (hpending p)⟩
  rw [Passed, Passed, hpassed]
  exact id

theorem Covers.visited (h : k.Covers m fun _ => False) (hpassed : k'.passed = k.passed)
    (hvisited : Visited m new k k') : k'.Covers m fun _ => False :=
  h.mono hpassed (fun _ => hvisited.saw_of_saw) fun _ => id

/-- From a frame that was gone through, all frames above it were. -/
theorem Covers.passed_of_above {g : FrameId} (h : k.Covers m (· = f)) (hf : k.Passed f)
    (hg : m.frames.Above f g) : k.Passed g := by
  induction hg with
  | self => exact hf
  | @parent g p _ hne hp ih =>
    rcases (h g ih).2 p (by rw [Frames.above?, if_neg hne, hp]) with hp | rfl
    · exact hp
    · exact hf

theorem passed_set (k : Marking) (f g : FrameId) :
    { k with passed := k.passed.setIfInBounds f true }.Passed g ↔ k.Passed g ∨ f = g := by
  rw [Passed, Passed, Array.getD_eq_getD_getElem?, Array.getElem?_setIfInBounds, Array.getD_eq_getD_getElem?]
  by_cases hfg : f = g
  · subst hfg
    by_cases hlt : f < k.passed.size <;> simp [hlt]
  · simp [hfg]

theorem ahead_set (hf : ¬ k.Passed f) :
    { k with passed := k.passed.setIfInBounds f true }.ahead + 1 = k.ahead := by
  rw [Passed, Array.getD_eq_getD_getElem?] at hf
  by_cases hlt : f < k.passed.size
  · rw [Array.getElem?_eq_getElem hlt, Option.getD_some, Bool.not_eq_true] at hf
    have hpos : 0 < k.passed.toList.count false :=
      List.count_pos_iff.mpr (Array.mem_toList_iff.mpr (hf ▸ Array.getElem_mem hlt))
    simp only [ahead, Array.toList_setIfInBounds]
    rw [count_set (by simpa using hlt), Array.getElem_toList, hf, if_pos (by decide), if_neg (by decide)]
    omega
  · rw [Array.getElem?_eq_none (Nat.le_of_not_lt hlt)] at hf
    exact absurd rfl hf

/-- From a frame that was gone through there is nothing new to be found. -/
theorem visitFrame_of_passed (hk : k.Marks m) (hcovers : k.Covers m (· = f))
    (hf : k.Passed f) :
    Visited m (fun i => ∃ s, m.BoundFrom f s ∧ m.heap.valid s ∧ s.index = i) k
        (k.visitFrame m.frames fuel f) ∧
      (k.visitFrame m.frames fuel f).Covers m fun _ => False := by
  have hsame : k.visitFrame m.frames fuel f = k := by
    cases fuel with
    | zero => rfl
    | succ fuel => exact if_pos hf
  rw [hsame]
  refine ⟨Visited.refl hk ?_, fun g hg => ⟨(hcovers g hg).1, fun p hp => Or.inl ?_⟩⟩
  · rintro i ⟨s, ⟨g, b, habove, hb, rfl⟩, hvalid, rfl⟩
    exact (hcovers g (hcovers.passed_of_above hf habove)).1 b hb hvalid
  · rcases (hcovers g hg).2 p hp with hp | rfl
    · exact hp
    · exact hf

/-- Going through one frame leaves the next one pending. -/
theorem visitFrame_step (hk : k.Marks m) (hcovers : k.Covers m (· = f)) {k₁ : Marking}
    (hk₁ : { k with passed := k.passed.setIfInBounds f true }.visitAll ((m.frames.binds f).map Prod.snd) = k₁) :
    Visited m (fun i => ∃ b ∈ m.frames.binds f, m.heap.valid b.2 ∧ b.2.index = i) k k₁ ∧
      k₁.Covers m fun p => m.frames.above? f = some p := by
  have hset : { k with passed := k.passed.setIfInBounds f true }.Marks m :=
    ⟨hk.size_eq, by simpa using hk.passed_size, hk.threaded, hk.cell_eq, hk.marked_eq⟩
  have hbinds := visitAll_spec ((m.frames.binds f).map Prod.snd) hset
  have hpassed := passed_visitAll { k with passed := k.passed.setIfInBounds f true }
    ((m.frames.binds f).map Prod.snd)
  rw [hk₁] at hbinds hpassed
  have hvisited : Visited m (fun i => ∃ b ∈ m.frames.binds f, m.heap.valid b.2 ∧ b.2.index = i) k k₁ :=
    Visited.congr ⟨hbinds.marks, hbinds.saw_iff, hbinds.gray_iff, hbinds.work_eq⟩ fun i => by
      simp only [mem_map, exists_exists_and_eq_and]
  have hiff (g : FrameId) : k₁.Passed g ↔ k.Passed g ∨ f = g := by
    rw [← passed_set, Passed, Passed, hpassed]
  refine ⟨hvisited, fun g hg => ?_⟩
  rcases (hiff g).mp hg with hg | rfl
  · refine ⟨fun b hb hvalid => hvisited.saw_of_saw ((hcovers g hg).1 b hb hvalid), fun p hp => Or.inl ?_⟩
    rw [hiff]
    exact ((hcovers g hg).2 p hp).imp id Eq.symm
  · exact ⟨fun b hb hvalid => (hvisited.saw_iff _).mpr (Or.inr ⟨b, hb, hvalid, rfl⟩), fun p hp => Or.inr hp⟩

/-- Going up from a frame reaches what it and the frames above it bind. -/
theorem visitFrame_spec (hk : k.Marks m) (hcovers : k.Covers m (· = f))
    (hfuel : k.ahead ≤ fuel) :
    Visited m (fun i => ∃ s, m.BoundFrom f s ∧ m.heap.valid s ∧ s.index = i) k
        (k.visitFrame m.frames fuel f) ∧
      (k.visitFrame m.frames fuel f).Covers m fun _ => False := by
  induction fuel generalizing f k with
  | zero =>
    by_cases hf : k.Passed f
    · exact visitFrame_of_passed hk hcovers hf
    · have hahead := ahead_set hf
      omega
  | succ fuel ih =>
    by_cases hf : k.Passed f
    · exact visitFrame_of_passed hk hcovers hf
    obtain ⟨k₁, hk₁⟩ : ∃ k₁,
      { k with passed := k.passed.setIfInBounds f true }.visitAll ((m.frames.binds f).map Prod.snd) = k₁ := ⟨_, rfl⟩
    obtain ⟨hvisited, hnext⟩ := visitFrame_step hk hcovers hk₁
    cases habove : m.frames.above? f with
    | none =>
      have hrun : k.visitFrame m.frames (fuel + 1) f = k₁ := by
        simp only [visitFrame, habove, hk₁]
        exact if_neg hf
      rw [hrun]
      refine ⟨hvisited.congr fun i => ?_, fun g hg => ⟨(hnext g hg).1, fun p hp => ((hnext g hg).2 p hp).imp id ?_⟩⟩
      · constructor
        · rintro ⟨s, ⟨g, b, hg, hb, rfl⟩, hs⟩
          rcases Frames.above_iff.mp hg with rfl | ⟨p, hp, -⟩
          · exact ⟨b, hb, hs⟩
          · rw [habove] at hp
            cases hp
        · rintro ⟨b, hb, hs⟩
          exact ⟨b.2, ⟨f, b, .self, hb, rfl⟩, hs⟩
      · intro h
        rw [habove] at h
        cases h
    | some p =>
      have hrun : k.visitFrame m.frames (fuel + 1) f = k₁.visitFrame m.frames fuel p := by
        simp only [visitFrame, habove, hk₁]
        exact if_neg hf
      have hpending : k₁.Covers m (· = p) := hnext.mono rfl (fun _ => id) fun q hq => by
        rw [habove] at hq
        exact (Option.some.inj hq).symm
      have hahead : k₁.ahead + 1 = k.ahead := by
        rw [← ahead_set hf, ahead, ahead, ← hk₁, passed_visitAll]
      obtain ⟨hrest, hcovered⟩ := ih hvisited.marks hpending (by omega)
      rw [hrun]
      refine ⟨(hvisited.trans hrest).congr fun i => ?_, hcovered⟩
      constructor
      · rintro ⟨s, ⟨g, b, hg, hb, rfl⟩, hs⟩
        rcases Frames.above_iff.mp hg with rfl | ⟨q, hq, hg⟩
        · exact Or.inl ⟨b, hb, hs⟩
        · rw [habove] at hq
          cases hq
          exact Or.inr ⟨b.2, ⟨g, b, hg, hb, rfl⟩, hs⟩
      · rintro (⟨b, hb, hs⟩ | ⟨s, ⟨g, b, hg, hb, rfl⟩, hs⟩)
        · exact ⟨b.2, ⟨f, b, .self, hb, rfl⟩, hs⟩
        · exact ⟨b.2, ⟨g, b, Frames.above_iff.mpr (Or.inr ⟨p, habove, hg⟩), hb, rfl⟩, hs⟩

theorem Marks.ahead_le (hk : k.Marks m) : k.ahead ≤ m.frames.arena.size := by
  rw [ahead, ← hk.passed_size]
  exact count_le_length

theorem visitFrames_spec (fs : List FrameId) (hk : k.Marks m) (hcovers : k.Covers m fun _ => False) :
    let k' := fs.foldl (fun k f => k.visitFrame m.frames m.frames.arena.size f) k
    Visited m (fun i => ∃ f ∈ fs, ∃ s, m.BoundFrom f s ∧ m.heap.valid s ∧ s.index = i) k k' ∧
      k'.Covers m fun _ => False := by
  induction fs generalizing k with
  | nil => exact ⟨Visited.refl hk fun i h => by simp at h, hcovers⟩
  | cons f fs ih =>
    obtain ⟨hfirst, hcovers⟩ := visitFrame_spec (f := f) hk
      (hcovers.mono rfl (fun _ => id) fun _ h => h.elim) hk.ahead_le
    obtain ⟨hrest, hcovers⟩ := ih hfirst.marks hcovers
    exact ⟨(hfirst.trans hrest).congr fun i => by simp, hcovers⟩

/-! ## Draining -/

/-- The search is on its way: what was reached is reachable, and whatever follows on a slot that was
looked at was reached. -/
structure Underway (m : Machine) (k : Marking) : Prop where
  marks : k.Marks m
  covers : k.Covers m fun _ => False
  sound : ∀ i, k.Saw i → ∃ r, m.Reachable r ∧ r.index = i
  gray_saw : ∀ i ∈ k.gray, k.Saw i
  closed : ∀ r o s, m.heap.get? r = some o → k.Saw r.index → r.index ∉ k.gray → m.Next o s →
    m.heap.valid s = true → k.Saw s.index

/-- The object of a slot that was reached is the one that the reference to it names. -/
theorem Underway.object_eq (hk : Underway m k) (hi : k.Saw i) :
    ∃ r o, m.Reachable r ∧ r.index = i ∧ m.heap.get? r = some o ∧
      (k.heap.slots[i]?).bind Slot.object = some o := by
  obtain ⟨r, hr, rfl⟩ := hk.sound i hi
  obtain ⟨c, hc⟩ := Heap.valid_iff_named?.mp hr.valid
  refine ⟨r, c.object, hr, rfl, by rw [Heap.get?_eq, hc]; rfl, ?_⟩
  rw [hk.marks.object_eq, (Heap.named?_eq_some_iff.mp hc).2.1]
  rfl

theorem reachable_of_next {s : Ref} (hr : m.Reachable r) (ho : m.heap.get? r = some o)
    (hs : m.Next o s) (hvalid : m.heap.valid s) : m.Reachable s := by
  rcases hs with hs | ⟨f, hf, g, b, habove, hb, rfl⟩
  · exact hr.part ho hs hvalid
  · exact hr.captured ho hf habove hb hvalid

/-- Looking at the first slot of the list visits what follows on its object. -/
theorem drain_cons (fuel : Nat) {gray : List Nat} (hk : k.Marks m)
    (hcovers : k.Covers m fun _ => False) (hgray : k.gray = i :: gray)
    (hslot : (k.heap.slots[i]?).bind Slot.object = some o) :
    ∃ k', k.drain m.frames (fuel + 1) = k'.drain m.frames fuel ∧
      Visited m (fun i => ∃ s, m.Next o s ∧ m.heap.valid s ∧ s.index = i) { k with gray := gray } k' ∧
      k'.Covers m fun _ => False := by
  have hrest : { k with gray := gray }.Marks m :=
    ⟨hk.size_eq, hk.passed_size, hk.threaded, hk.cell_eq, hk.marked_eq⟩
  have hparts := visitAll_spec o.children hrest
  have hcovers : ({ k with gray := gray }.visitAll o.children).Covers m fun _ => False :=
    hcovers.mono (passed_visitAll { k with gray := gray } o.children) (fun _ => hparts.saw_of_saw) fun _ => id
  cases hf : o.closure? with
  | none =>
    refine ⟨_, by simp only [drain, hgray, hslot, hf], hparts.congr fun i => ?_, hcovers⟩
    simp [Machine.Next, hf]
  | some f =>
    obtain ⟨hframe, hcovers⟩ := visitFrame_spec (f := f) hparts.marks
      (hcovers.mono rfl (fun _ => id) fun _ h => h.elim) hparts.marks.ahead_le
    refine ⟨_, by simp only [drain, hgray, hslot, hf], (hparts.trans hframe).congr fun i => ?_, hcovers⟩
    simp only [Machine.Next, hf, Option.some.injEq, exists_eq_left', or_and_right, exists_or]

/-- Looking at the first slot of the list keeps the search on its way. -/
theorem Underway.step {gray : List Nat} (hk : Underway m k)
    (hgray : k.gray = i :: gray) (hr : m.Reachable r) (hi : r.index = i) (ho : m.heap.get? r = some o)
    (hvisited : Visited m (fun i => ∃ s, m.Next o s ∧ m.heap.valid s ∧ s.index = i)
      { k with gray := gray } k') (hcovers : k'.Covers m fun _ => False) : Underway m k' := by
  have hsaw_iff (j : Nat) : k'.Saw j ↔ k.Saw j ∨ ∃ s, m.Next o s ∧ m.heap.valid s ∧ s.index = j :=
    hvisited.saw_iff j
  have hgray_iff (j : Nat) : j ∈ k'.gray ↔ j ∈ gray ∨
      (∃ s, m.Next o s ∧ m.heap.valid s ∧ s.index = j) ∧ ¬ k.Saw j := hvisited.gray_iff j
  refine ⟨hvisited.marks, hcovers, ?_, ?_, ?_⟩
  · intro j hj
    rcases (hsaw_iff j).mp hj with hj | ⟨s, hs, hvalid, rfl⟩
    · exact hk.sound j hj
    · exact ⟨s, reachable_of_next hr ho hs hvalid, rfl⟩
  · intro j hj
    rcases (hgray_iff j).mp hj with hj | ⟨hj, -⟩
    · exact (hsaw_iff j).mpr (Or.inl (hk.gray_saw j (hgray ▸ mem_cons_of_mem _ hj)))
    · exact (hsaw_iff j).mpr (Or.inr hj)
  · intro r' o' s ho' hsaw hnot hs hvalid
    rw [hgray_iff, not_or, not_and_not_right] at hnot
    rw [hsaw_iff]
    by_cases hsame : r'.index = i
    · -- the slot just looked at
      have heq : r' = r :=
        Heap.eq_of_valid (Heap.valid_of_get? ho') hr.valid (hsame.trans hi.symm)
      subst heq
      rw [ho] at ho'
      cases ho'
      exact Or.inr ⟨s, hs, hvalid, rfl⟩
    · have hold : k.Saw r'.index := by
        rcases (hsaw_iff _).mp hsaw with hold | hnew
        · exact hold
        · exact hnot.2 hnew
      refine Or.inl (hk.closed r' o' s ho' hold ?_ hs hvalid)
      rw [hgray, mem_cons, not_or]
      exact ⟨hsame, hnot.1⟩

/-- The search ends with nothing left to be looked at. -/
theorem Underway.drain (hk : Underway m k) (hfuel : k.work ≤ fuel) :
    Underway m (k.drain m.frames fuel) ∧ (k.drain m.frames fuel).gray = [] ∧
      ∀ i, k.Saw i → (k.drain m.frames fuel).Saw i := by
  induction fuel generalizing k with
  | zero =>
    have hgray : k.gray = [] := List.length_eq_zero_iff.mp (by rw [work] at hfuel; omega)
    exact ⟨hk, hgray, fun i hi => hi⟩
  | succ fuel ih =>
    cases hgray : k.gray with
    | nil =>
      have hsame : k.drain m.frames (fuel + 1) = k := by simp only [Marking.drain, hgray]
      rw [hsame]
      exact ⟨hk, hgray, fun i hi => hi⟩
    | cons i gray =>
      obtain ⟨r, o, hr, hi, ho, hslot⟩ := hk.object_eq (hk.gray_saw i (hgray ▸ mem_cons_self))
      obtain ⟨k', hrun, hvisited, hcovers⟩ := drain_cons fuel hk.marks hk.covers hgray hslot
      rw [hrun]
      obtain ⟨hunder, hempty, hsaw⟩ := ih (hk.step hgray hr hi ho hvisited hcovers) (by
        rw [hvisited.work_eq]
        simp only [work, hgray, length_cons] at hfuel ⊢
        omega)
      exact ⟨hunder, hempty, fun j hj => hsaw j ((hvisited.saw_iff j).mpr (Or.inl hj))⟩

end Marking

namespace Machine

open Marking

variable {m : Machine}

/-- The search before anything was reached. -/
def unsearched (m : Machine) : Marking :=
  { heap := m.heap, seen := .replicate m.heap.slots.size false, passed := .replicate m.frames.arena.size false }

theorem not_saw_unsearched (m : Machine) (i : Nat) : ¬ m.unsearched.Saw i := by
  rw [Saw, unsearched, Array.getD_eq_getD_getElem?, Array.getElem?_replicate]
  split <;> simp

theorem marks_unsearched (hwf : m.heap.WellFormed) : m.unsearched.Marks m where
  size_eq := by simp [unsearched]
  passed_size := by simp [unsearched]
  threaded := hwf
  cell_eq i := (if_neg (m.not_saw_unsearched i)).symm
  marked_eq := by
    symm
    refine List.countP_eq_zero.mpr fun i _ => ?_
    rw [Bool.and_eq_true]
    exact fun h => m.not_saw_unsearched i h.1

theorem covers_unsearched (m : Machine) : m.unsearched.Covers m fun _ => False := by
  intro f hf
  have hlarge : m.frames.arena.size ≤ f := by
    rw [Passed, unsearched, Array.getD_eq_getD_getElem?, Array.getElem?_replicate] at hf
    split at hf
    · cases hf
    · next hlt => exact Nat.le_of_not_lt hlt
  have hparent : m.frames.parent? f = none := by
    rw [Frames.parent?, Array.getElem?_eq_none hlarge]
    rfl
  rw [Frames.binds_of_size_le hlarge, Frames.above?, hparent, ite_self]
  exact ⟨fun b hb => absurd hb not_mem_nil, fun p hp => by cases hp⟩

/-- The search after the seeds were visited. -/
def seeded (m : Machine) : Marking :=
  ((Frames.global :: m.frames.registered).foldl (fun k f => k.visitFrame m.frames m.frames.arena.size f)
    (m.unsearched.visitFlagged m.heap.slots.size m.heap.head)).visitAll m.pins.toList

theorem seed_iff_flagged (hwf : m.heap.WellFormed) :
    Flagged m i ↔ ∃ r f, m.heap.flag? r = some f ∧ (f = .root ∨ f = .marked) ∧ r.index = i := by
  constructor
  · rintro ⟨c, hc, hflag⟩
    have hname := Heap.Threaded.named?_of_cell? hwf hc
    refine ⟨⟨i, c.gen⟩, c.flag, by rw [Heap.flag?_eq, hname]; rfl, ?_, rfl⟩
    cases hf : c.flag with
    | unmarked => exact absurd hf hflag
    | marked => exact Or.inr rfl
    | root => exact Or.inl rfl
  · rintro ⟨r, f, hflag, hf, rfl⟩
    rw [Heap.flag?_eq, Option.map_eq_some_iff] at hflag
    obtain ⟨c, hc, rfl⟩ := hflag
    refine ⟨c, (Heap.named?_eq_some_iff.mp hc).2.1, fun hne => ?_⟩
    rw [hne] at hf
    exact hf.elim Flag.noConfusion Flag.noConfusion

/-- The slots of the seeds are visited first. -/
theorem visited_seeded (hwf : m.heap.WellFormed) :
    Visited m (fun i => ∃ r, m.Seed r ∧ m.heap.valid r ∧ r.index = i) m.unsearched m.seeded ∧
      m.seeded.Covers m fun _ => False := by
  have hall : m.heap.order = [] ++ m.heap.order := rfl
  have hflagged := visitFlagged_spec hall (marks_unsearched hwf)
    (fun i hi => absurd hi (m.not_saw_unsearched i)) hwf.length_le
  rw [← hwf.head_eq] at hflagged
  obtain ⟨hframes, hcovers⟩ := visitFrames_spec (Frames.global :: m.frames.registered) hflagged.marks
    (m.covers_unsearched.visited (passed_visitFlagged _ _ _) hflagged)
  have hpins := visitAll_spec m.pins.toList hframes.marks
  refine ⟨((hflagged.trans hframes).trans hpins).congr fun i => ?_, hcovers.visited (passed_visitAll _ _) hpins⟩
  constructor
  · rintro ⟨r, hr | hb | ⟨hf, habove, hb⟩ | hpin, hvalid, rfl⟩
    · next f hf =>
      have hi := (seed_iff_flagged hwf).mpr ⟨r, f, hr, hf, rfl⟩
      obtain ⟨c, hc, -⟩ := id hi
      exact Or.inl (Or.inl ⟨hwf.mem_iff.mpr (by simp [hc]), hi⟩)
    · next b => exact Or.inl (Or.inr ⟨_, mem_cons_self, b.2, ⟨_, b, .self, hb, rfl⟩, hvalid, rfl⟩)
    · next f g b =>
      exact Or.inl (Or.inr ⟨f, mem_cons_of_mem _ hf, b.2, ⟨g, b, habove, hb, rfl⟩, hvalid, rfl⟩)
    · exact Or.inr ⟨r, Array.mem_toList_iff.mpr hpin, hvalid, rfl⟩
  · rintro ((⟨-, hi⟩ | ⟨f, hf, s, ⟨g, b, habove, hb, rfl⟩, hvalid, rfl⟩) | ⟨r, hr, hvalid, rfl⟩)
    · obtain ⟨r, f, hr, hf, rfl⟩ := (seed_iff_flagged hwf).mp hi
      exact ⟨r, .flagged hr hf, Heap.valid_of_flag? hr, rfl⟩
    · rcases List.mem_cons.mp hf with rfl | hf
      · rw [habove.eq_global] at hb
        exact ⟨b.2, .global hb, hvalid, rfl⟩
      · exact ⟨b.2, .registered hf habove hb, hvalid, rfl⟩
    · exact ⟨r, .pinned (Array.mem_toList_iff.mp hr), hvalid, rfl⟩

/-- The whole search: it has nothing left to be looked at, and it has come to the seeds. -/
theorem underway_marking (hwf : m.heap.WellFormed) :
    Underway m m.marking ∧ m.marking.gray = [] ∧
      ∀ r, m.Seed r → m.heap.valid r → m.marking.Saw r.index := by
  obtain ⟨hseeds, hcovers⟩ := visited_seeded hwf
  have hstart : Underway m m.seeded := by
    refine ⟨hseeds.marks, hcovers, ?_, ?_, ?_⟩
    · intro i hi
      obtain ⟨s, hs, hvalid, rfl⟩ := ((hseeds.saw_iff i).mp hi).resolve_left (m.not_saw_unsearched i)
      exact ⟨s, .seed hs hvalid, rfl⟩
    · intro i hi
      rcases (hseeds.gray_iff i).mp hi with hi | ⟨hi, -⟩
      · cases hi
      · exact (hseeds.saw_iff i).mpr (Or.inr hi)
    · -- so far every slot that was reached is still to be looked at
      intro r o s _ hsaw hgray
      have hnew := ((hseeds.saw_iff _).mp hsaw).resolve_left (m.not_saw_unsearched _)
      exact absurd ((hseeds.gray_iff _).mpr (Or.inr ⟨hnew, m.not_saw_unsearched _⟩)) hgray
  have hwork : m.seeded.work ≤ m.heap.slots.size := by
    rw [hseeds.work_eq]
    simp [work, unsearched]
  obtain ⟨hunder, hgray, hkept⟩ := hstart.drain hwork
  exact ⟨hunder, hgray, fun r hr hvalid => hkept _ ((hseeds.saw_iff _).mpr (Or.inr ⟨r, hr, hvalid, rfl⟩))⟩

/-- The search changes nothing but flags: those of the objects it finds. -/
theorem marks_marking (hwf : m.heap.WellFormed) : m.marking.Marks m := (underway_marking hwf).1.marks

/-- The search for reachable objects finds exactly those. -/
theorem getD_reachable_iff (hwf : m.heap.WellFormed) (hr : m.heap.valid r) :
    m.reachable.getD r.index false = true ↔ m.Reachable r := by
  obtain ⟨hunder, hgray, hseeds⟩ := underway_marking hwf
  constructor
  · intro hsaw
    obtain ⟨s, hs, hindex⟩ := hunder.sound _ hsaw
    rwa [← Heap.eq_of_valid hs.valid hr hindex]
  · intro hreach
    induction hreach with
    | seed hseed hvalid => exact hseeds _ hseed hvalid
    | part hreach ho hs hvalid ih =>
      exact hunder.closed _ _ _ ho (ih hreach.valid) (by simp [hgray]) (Or.inl hs) hvalid
    | @captured r o f g b hreach ho hf habove hb hvalid ih =>
      exact hunder.closed _ _ _ ho (ih hreach.valid) (by simp [hgray]) (Or.inr ⟨f, hf, g, b, habove, hb, rfl⟩) hvalid

end Machine

end TinyScript
