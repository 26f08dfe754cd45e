import TinyScript.Proofs.Heap.Threading

/-!
# What references name

A reference names the cell of its slot if the generation is right, and generation zero never is. This
module says what each operation of the heap does to the cell that any given reference names: a new object
is named by the new reference and by no other, setting an object changes what one reference names, and
freeing a slot takes its cell from the references to it.
-/

namespace TinyScript

namespace Heap

/-- The cell that a reference names. -/
def named? (h : Heap) (r : Ref) : Option Cell :=
  if r.gen = 0 then none else (h.cell? r.index).filter fun c => c.gen = r.gen

variable {h : Heap} {r : Ref} {o : Object} {l : List Nat}

/-- A reference names the cell in its slot if the generations agree, and none is zero. -/
theorem named?_eq_some_iff {c : Cell} :
    h.named? r = some c ↔ r.gen ≠ 0 ∧ h.cell? r.index = some c ∧ c.gen = r.gen := by
  rw [named?]
  split
  · next hzero => simp [hzero]
  · next hzero => simp [hzero, Option.filter_eq_some_iff]

theorem slot?_cell? (h : Heap) (r : Ref) : (h.slot? r).bind Slot.cell? = h.named? r := by
  rw [slot?, named?]
  split
  · rfl
  · rw [cell?]
    cases h.slots[r.index]? with
    | none => rfl
    | some s =>
      cases ho : s.object with
      | none => simp [Slot.cell?, ho]
      | some o =>
        by_cases hgen : s.gen = r.gen
        · simp [Slot.cell?, ho, hgen, Option.filter_some]
        · simp [Slot.cell?, ho, hgen, Option.filter_some]

theorem slot?_isSome_object {s : Slot} (hs : h.slot? r = some s) : ∃ o, s.object = some o := by
  rw [slot?] at hs
  split at hs
  · cases hs
  · split at hs
    · split at hs
      · next t _ hcond =>
        cases hs
        rw [Bool.and_eq_true] at hcond
        exact Option.isSome_iff_exists.mp hcond.1
      · cases hs
    · cases hs

/-- The object that a reference names. -/
theorem get?_eq (h : Heap) (r : Ref) : h.get? r = (h.named? r).map Cell.object := by
  rw [get?, ← slot?_cell?]
  cases hs : h.slot? r with
  | none => rfl
  | some s =>
    obtain ⟨o, ho⟩ := slot?_isSome_object hs
    simp [Slot.cell?, ho]

/-- The flag of that object. -/
theorem flag?_eq (h : Heap) (r : Ref) : h.flag? r = (h.named? r).map Cell.flag := by
  rw [flag?, ← slot?_cell?]
  cases hs : h.slot? r with
  | none => rfl
  | some s =>
    obtain ⟨o, ho⟩ := slot?_isSome_object hs
    simp [Slot.cell?, ho]

/-- A reference is valid if it names something. -/
theorem valid_eq (h : Heap) (r : Ref) : h.valid r = (h.named? r).isSome := by
  rw [valid, ← slot?_cell?]
  cases hs : h.slot? r with
  | none => rfl
  | some s =>
    obtain ⟨o, ho⟩ := slot?_isSome_object hs
    simp [Slot.cell?, ho]

theorem valid_iff_named? : h.valid r ↔ ∃ c, h.named? r = some c := by
  rw [valid_eq, Option.isSome_iff_exists]

theorem valid_iff_get? : h.valid r ↔ ∃ o, h.get? r = some o := by
  rw [valid_eq, get?_eq, ← Option.isSome_iff_exists, Option.isSome_map]

theorem valid_of_get? (hr : h.get? r = some o) : h.valid r :=
  valid_iff_get?.mpr ⟨o, hr⟩

theorem valid_of_flag? {f : Flag} (hr : h.flag? r = some f) : h.valid r := by
  rw [flag?_eq] at hr
  obtain ⟨c, hc, -⟩ := Option.map_eq_some_iff.mp hr
  exact valid_iff_named?.mpr ⟨c, hc⟩

theorem get?_eq_some_iff :
    h.get? r = some o ↔ ∃ c, h.named? r = some c ∧ c.object = o := by
  rw [get?_eq, Option.map_eq_some_iff]

/-- The zero reference is not valid. -/
theorem gen_ne_zero_of_valid (hr : h.valid r) : r.gen ≠ 0 := by
  obtain ⟨c, hc⟩ := valid_iff_named?.mp hr
  exact (named?_eq_some_iff.mp hc).1

/-- Valid references to one slot are equal. -/
theorem eq_of_valid {r r' : Ref} (hr : h.valid r) (hr' : h.valid r')
    (hindex : r.index = r'.index) : r = r' := by
  obtain ⟨c, hc⟩ := valid_iff_named?.mp hr
  obtain ⟨c', hc'⟩ := valid_iff_named?.mp hr'
  obtain ⟨-, hcell, hgen⟩ := named?_eq_some_iff.mp hc
  obtain ⟨-, hcell', hgen'⟩ := named?_eq_some_iff.mp hc'
  rw [hindex, hcell'] at hcell
  cases hcell
  cases r
  cases r'
  simp_all

theorem lt_size_of_valid (hr : h.valid r) : r.index < h.slots.size := by
  obtain ⟨c, hc⟩ := valid_iff_named?.mp hr
  exact lt_size_of_cell? (named?_eq_some_iff.mp hc).2.1

/-- Every cell is named by the reference with its generation. -/
theorem Threaded.named?_of_cell? (ht : h.Threaded l) {i : Nat} {c : Cell} (hc : h.cell? i = some c) :
    h.named? ⟨i, c.gen⟩ = some c :=
  named?_eq_some_iff.mpr ⟨ht.gen_ne_zero hc, hc, rfl⟩

/-- The objects in the order of allocation are those of the threaded slots. -/
theorem Threaded.objects_eq (ht : h.Threaded l) :
    h.objects = l.filterMap fun i => (h.cell? i).map fun c => (⟨i, c.gen⟩, c.object, c.flag) := by
  rw [objects, ht.order_eq]
  refine List.filterMap_congr fun i _ => ?_
  rw [cell?]
  cases h.slots[i]? with
  | none => rfl
  | some s => cases ho : s.object <;> simp [Slot.cell?, ho]

/-- All objects are listed, with their flags. -/
theorem Threaded.mem_objects (ht : h.Threaded l) {f : Flag} :
    (r, o, f) ∈ h.objects ↔ h.named? r = some ⟨o, r.gen, f⟩ := by
  rw [ht.objects_eq, List.mem_filterMap]
  constructor
  · rintro ⟨i, -, hi⟩
    obtain ⟨c, hc, heq⟩ := Option.map_eq_some_iff.mp hi
    cases heq
    exact ht.named?_of_cell? hc
  · intro hr
    obtain ⟨-, hcell, -⟩ := named?_eq_some_iff.mp hr
    exact ⟨r.index, ht.mem_iff.mpr (by simp [hcell]), by simp [hcell]⟩

/-- The references to the objects, in the order of allocation. -/
def refs (h : Heap) : List Ref := h.objects.map Prod.fst

theorem Threaded.refs_eq (ht : h.Threaded l) :
    h.refs = l.filterMap fun i => (h.cell? i).map fun c => ⟨i, c.gen⟩ := by
  rw [refs, ht.objects_eq, List.map_filterMap]
  simp only [Option.map_map, Function.comp_def]

theorem Threaded.mem_refs (ht : h.Threaded l) : r ∈ h.refs ↔ h.valid r := by
  rw [refs, List.mem_map, valid_iff_named?]
  constructor
  · rintro ⟨⟨s, o, f⟩, hobj, rfl⟩
    exact ⟨_, ht.mem_objects.mp hobj⟩
  · rintro ⟨c, hc⟩
    have hgen := (named?_eq_some_iff.mp hc).2.2
    exact ⟨(r, c.object, c.flag), ht.mem_objects.mpr (by rw [hc, ← hgen]), rfl⟩

/-- References are listed in the order of the list. -/
theorem Threaded.map_index_refs (ht : h.Threaded l) : h.refs.map Ref.index = l := by
  rw [ht.refs_eq, List.map_filterMap]
  simp only [Option.map_map, Function.comp_def]
  refine (List.filterMap_congr fun i hi => ?_).trans List.filterMap_some
  obtain ⟨c, hc⟩ := Option.isSome_iff_exists.mp (ht.mem_iff.mp hi)
  rw [hc, Option.map_some]

theorem Threaded.refs_nodup (ht : h.Threaded l) : h.refs.Nodup :=
  List.Nodup.of_map Ref.index (by rw [ht.map_index_refs]; exact ht.nodup)

/-! ## Allocating -/

/-- **Allocating** adds a cell; all other references name what they named. -/
theorem Threaded.named?_alloc (ht : h.Threaded l) (o : Object) (isRoot : Bool) (r : Ref) :
    (h.alloc o isRoot).1.named? r
      = if r = (h.alloc o isRoot).2
        then some ⟨o, (h.alloc o isRoot).2.gen, if isRoot then .root else .marked⟩
        else h.named? r := by
  have hzero := h.gen_alloc_ne_zero o isRoot
  have hfresh := ht.cell?_alloc_index o isRoot
  generalize hnew : (h.alloc o isRoot).2 = new at *
  rw [named?, ht.cell?_alloc, hnew]
  by_cases hindex : new.index = r.index
  · rw [if_pos hindex, named?, ← hindex, hfresh]
    by_cases hgen : new.gen = r.gen
    · have hr : r = new := by
        cases r
        cases new
        simp_all
      subst hr
      simp [hzero]
    · have hr : r ≠ new := fun hr => hgen (by rw [hr])
      simp [hr, hgen]
  · have hr : r ≠ new := fun hr => hindex (by rw [hr])
    rw [if_neg hindex, if_neg hr, named?]

theorem Threaded.named?_alloc_self (ht : h.Threaded l) (o : Object) (isRoot : Bool) :
    h.named? (h.alloc o isRoot).2 = none := by
  rw [named?, ht.cell?_alloc_index]
  simp

theorem Threaded.get?_alloc_iff (ht : h.Threaded l) {isRoot : Bool} {p : Object} :
    (h.alloc o isRoot).1.get? r = some p ↔ (r = (h.alloc o isRoot).2 ∧ p = o) ∨ h.get? r = some p := by
  rw [get?_eq, get?_eq, ht.named?_alloc]
  split
  · next hr =>
    rw [hr, ht.named?_alloc_self]
    simp [eq_comm]
  · next hr => simp [hr]

theorem Threaded.flag?_alloc_iff (ht : h.Threaded l) {isRoot : Bool} :
    (h.alloc o isRoot).1.flag? r = some .root
      ↔ (r = (h.alloc o isRoot).2 ∧ isRoot) ∨ h.flag? r = some .root := by
  rw [flag?_eq, flag?_eq, ht.named?_alloc]
  split
  · next hr =>
    rw [hr, ht.named?_alloc_self]
    cases isRoot <;> simp
  · next hr => simp [hr]

/-- The new reference was not valid before. -/
theorem Threaded.not_valid_alloc (ht : h.Threaded l) (o : Object) (isRoot : Bool) :
    ¬ h.valid (h.alloc o isRoot).2 := by
  rw [valid_eq, ht.named?_alloc_self]
  simp

/-! ## Changing an object or its flag -/

/-- Changing a slot in use changes what its reference names, and nothing else. -/
theorem named?_modify (hr : h.valid r) {f : Slot → Slot} {g : Cell → Cell}
    (hf : ∀ s c, s.cell? = some c → (f s).cell? = some (g c)) (hgen : ∀ c, (g c).gen = c.gen) (r' : Ref) :
    (h.modify r.index f).named? r' = if r' = r then (h.named? r').map g else h.named? r' := by
  obtain ⟨c, hc⟩ := valid_iff_named?.mp hr
  obtain ⟨hzero, hcell, hcgen⟩ := named?_eq_some_iff.mp hc
  obtain ⟨s, hs, hsc⟩ := Option.bind_eq_some_iff.mp hcell
  rw [named?, named?, cell?_modify]
  by_cases hindex : r.index = r'.index
  · rw [if_pos hindex, ← hindex, hcell, hs, Option.bind_some, hf s c hsc]
    by_cases hrgen : r.gen = r'.gen
    · have hr' : r' = r := by
        cases r
        cases r'
        simp_all
      subst hr'
      simp [hzero, hcgen, hgen, Option.filter_some]
    · have hr' : r' ≠ r := fun hr' => hrgen (by rw [hr'])
      have hne : c.gen ≠ r'.gen := by rwa [hcgen]
      simp [hr', hgen, hne, Option.filter_some]
  · have hr' : r' ≠ r := fun hr' => hindex (by rw [hr'])
    rw [if_neg hindex, if_neg hr']

theorem named?_set (hr : h.valid r) (o : Object) (r' : Ref) :
    (h.set r o).named? r'
      = if r' = r then (h.named? r').map fun c => { c with object := o } else h.named? r' := by
  rw [set, if_pos hr]
  refine named?_modify hr (g := fun c => { c with object := o }) (fun s c hc => ?_) (fun c => rfl) r'
  obtain ⟨o', -, rfl⟩ := Option.map_eq_some_iff.mp hc
  rfl

/-- An object is changed under its reference, and all others stay. -/
theorem get?_set (hr : h.valid r) (o : Object) (r' : Ref) :
    (h.set r o).get? r' = if r' = r then some o else h.get? r' := by
  rw [get?_eq, get?_eq, named?_set hr]
  split
  · next heq =>
    obtain ⟨c, hc⟩ := valid_iff_named?.mp hr
    rw [heq, hc]
    rfl
  · rfl

/-- Its flag stays. -/
theorem flag?_set (hr : h.valid r) (o : Object) (r' : Ref) : (h.set r o).flag? r' = h.flag? r' := by
  rw [flag?_eq, flag?_eq, named?_set hr]
  split
  · rw [Option.map_map]
    rfl
  · rfl

theorem Threaded.set (ht : h.Threaded l) (r : Ref) (o : Object) : (h.set r o).Threaded l := by
  rw [Heap.set]
  split
  · next hr =>
    refine ht.modify (fun s => rfl) (fun s => rfl) (fun s => rfl) fun s hs => ?_
    obtain ⟨c, hc⟩ := valid_iff_named?.mp hr
    obtain ⟨-, hcell, -⟩ := named?_eq_some_iff.mp hc
    rw [cell?, hs, Option.bind_some] at hcell
    obtain ⟨o', ho', -⟩ := Option.map_eq_some_iff.mp hcell
    simp [ho']
  · exact ht

/-- Withdrawing the flag of a root changes flags only. -/
theorem setRoot?_false {h h' : Heap} (ht : h.Threaded l) (hr : h.setRoot? r false = some h') :
    h'.Threaded l ∧ ∀ r', h'.named? r'
      = if r' = r then (h.named? r').map fun c => { c with flag := if c.flag = .root then .marked else c.flag }
        else h.named? r' := by
  rw [setRoot?] at hr
  cases hs : h.slot? r with
  | none => simp [hs] at hr
  | some s =>
    have hvalid : h.valid r := by simp [valid, hs]
    have hname : h.named? r = s.cell? := by rw [← slot?_cell?, hs, Option.bind_some]
    simp only [hs, Bool.false_eq_true, if_false] at hr
    split at hr
    · next hroot =>
      cases hr
      refine ⟨ht.modify (fun s => rfl) (fun s => rfl) (fun s => rfl) fun s _ => Iff.rfl, fun r' => ?_⟩
      rw [named?_modify hvalid (g := fun c => { c with flag := .marked }) _ (fun c => rfl)]
      · split
        · next heq =>
          rw [heq, hname]
          obtain ⟨o, ho⟩ := slot?_isSome_object hs
          simp [Slot.cell?, ho, hroot]
        · rfl
      · intro t c hc
        obtain ⟨o, ho, rfl⟩ := Option.map_eq_some_iff.mp hc
        simp [Slot.cell?, ho]
    · next hroot =>
      cases hr
      refine ⟨ht, fun r' => ?_⟩
      split
      · next heq =>
        rw [heq, hname]
        obtain ⟨o, ho⟩ := slot?_isSome_object hs
        simp [Slot.cell?, ho, hroot]
      · rfl

end Heap

end TinyScript
