import TinyScript.Proofs.Dict.Order

/-!
# Filling a table again

A table that was filled from empty, by any puts, and a second table that is filled with the entries of the first in the
order in which it lists them, list the same entries in the same order (`Table.toList_refill`). Both grow to the same
number of rows, as growth depends on the number of entries only (`Table.Shaped`).
-/

namespace TinyScript.Table

variable {α β : Type}

/-! ## The number of rows -/

/-- The number of rows and the capacity of a table that has grown by itself. -/
def grownShape (s : Nat × Int) : Nat × Int :=
  let after := wordMul s.1 growthFactor
  if 0 ≤ after ∧ after ≤ rowLimit then (after.toNat, wordMul s.2 growthFactor) else s

/-- The number of rows and the capacity that an empty table has come to when it has got `n` entries. -/
def shape : Nat → Nat × Int
  | 0 => (defaultRows, defaultCapacity)
  | n + 1 => if 3 * (shape n).2 < 4 * (n + 1 : Nat) then grownShape (shape n) else shape n

/-- A table that has grown by itself only, as its number of entries demands. -/
structure Shaped (t : Table α) : Prop where
  autoGrow : t.autoGrow
  shape_eq : (t.rows.size, t.capacity) = shape t.count

/-- The empty table has not grown. -/
theorem shaped_empty : (empty : Table α).Shaped := ⟨rfl, by simp [empty, ofRows, shape]⟩

/-- What growing by itself does to all that is not rows. -/
theorem autoGrown_spec (t : Table α) (h : t.autoGrow) :
    t.autoGrown.autoGrow = true ∧ t.autoGrown.count = t.count ∧
      (t.autoGrown.rows.size, t.autoGrown.capacity)
        = if t.isCrowded then grownShape (t.rows.size, t.capacity) else (t.rows.size, t.capacity) := by
  rw [autoGrown, h, Bool.true_and]
  split
  · rw [grownShape]
    by_cases hrange : 0 ≤ wordMul t.rows.size growthFactor ∧ wordMul t.rows.size growthFactor ≤ rowLimit
    · obtain ⟨n, hn⟩ := Int.eq_ofNat_of_zero_le hrange.1
      have hlimit : n ≤ rowLimit := by omega
      have halike := alike_rehash_wide (t := t) hlimit (wordMul t.capacity growthFactor)
      rw [widen?_of_range t hn hlimit, if_pos hrange, hn]
      exact ⟨halike.autoGrow.trans h, halike.count, Prod.ext (size_rehash_wide hlimit _) halike.capacity⟩
    · rw [widen?_of_not_range t hrange, if_neg hrange]
      exact ⟨h, rfl, rfl⟩
  · exact ⟨h, rfl, rfl⟩

/-- Putting an entry keeps the shape. -/
theorem Shaped.put {t : Table α} (h : t.Shaped) (key : Text) (v : α) : (t.put key v).1.Shaped := by
  obtain ⟨hgrow, hshape⟩ := h
  have hadd : ((t.add key v).rows.size, (t.add key v).capacity) = shape t.count := by
    rw [← hshape, add, editRow, size_modifyRow]
    rfl
  have hcapacity : (shape t.count).2 = t.capacity := by rw [← hshape]
  rw [put_eq]
  split
  · refine ⟨hgrow, ?_⟩
    rw [editRow, size_modifyRow]
    exact hshape
  · obtain ⟨hauto, hcount, hnew⟩ := autoGrown_spec (t.add key v) hgrow
    refine ⟨hauto, hnew.trans ?_⟩
    have hsucc : (t.add key v).count = t.count + 1 := rfl
    have hcrowded : (t.add key v).isCrowded = decide (3 * t.capacity < 4 * (t.count + 1 : Nat)) := rfl
    rw [hcount, hsucc, shape, hadd, hcapacity, hcrowded]
    simp only [decide_eq_true_eq]

theorem Shaped.putAll {t : Table α} (h : t.Shaped) (kvs : List (Text × α)) : (t.putAll kvs).Shaped := by
  induction kvs generalizing t with
  | nil => exact h
  | cons kv kvs ih => exact ih (h.put kv.1 kv.2)

/-! ## The order of the entries -/

theorem valid_putAll (kvs : List (Text × α)) : (empty.putAll kvs).Valid := valid_empty.putAll kvs

/-- The table lists what was put, as a record does. -/
theorem lists_putAll (kvs : List (Text × α)) :
    (empty.putAll kvs).Lists ((kvs.map fun kv => Op.put kv.1 kv.2).foldl Op.record []) :=
  (lists_ofRows _ _ _ _).putAll valid_empty kvs

/-- What is recorded of puts are some of them. -/
theorem mem_of_mem_record {ins kvs : List (Text × α)} {e : Text × α}
    (h : e ∈ (kvs.map fun kv => Op.put kv.1 kv.2).foldl Op.record ins) : e ∈ ins ∨ e ∈ kvs := by
  induction kvs generalizing ins with
  | nil => exact Or.inl h
  | cons kv kvs ih =>
    rcases ih h with hrecord | hlater
    · rw [Op.record] at hrecord
      split at hrecord
      · obtain ⟨e', he', rfl⟩ := List.mem_map.mp hrecord
        split
        · exact Or.inr List.mem_cons_self
        · exact Or.inl he'
      · rcases List.mem_append.mp hrecord with hold | hnew
        · exact Or.inl hold
        · exact Or.inr (List.mem_singleton.mp hnew ▸ List.mem_cons_self)
    · exact Or.inr (List.mem_cons_of_mem _ hlater)

theorem mem_of_mem_toList_putAll {kvs : List (Text × α)} {e : Text × α} (h : e ∈ (empty.putAll kvs).toList) :
    e ∈ kvs := by
  rw [(lists_putAll kvs).toList_eq (valid_putAll kvs).size_pos] at h
  have hrecord := (sortBy_perm _ _).mem_iff.mp h
  exact (mem_of_mem_record hrecord).resolve_left List.not_mem_nil

/-- The keys of the entries are the keys of the table. -/
theorem map_fst_toList (t : Table α) : t.toList.map Prod.fst = t.keys := by
  rw [toList, List.map_map]
  rfl

/-- The entries are what can be looked up. -/
theorem Valid.mem_toList_iff {t : Table α} (h : t.Valid) {e : Text × α} : e ∈ t.toList ↔ t.get? e.1 = some e.2 := by
  rw [h.get?_eq_some_iff, toList, List.mem_map]
  simp only [Prod.ext_iff]

theorem Valid.nodup_toList {t : Table α} (h : t.Valid) : (t.toList.map Prod.fst).Nodup := by
  rw [map_fst_toList]
  exact h.nodup_keys

theorem Valid.length_toList {t : Table α} (h : t.Valid) : t.toList.length = t.count := by
  rw [h.count_eq, toList, List.length_map]

/-- There are no more entries than puts. -/
theorem length_toList_putAll_le (kvs : List (Text × α)) : (empty.putAll kvs).toList.length ≤ kvs.length := by
  have hsub : (empty.putAll kvs).toList.map Prod.fst ⊆ kvs.map Prod.fst := by
    intro key hkey
    obtain ⟨e, he, rfl⟩ := List.mem_map.mp hkey
    exact List.mem_map_of_mem (mem_of_mem_toList_putAll he)
  have hle := ((valid_putAll kvs).nodup_toList.subperm hsub).length_le
  rwa [List.length_map, List.length_map] at hle

theorem sortBy_of_pairwise {f : β → Nat} {l : List β} (h : l.Pairwise fun a b => f a ≤ f b) : sortBy f l = l :=
  List.mergeSort_of_pairwise (by simpa using h)

/-- Entries with different keys are listed in the order of insertion, sorted by row. -/
theorem toList_putAll_eq {kvs : List (Text × α)} (h : (kvs.map Prod.fst).Nodup) :
    (empty.putAll kvs).toList = sortBy (fun e => (empty.putAll kvs).index e.1) kvs := by
  have hlists := lists_putAll kvs
  rw [foldl_record_puts (by simpa using h), List.nil_append] at hlists
  exact hlists.toList_eq (valid_putAll kvs).size_pos

/-- Entries with different keys are all kept. -/
theorem toList_putAll_perm {kvs : List (Text × α)} (h : (kvs.map Prod.fst).Nodup) :
    (empty.putAll kvs).toList.Perm kvs := by
  rw [toList_putAll_eq h]
  exact sortBy_perm _ _

/-- **A table that is filled with the entries of a table, in their order, has them in this order.** -/
theorem toList_refill (kvs : List (Text × α)) :
    (empty.putAll (empty.putAll kvs).toList).toList = (empty.putAll kvs).toList := by
  have hvalid := valid_putAll kvs
  generalize hentries : (empty.putAll kvs).toList = entries
  have hvalid' := valid_putAll entries
  have hnodup : (entries.map Prod.fst).Nodup := hentries ▸ hvalid.nodup_toList
  have hsorted := toList_putAll_eq hnodup
  -- as many entries, so as many rows
  have hcount : (empty.putAll entries).count = (empty.putAll kvs).count := by
    rw [← hvalid'.length_toList, ← hvalid.length_toList, hentries]
    exact (toList_putAll_perm hnodup).length_eq
  have hsize : (empty.putAll entries).rows.size = (empty.putAll kvs).rows.size := by
    have hshape := (shaped_empty.putAll entries).shape_eq
    rw [hcount, ← (shaped_empty.putAll kvs).shape_eq] at hshape
    exact (Prod.mk.inj hshape).1
  have hindex (key : Text) : (empty.putAll entries).index key = (empty.putAll kvs).index key := by
    rw [index, index, hsize]
  -- and what is listed row by row is sorted by the row
  have hpairwise : entries.Pairwise fun a b => (empty.putAll kvs).index a.1 ≤ (empty.putAll kvs).index b.1 := by
    rw [← hentries, (lists_putAll kvs).toList_eq hvalid.size_pos]
    exact sortBy_pairwise _ _
  rw [hsorted]
  simp only [hindex]
  exact sortBy_of_pairwise hpairwise

end TinyScript.Table
