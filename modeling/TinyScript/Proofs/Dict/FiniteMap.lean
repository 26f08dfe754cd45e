import Mathlib.Data.Set.Card
import TinyScript.Proofs.Dict.Rehash

/-!
# Tables are finite maps

As long as no growth wraps around, a table answers like the finite map `latest` that its history describes
(`run_refines_latest`). `Valid` is what every operation keeps: each entry sits in the row of its key and carries the
table's generation, no row has a key twice, and the count is the number of entries. `Widened` says what growing does
when the number of rows is multiplied exactly, which is so whenever a table grows by itself (`autoGrown_cases`).
-/

namespace TinyScript.Table

open List

variable {key : Text} {factor : Int} {α : Type}

/-- What every operation on tables keeps. -/
structure Valid (t : Table α) : Prop where
  size_pos : 0 < t.rows.size
  index_eq : ∀ {i : Nat} {e : Entry α}, e ∈ t.row i → t.index e.key = i
  generation_eq : ∀ {e : Entry α}, e ∈ t.entries → e.generation = t.generation
  nodup : ∀ i, ((t.row i).map Entry.key).Nodup
  count_eq : t.count = t.entries.length

/-! ## Looking up -/

variable {es : List (Entry α)} {t : Table α}

/-- In a row without repeated keys, looking up a key finds the value of every entry that has it. -/
theorem find?_key_eq_some_iff (hnodup : (es.map Entry.key).Nodup) {v : α} :
    (es.find? fun e => e.key = key).map Entry.value = some v ↔ ∃ e ∈ es, e.key = key ∧ e.value = v := by
  induction es with
  | nil => simp
  | cons e es ih =>
    obtain ⟨hfresh, hnodup⟩ := List.nodup_cons.mp hnodup
    by_cases hkey : e.key = key
    · have hother : ∀ e' ∈ es, e'.key ≠ key := fun e' he' h =>
        hfresh (by rw [hkey, ← h]; exact mem_map_of_mem he')
      simp only [find?_cons, hkey, decide_true, Option.map_some, Option.some.injEq,
        mem_cons, exists_eq_or_imp, true_and]
      constructor
      · exact Or.inl
      · rintro (h | ⟨e', he', h, -⟩)
        · exact h
        · exact absurd h (hother e' he')
    · simp [hkey, ih hnodup]

/-- A key is looked up among all entries, not only in its row. -/
theorem Valid.get?_eq_some_iff (h : t.Valid) {v : α} :
    t.get? key = some v ↔ ∃ e ∈ t.entries, e.key = key ∧ e.value = v := by
  rw [get?, chain_eq_row, find?_key_eq_some_iff (h.nodup _)]
  constructor
  · rintro ⟨e, he, hkey, hv⟩
    exact ⟨e, mem_entries.mpr ⟨_, he⟩, hkey, hv⟩
  · rintro ⟨e, he, hkey, hv⟩
    obtain ⟨i, hi⟩ := mem_entries.mp he
    refine ⟨e, ?_, hkey, hv⟩
    rw [← hkey, h.index_eq hi]
    exact hi

theorem contains_iff (t : Table α) (key : Text) : t.contains key ↔ ∃ v, t.get? key = some v := by
  simp only [contains, get?, any_eq_true, Option.map_eq_some_iff]
  constructor
  · rintro ⟨e, he, hkey⟩
    cases hfind : (t.chain key).find? fun e => e.key = key with
    | none => exact absurd hkey (List.find?_eq_none.mp hfind e he)
    | some e' => exact ⟨e'.value, e', rfl, rfl⟩
  · rintro ⟨-, e, hfind, -⟩
    have hkey := find?_some hfind
    exact ⟨e, mem_of_find?_eq_some hfind, hkey⟩

theorem contains_eq_false_iff (t : Table α) (key : Text) :
    t.contains key = false ↔ t.get? key = none := by
  rw [← Bool.not_eq_true, contains_iff, Option.eq_none_iff_forall_ne_some, not_exists]

/-- The keys are those that have a value. -/
theorem mem_keys_iff (h : t.Valid) : key ∈ t.keys ↔ (t.get? key).isSome := by
  rw [Option.isSome_iff_exists]
  simp only [h.get?_eq_some_iff, keys, mem_map]
  constructor
  · rintro ⟨e, he, rfl⟩
    exact ⟨e.value, e, he, rfl, rfl⟩
  · rintro ⟨-, e, he, hkey, -⟩
    exact ⟨e, he, hkey⟩

/-- Keys of different rows differ, since their rows do. -/
theorem Valid.nodup_keys (h : t.Valid) : t.keys.Nodup := by
  rw [keys, entries_eq_flatMap, map_flatMap, nodup_flatMap]
  refine ⟨fun i _ => h.nodup i, ?_⟩
  refine List.nodup_range.imp_of_mem ?_
  intro i j _ _ hij key hi hj
  obtain ⟨e, he, rfl⟩ := List.mem_map.mp hi
  obtain ⟨e', he', hkey⟩ := List.mem_map.mp hj
  exact hij (by rw [← h.index_eq he, ← h.index_eq he', hkey])

/-! ## A new table -/

theorem row_ofRows (n : Nat) (h : n ≤ rowLimit) (capacity : Int) (autoGrow : Bool) (i : Nat) :
    (ofRows n h capacity autoGrow : Table α).row i = [] := by
  simp only [row_eq_getElem?, ofRows, Array.getElem?_replicate]
  split <;> rfl

/-- A new table has rows, and they are empty. -/
theorem exists_of_new? {rows capacity : Int} {autoGrow : Bool} (h : new? rows capacity autoGrow = some t) :
    ∃ n hn c, 0 < n ∧ t = ofRows n hn c autoGrow := by
  by_cases hn : (if rows < 1 then defaultRows else rows.toNat) ≤ rowLimit
  · rw [new?, dif_pos hn] at h
    refine ⟨_, hn, _, ?_, (Option.some.inj h).symm⟩
    split
    · decide
    · omega
  · rw [new?, dif_neg hn] at h
    cases h

theorem valid_ofRows {n : Nat} (hpos : 0 < n) (h : n ≤ rowLimit) (capacity : Int) (autoGrow : Bool) :
    (ofRows n h capacity autoGrow : Table α).Valid := by
  have hentries : (ofRows n h capacity autoGrow : Table α).entries = [] := by
    rw [eq_nil_iff_forall_not_mem]
    intro e he
    obtain ⟨i, hi⟩ := mem_entries.mp he
    rw [row_ofRows] at hi
    exact not_mem_nil hi
  refine ⟨?_, ?_, ?_, ?_, ?_⟩
  · rwa [ofRows, Array.size_replicate]
  · intro i e he
    rw [row_ofRows] at he
    exact absurd he not_mem_nil
  · intro e he
    rw [hentries] at he
    exact absurd he not_mem_nil
  · intro i
    rw [row_ofRows]
    exact nodup_nil
  · rw [hentries]
    rfl

theorem get?_ofRows (n : Nat) (h : n ≤ rowLimit) (capacity : Int) (autoGrow : Bool) (key : Text) :
    (ofRows n h capacity autoGrow : Table α).get? key = none := by
  rw [get?, chain_eq_row, row_ofRows]
  rfl

theorem valid_empty : (empty : Table α).Valid := valid_ofRows (by decide) _ _ _

theorem get?_empty (key : Text) : (empty : Table α).get? key = none := get?_ofRows _ _ _ _ key

/-! ## Changing one row -/

/-- A table with the row of a key changed, and with a new count. -/
def editRow (t : Table α) (key : Text) (f : List (Entry α) → List (Entry α)) (count : Nat) : Table α :=
  { t.modifyRow (t.index key) f with count := count }

@[simp] theorem index_editRow (t : Table α) (key : Text) (f : List (Entry α) → List (Entry α)) (n : Nat)
    (k : Text) : (t.editRow key f n).index k = t.index k := by
  simp [index, editRow]

/-- One row changes. -/
theorem row_editRow (h : 0 < t.rows.size) (key : Text) (f : List (Entry α) → List (Entry α)) (n j : Nat) :
    (t.editRow key f n).row j = if t.index key = j then f (t.row j) else t.row j := by
  have hrow : (t.editRow key f n).row j = (t.modifyRow (t.index key) f).row j := rfl
  by_cases hj : t.index key = j
  · rw [hrow, if_pos hj, ← hj, row_modifyRow_self (index_lt h key)]
  · rw [hrow, if_neg hj, row_modifyRow_of_ne hj]

/-- A row may be changed to any entries that belong there, if the count follows. -/
theorem Valid.editRow (h : t.Valid) {f : List (Entry α) → List (Entry α)} {n : Nat}
    (hmem : ∀ e ∈ f (t.row (t.index key)), t.index e.key = t.index key ∧ e.generation = t.generation)
    (hnodup : ((f (t.row (t.index key))).map Entry.key).Nodup)
    (hcount : n + (t.row (t.index key)).length = t.count + (f (t.row (t.index key))).length) :
    (t.editRow key f n).Valid := by
  have hrow {i : Nat} {e : Entry α} (he : e ∈ (t.editRow key f n).row i) :
      t.index e.key = i ∧ e.generation = t.generation := by
    rw [row_editRow h.size_pos] at he
    split at he
    · next hi =>
      subst hi
      exact hmem e he
    · exact ⟨h.index_eq he, h.generation_eq (mem_entries.mpr ⟨i, he⟩)⟩
  refine ⟨by simpa [Table.editRow] using h.size_pos, ?_, ?_, ?_, ?_⟩
  · intro i e he
    rw [index_editRow]
    exact (hrow he).1
  · intro e he
    obtain ⟨i, hi⟩ := mem_entries.mp he
    exact (hrow hi).2
  · intro i
    rw [row_editRow h.size_pos]
    split
    · next hi =>
      subst hi
      exact hnodup
    · exact h.nodup i
  · obtain ⟨before, after, hold, hnew⟩ := entries_modify (index_lt h.size_pos key)
    have hentries : (t.editRow key f n).entries = before ++ f (t.row (t.index key)) ++ after := hnew f
    have hlength := congrArg List.length hold
    have hold := h.count_eq
    simp only [length_append] at hlength
    simp only [hentries, length_append]
    show n = _
    omega

theorem get?_editRow (h : 0 < t.rows.size) (key key' : Text) (f : List (Entry α) → List (Entry α)) (n : Nat) :
    (t.editRow key f n).get? key'
      = if t.index key = t.index key'
        then ((f (t.chain key')).find? fun e => e.key = key').map Entry.value
        else t.get? key' := by
  rw [get?, chain_eq_row, index_editRow, row_editRow h]
  split
  · rfl
  · rfl

/-! ## Putting -/

theorem keys_replaceIn (key : Text) (v : α) (g : Generation) (es : List (Entry α)) :
    (replaceIn key v g es).map Entry.key = es.map Entry.key := by
  induction es with
  | nil => rfl
  | cons e es ih =>
    rw [replaceIn]
    split
    · rfl
    · rw [map_cons, ih, map_cons]

/-- An entry that was replaced has the generation of the table. -/
theorem mem_replaceIn {v : α} {g : Generation} {e : Entry α} (h : e ∈ replaceIn key v g es) :
    e ∈ es ∨ (e.key ∈ es.map Entry.key ∧ e.generation = g) := by
  induction es with
  | nil => exact absurd h not_mem_nil
  | cons e' es ih =>
    rw [replaceIn] at h
    split at h
    · rcases List.mem_cons.mp h with rfl | h
      · exact Or.inr ⟨by simp, rfl⟩
      · exact Or.inl (mem_cons_of_mem _ h)
    · rcases List.mem_cons.mp h with rfl | h
      · exact Or.inl mem_cons_self
      · rcases ih h with h | ⟨h, hg⟩
        · exact Or.inl (mem_cons_of_mem _ h)
        · exact Or.inr ⟨mem_cons_of_mem _ h, hg⟩

theorem find?_replaceIn (key key' : Text) (v : α) (g : Generation) (es : List (Entry α)) :
    (replaceIn key v g es).find? (fun e => e.key = key')
      = if key = key' then (es.find? fun e => e.key = key).map fun e => ⟨e.key, v, g⟩
        else es.find? fun e => e.key = key' := by
  induction es with
  | nil => simp [replaceIn]
  | cons e es ih =>
    rw [replaceIn]
    by_cases he : e.key = key
    · by_cases hkey : key = key'
      · simp [he, hkey]
      · simp [he, hkey]
    · rw [if_neg he, find?_cons, ih]
      by_cases hkey : key = key'
      · subst hkey
        simp [he]
      · simp [hkey, find?_cons]

/-- A table with a new entry at the end of the row of its key. -/
def add (t : Table α) (key : Text) (v : α) : Table α :=
  t.editRow key (· ++ [⟨key, v, t.generation⟩]) (t.count + 1)

/-- A table after it has grown by itself, if it had to and could. -/
def autoGrown (t : Table α) : Table α :=
  if t.autoGrow && t.isCrowded then (t.widen? growthFactor).elim t Prod.fst else t

/-- A key that is there gets a new value in its place, and another one is added. -/
theorem put_eq (t : Table α) (key : Text) (v : α) :
    (t.put key v).1 = if t.contains key then t.editRow key (replaceIn key v t.generation) t.count
      else (t.add key v).autoGrown := by
  have hadd : ({ t.append ⟨key, v, t.generation⟩ with count := t.count + 1 } : Table α) = t.add key v := rfl
  rw [put, hadd, autoGrown]
  split
  · rfl
  · dsimp only
    split
    · cases (t.add key v).widen? growthFactor <;> rfl
    · rfl

theorem Valid.replace (h : t.Valid) (key : Text) (v : α) :
    (t.editRow key (replaceIn key v t.generation) t.count).Valid := by
  refine h.editRow ?_ ?_ ?_
  · intro e he
    rcases mem_replaceIn he with he | ⟨he, hg⟩
    · exact ⟨h.index_eq he, h.generation_eq (mem_entries.mpr ⟨_, he⟩)⟩
    · obtain ⟨e', he', hkey⟩ := List.mem_map.mp he
      exact ⟨by rw [← hkey]; exact h.index_eq he', hg⟩
  · rw [keys_replaceIn]
    exact h.nodup _
  · have hlength := congrArg List.length (keys_replaceIn key v t.generation (t.row (t.index key)))
    rw [length_map, length_map] at hlength
    rw [hlength]

theorem get?_replace (h : t.Valid) (hkey : t.contains key) (v : α) (key' : Text) :
    (t.editRow key (replaceIn key v t.generation) t.count).get? key'
      = if key = key' then some v else t.get? key' := by
  rw [get?_editRow h.size_pos]
  by_cases hkk : key = key'
  · subst hkk
    obtain ⟨w, hw⟩ := (contains_iff t key).mp hkey
    obtain ⟨e, he, -⟩ := Option.map_eq_some_iff.mp hw
    rw [if_pos rfl, if_pos rfl, find?_replaceIn, if_pos rfl, he]
    rfl
  · rw [if_neg hkk, find?_replaceIn, if_neg hkk]
    split
    · rfl
    · rfl

/-- A key that is new goes to the end of its row. -/
theorem Valid.add (h : t.Valid) (hkey : t.contains key = false) (v : α) :
    (t.add key v).Valid := by
  refine h.editRow ?_ ?_ ?_
  · intro e he
    rcases List.mem_append.mp he with he | he
    · exact ⟨h.index_eq he, h.generation_eq (mem_entries.mpr ⟨_, he⟩)⟩
    · obtain rfl := List.mem_singleton.mp he
      exact ⟨rfl, rfl⟩
  · rw [map_append, nodup_append]
    refine ⟨h.nodup _, by simp, ?_⟩
    intro k hk k' hk' heq
    obtain ⟨e, he, rfl⟩ := List.mem_map.mp hk
    have hnone := (contains_eq_false_iff t key).mp hkey
    have hsome : t.get? key = some e.value :=
      h.get?_eq_some_iff.mpr ⟨e, mem_entries.mpr ⟨_, he⟩, by simpa [heq] using hk', rfl⟩
    rw [hnone] at hsome
    exact absurd hsome (by simp)
  · simp only [length_append, length_singleton]
    omega

theorem get?_add (h : t.Valid) (hkey : t.contains key = false) (v : α) (key' : Text) :
    (t.add key v).get? key' = if key = key' then some v else t.get? key' := by
  have hnone := (contains_eq_false_iff t key).mp hkey
  rw [Table.add, get?_editRow h.size_pos]
  by_cases hkk : key = key'
  · subst hkk
    rw [if_pos rfl, if_pos rfl, find?_append]
    rw [get?, Option.map_eq_none_iff] at hnone
    rw [hnone]
    simp
  · rw [if_neg hkk]
    split
    · rw [find?_append]
      simp [hkk, get?]
    · rfl

/-! ## Growing -/

/-- The rows of a table, for any way of spreading entries over them, hold those entries together. -/
theorem flatMap_filter_perm (es : List (Entry α)) (f : Entry α → Nat) (n : Nat) :
    ((List.range n).flatMap fun j => es.filter fun e => f e = j).Perm (es.filter fun e => f e < n) := by
  induction n with
  | zero => simp
  | succ n ih =>
    have hsplit := filter_append_perm (fun e => decide (f e < n)) (es.filter fun e => f e < n + 1)
    have hlow : (es.filter fun e => f e < n + 1).filter (fun e => decide (f e < n))
        = es.filter fun e => f e < n := by
      rw [filter_filter]
      refine filter_congr fun e _ => ?_
      rw [← Bool.decide_and, decide_eq_decide]
      omega
    have hhigh : (es.filter fun e => f e < n + 1).filter (fun e => !decide (f e < n))
        = es.filter fun e => f e = n := by
      rw [filter_filter]
      refine filter_congr fun e _ => ?_
      rw [← decide_not, ← Bool.decide_and, decide_eq_decide]
      omega
    rw [hlow, hhigh] at hsplit
    rw [range_succ, flatMap_append, flatMap_singleton]
    exact (ih.append_right _).trans hsplit

/-- A table with rows added or cut off and another capacity, before its entries are placed anew. -/
def wide (t : Table α) (n : Nat) (h : n ≤ rowLimit) (capacity : Int) : Table α :=
  { t.resize n h with capacity := capacity }

@[simp] theorem size_wide (t : Table α) {n : Nat} (h : n ≤ rowLimit) (c : Int) : (t.wide n h c).rows.size = n := by
  simp only [wide, resize, Array.size_append, Array.size_extract, Array.size_replicate]
  omega

/-- What a table becomes when its number of rows is multiplied by a factor greater than one. -/
inductive Widened (t : Table α) : Table α → Prop
  | mk {k n : Nat} (hk : 1 < k) (hn : n ≤ rowLimit) (hsize : n = t.rows.size * k) (c : Int) :
    Widened t (t.wide n hn c).rehash

/-- A product that fits in a word does not wrap around. -/
theorem wordMul_eq {a b : Int} (hlow : 0 ≤ a * b) (hhigh : a * b < 0x8000000000000000) : wordMul a b = a * b :=
  Int.bmod_eq_of_le_mul_two (by omega) (by omega)

/-- A table grows to any number of rows that an array can have. -/
theorem widen?_of_range (t : Table α) {n : Nat} (h : wordMul t.rows.size factor = n)
    (hn : n ≤ rowLimit) :
    t.widen? factor = some ((t.wide n hn (wordMul t.capacity factor)).rehash, ⟨t.count, t.rows.size, n⟩) := by
  have hrange : (0 : Int) ≤ n ∧ (n : Int) ≤ rowLimit := ⟨Int.natCast_nonneg n, Int.ofNat_le.mpr hn⟩
  simp only [widen?, h, dif_pos hrange, Int.toNat_natCast]
  rfl

theorem widen?_of_not_range (t : Table α)
    (h : ¬ (0 ≤ wordMul t.rows.size factor ∧ wordMul t.rows.size factor ≤ rowLimit)) : t.widen? factor = none :=
  dif_neg h

/-- Widening by a factor that does not wrap around multiplies the number of rows exactly. -/
theorem exists_of_widen? {u : Table α} {g : Growth} {k : Nat} (hword : t.rows.size * (k : Int) < 0x8000000000000000)
    (h : t.widen? k = some (u, g)) :
    ∃ n hn c, n = t.rows.size * k ∧ u = (t.wide n hn c).rehash := by
  rw [← Int.natCast_mul] at hword
  have hmul : wordMul t.rows.size k = ((t.rows.size * k : Nat) : Int) := by
    rw [wordMul_eq (by rw [← Int.natCast_mul]; omega) (by rwa [← Int.natCast_mul]), Int.natCast_mul]
  by_cases hn : t.rows.size * k ≤ rowLimit
  · rw [widen?_of_range t hmul hn] at h
    exact ⟨_, hn, _, rfl, (Prod.mk.inj (Option.some.inj h)).1.symm⟩
  · rw [widen?_of_not_range t (by rw [hmul]; omega)] at h
    cases h

theorem widened_of_widen? {u : Table α} {g : Growth} (hf : 1 < factor)
    (hword : t.rows.size * factor < 0x8000000000000000) (h : t.widen? factor = some (u, g)) : t.Widened u := by
  obtain ⟨k, rfl⟩ := Int.eq_ofNat_of_zero_le (show 0 ≤ factor by omega)
  obtain ⟨n, hn, c, hsize, rfl⟩ := exists_of_widen? hword h
  exact .mk (by omega) hn hsize c

/-- A table that grows by itself multiplies its rows exactly. -/
theorem autoGrown_cases (t : Table α) : t.autoGrown = t ∨ t.Widened t.autoGrown := by
  rw [autoGrown]
  split
  · cases h : t.widen? growthFactor with
    | none => exact Or.inl rfl
    | some p =>
      have hfits := t.fits
      refine Or.inr (widened_of_widen? (by decide) ?_ h)
      rw [rowLimit] at hfits
      rw [growthFactor]
      omega
  · exact Or.inl rfl

section Wide

variable {t : Table α} (h : t.Valid) {n : Nat} (hn : n ≤ rowLimit) (hle : t.rows.size ≤ n) (c : Int)

include hle in
theorem entries_wide : (t.wide n hn c).entries = t.entries := by
  simp [entries, wide, resize, Array.extract_eq_self_of_le hle]

theorem alike_rehash_wide : Alike { t.wide n hn c with generation := t.generation.flip } (t.wide n hn c).rehash :=
  alike_rehash (t.wide n hn c)

theorem size_rehash_wide : (t.wide n hn c).rehash.rows.size = n :=
  (alike_rehash_wide hn c).size.trans (size_wide t hn c)

theorem index_rehash_wide (key : Text) : (t.wide n hn c).rehash.index key = (hashText key).toNat % n := by
  rw [index, size_rehash_wide]

include h hle

theorem Valid.pos_wide : 0 < n := Nat.lt_of_lt_of_le h.size_pos hle

/-- The rows of the wider table, in the order of the table. -/
theorem Valid.row_wide {j : Nat} (hj : j < n) :
    (t.wide n hn c).rehash.row j
      = (t.entries.filter fun e => (hashText e.key).toNat % n = j).map (tagged t.generation.flip) := by
  have hgen : ∀ e ∈ (t.wide n hn c).entries, e.generation = (t.wide n hn c).generation := by
    intro e he
    rw [entries_wide hn hle] at he
    exact h.generation_eq he
  have hpos : 0 < (t.wide n hn c).rows.size := by simpa using h.pos_wide hle
  rw [row_rehash hpos hgen (by simpa using hj), entries_wide hn hle]
  simp only [index, size_wide]
  rfl

theorem Valid.entries_wide_perm :
    (t.wide n hn c).rehash.entries.Perm (t.entries.map (tagged t.generation.flip)) := by
  have hrows : (t.wide n hn c).rehash.entries = (List.range n).flatMap fun j =>
      (t.entries.filter fun e => (hashText e.key).toNat % n = j).map (tagged t.generation.flip) := by
    rw [entries_eq_flatMap, size_rehash_wide]
    exact flatMap_congr fun j hj => h.row_wide hn hle c (List.mem_range.mp hj)
  rw [hrows, ← map_flatMap]
  refine List.Perm.map _ ((flatMap_filter_perm _ _ _).trans ?_)
  rw [List.filter_eq_self.mpr]
  intro e _
  simpa using Nat.mod_lt _ (h.pos_wide hle)

theorem Valid.rehash_wide : (t.wide n hn c).rehash.Valid := by
  have halike := alike_rehash_wide (t := t) hn c
  refine ⟨?_, ?_, ?_, ?_, ?_⟩
  · rw [size_rehash_wide]
    exact h.pos_wide hle
  · intro j e he
    have hj : j < n := by
      by_contra hj
      rw [row_eq_nil (by rw [size_rehash_wide]; omega)] at he
      exact not_mem_nil he
    rw [h.row_wide hn hle c hj] at he
    obtain ⟨e', he', rfl⟩ := List.mem_map.mp he
    rw [index_rehash_wide]
    exact of_decide_eq_true (List.mem_filter.mp he').2
  · intro e he
    obtain ⟨e', -, rfl⟩ := List.mem_map.mp ((h.entries_wide_perm hn hle c).mem_iff.mp he)
    rw [halike.generation]
    rfl
  · intro j
    by_cases hj : j < n
    · rw [h.row_wide hn hle c hj, map_map]
      exact h.nodup_keys.sublist ((filter_sublist).map _)
    · rw [row_eq_nil (by rw [size_rehash_wide]; omega)]
      exact nodup_nil
  · rw [halike.count, (h.entries_wide_perm hn hle c).length_eq, length_map]
    exact h.count_eq

/-- Growing changes nothing that is looked up. -/
theorem Valid.get?_rehash_wide (key : Text) : (t.wide n hn c).rehash.get? key = t.get? key := by
  refine Option.ext fun v => ?_
  rw [(h.rehash_wide hn hle c).get?_eq_some_iff, h.get?_eq_some_iff]
  simp only [(h.entries_wide_perm hn hle c).mem_iff, mem_map]
  constructor
  · rintro ⟨-, ⟨e, he, rfl⟩, hkey, hv⟩
    exact ⟨e, he, hkey, hv⟩
  · rintro ⟨e, he, hkey, hv⟩
    exact ⟨_, ⟨e, he, rfl⟩, hkey, hv⟩

end Wide

theorem le_of_factor {r k n : Nat} (hk : 1 < k) (hn : n = r * k) : r ≤ n := by
  rw [hn]
  exact Nat.le_mul_of_pos_right _ (by omega)

theorem Widened.valid {u : Table α} (hu : t.Widened u) (h : t.Valid) : u.Valid := by
  obtain ⟨hk, hn, hsize, c⟩ := hu
  exact h.rehash_wide hn (le_of_factor hk hsize) c

theorem Widened.get?_eq {u : Table α} (hu : t.Widened u) (h : t.Valid) (key : Text) : u.get? key = t.get? key := by
  obtain ⟨hk, hn, hsize, c⟩ := hu
  exact h.get?_rehash_wide hn (le_of_factor hk hsize) c key

/-- Neither does growing by itself. -/
theorem Valid.autoGrown (h : t.Valid) : t.autoGrown.Valid ∧ ∀ key, t.autoGrown.get? key = t.get? key := by
  rcases t.autoGrown_cases with hsame | hwide
  · rw [hsame]
    exact ⟨h, fun _ => rfl⟩
  · exact ⟨hwide.valid h, hwide.get?_eq h⟩

theorem Valid.put (h : t.Valid) (key : Text) (v : α) : (t.put key v).1.Valid := by
  rw [put_eq]
  split
  · exact h.replace key v
  · next hkey => exact (h.add (by simpa using hkey) v).autoGrown.1

/-- **Putting** changes what is found for its own key. -/
theorem Valid.get?_put (h : t.Valid) (key : Text) (v : α) (key' : Text) :
    (t.put key v).1.get? key' = if key = key' then some v else t.get? key' := by
  rw [put_eq]
  by_cases hkey : t.contains key
  · rw [if_pos hkey]
    exact get?_replace h hkey v key'
  · have hkey : t.contains key = false := by simpa using hkey
    rw [hkey, if_neg Bool.false_ne_true, (h.add hkey v).autoGrown.2]
    exact get?_add h hkey v key'

/-! ## Removing -/

theorem find?_eraseP_of_ne {key' : Text} (h : key ≠ key') (es : List (Entry α)) :
    (es.eraseP fun e => e.key = key).find? (fun e => e.key = key') = es.find? fun e => e.key = key' := by
  induction es with
  | nil => rfl
  | cons e es ih =>
    by_cases he : e.key = key
    · simp [he, h]
    · rw [eraseP_cons_of_neg (by simpa using he), find?_cons, find?_cons, ih]

theorem find?_eraseP_self (h : (es.map Entry.key).Nodup) :
    (es.eraseP fun e => e.key = key).find? (fun e => e.key = key) = none := by
  induction es with
  | nil => rfl
  | cons e es ih =>
    obtain ⟨hfresh, hnodup⟩ := List.nodup_cons.mp h
    by_cases he : e.key = key
    · rw [eraseP_cons_of_pos (by simpa using he), find?_eq_none]
      intro e' he' hkey
      exact hfresh (by rw [he, ← of_decide_eq_true hkey]; exact mem_map_of_mem he')
    · rw [eraseP_cons_of_neg (by simpa using he), find?_cons, ih hnodup]
      simp [he]

/-- A table without a key that it contains. -/
def remove (t : Table α) (key : Text) : Table α :=
  t.editRow key (·.eraseP fun e => e.key = key) (t.count - 1)

theorem erase?_eq (t : Table α) (key : Text) :
    t.erase? key = if t.contains key then some (t.remove key) else none := rfl

theorem Valid.remove (h : t.Valid) (hkey : t.contains key) : (t.remove key).Valid := by
  obtain ⟨e, he, hek⟩ := List.any_eq_true.mp hkey
  refine h.editRow ?_ ?_ ?_
  · intro e he
    have he := mem_of_mem_eraseP he
    exact ⟨h.index_eq he, h.generation_eq (mem_entries.mpr ⟨_, he⟩)⟩
  · exact (h.nodup _).sublist (List.eraseP_sublist.map _)
  · have hlength := length_eraseP_of_mem (p := fun e => decide (e.key = key)) he hek
    have hpos : 0 < (t.row (t.index key)).length := length_pos_of_mem he
    have hcount : 0 < t.count := by
      rw [h.count_eq]
      exact length_pos_of_mem (mem_entries.mpr ⟨_, he⟩)
    rw [← chain_eq_row] at hpos ⊢
    omega

/-- **Removing** makes its own key absent. -/
theorem Valid.get?_remove (h : t.Valid) (key key' : Text) :
    (t.remove key).get? key' = if key = key' then none else t.get? key' := by
  rw [Table.remove, get?_editRow h.size_pos]
  by_cases hkk : key = key'
  · subst hkk
    rw [if_pos rfl, if_pos rfl, chain_eq_row, find?_eraseP_self (h.nodup _)]
    rfl
  · rw [if_neg hkk, find?_eraseP_of_ne hkk]
    split
    · rfl
    · rfl

/-! ## Histories -/

/-- What is refused changes nothing. -/
theorem Op.apply_of_refused (op : Op α) {e : TableError} (h : (op.apply t).2 = some e) : (op.apply t).1 = t := by
  cases op with
  | put key v =>
    simp only [apply] at h ⊢
    split at h
    · next hempty => rw [if_pos hempty]
    · cases h
  | erase key =>
    simp only [apply] at h ⊢
    split at h
    · next hempty => rw [if_pos hempty]
    · next hempty =>
      rw [if_neg hempty]
      split at h
      · cases h
      · rfl
  | grow factor =>
    simp only [apply] at h ⊢
    split at h
    · cases h
    · rfl

/-- What a history makes of a table. -/
def run (t : Table α) (ops : List (Op α)) : Table α := ops.foldl (fun t op => (op.apply t).1) t

/-- The value that a history, given with its latest operation first, leaves under a key: that of the
latest `put` of the key, unless the key was removed after it. -/
def latest (key : Text) : List (Op α) → Option α
  | [] => none
  | .put k v :: ops => if k = key then some v else latest key ops
  | .erase k :: ops => if k = key then none else latest key ops
  | .grow _ :: ops => latest key ops

/-- The number of rows times the factor is a signed word of 64 bits. -/
def Op.InRange (t : Table α) : Op α → Prop
  | grow factor => t.rows.size * factor < 0x8000000000000000
  | _ => True

/-- No growth of a history wraps around. -/
def InRange : Table α → List (Op α) → Prop
  | _, [] => True
  | t, op :: ops => op.InRange t ∧ InRange (op.apply t).1 ops

/-- Factors below `2 ^ 18` do not wrap around, however many rows there are. -/
theorem inRange_of_factors {ops : List (Op α)} (h : ∀ factor, .grow factor ∈ ops → factor < 0x40000) :
    t.InRange ops := by
  induction ops generalizing t with
  | nil => trivial
  | cons op ops ih =>
    refine ⟨?_, ih fun factor hmem => h factor (mem_cons_of_mem _ hmem)⟩
    cases op with
    | grow factor =>
      have hfactor := h factor mem_cons_self
      have hfits : (t.rows.size : Int) ≤ 0x200000000000 := Int.ofNat_le.mpr t.fits
      show (t.rows.size : Int) * factor < 0x8000000000000000
      by_cases hneg : factor ≤ 0
      · have hle := Int.mul_nonpos_of_nonneg_of_nonpos (Int.natCast_nonneg t.rows.size) hneg
        omega
      · have hle := Int.mul_le_mul hfits (show factor ≤ 0x3ffff by omega) (by omega) (by decide)
        omega
    | _ => trivial

theorem Valid.isEmpty_rows (h : t.Valid) : t.rows.isEmpty = false := by
  rw [Array.isEmpty_eq_false_iff_exists_mem]
  exact ⟨_, Array.getElem_mem h.size_pos⟩

theorem Valid.put_apply (h : t.Valid) (key : Text) (v : α) :
    (Op.put key v).apply t = ((t.put key v).1, none) := by
  simp only [Op.apply, h.isEmpty_rows, Bool.false_eq_true, if_false]

theorem Valid.erase_apply (h : t.Valid) (key : Text) :
    (Op.erase key).apply t
      = if t.contains key then (t.remove key, none) else (t, some .keyNotFound) := by
  simp only [Op.apply, h.isEmpty_rows, Bool.false_eq_true, if_false, erase?_eq]
  split
  · next h => split at h <;> simp_all
  · next h => split at h <;> simp_all

theorem Op.grow_apply_of_le (h : factor ≤ 1) :
    (Op.grow factor : Op α).apply t = (t, some (.badFactor factor)) := by
  simp only [apply, Table.grow, if_pos h]

/-- Growing by a factor greater than one widens the table, or is refused for the number of rows. -/
theorem Op.grow_apply_cases (hf : 1 < factor) (hrange : (Op.grow factor).InRange t) :
    (Op.grow factor).apply t = (t, some .rowsOutOfRange) ∨
      ∃ u, t.Widened u ∧ (Op.grow factor).apply t = (u, none) := by
  simp only [apply, Table.grow, if_neg (Int.not_le.mpr hf)]
  cases h : t.widen? factor with
  | none => exact Or.inl rfl
  | some p => exact Or.inr ⟨p.1, widened_of_widen? hf hrange h, rfl⟩

theorem Valid.apply (h : t.Valid) {op : Op α} (hrange : op.InRange t) : (op.apply t).1.Valid := by
  cases op with
  | put key v =>
    rw [h.put_apply]
    exact h.put key v
  | erase key =>
    rw [h.erase_apply]
    split
    · next hkey => exact h.remove hkey
    · exact h
  | grow factor =>
    by_cases hf : factor ≤ 1
    · rw [Op.grow_apply_of_le hf]
      exact h
    · rcases Op.grow_apply_cases (Int.not_le.mp hf) hrange with heq | ⟨u, hu, heq⟩
      · rw [heq]
        exact h
      · rw [heq]
        exact hu.valid h

/-- What one operation does to the answers of a table. -/
theorem Valid.get?_apply (h : t.Valid) {ops : List (Op α)} (hget : t.get? key = latest key ops)
    {op : Op α} (hrange : op.InRange t) : (op.apply t).1.get? key = latest key (op :: ops) := by
  cases op with
  | put k v =>
    rw [h.put_apply, latest, ← hget]
    exact h.get?_put k v key
  | erase k =>
    rw [h.erase_apply, latest, ← hget]
    split
    · exact h.get?_remove k key
    · next hkey =>
      split
      · next hk =>
        subst hk
        exact (contains_eq_false_iff t k).mp (by simpa using hkey)
      · rfl
  | grow factor =>
    rw [latest, ← hget]
    by_cases hf : factor ≤ 1
    · rw [Op.grow_apply_of_le hf]
    · rcases Op.grow_apply_cases (Int.not_le.mp hf) hrange with heq | ⟨u, hu, heq⟩
      · rw [heq]
      · rw [heq]
        exact hu.get?_eq h key

/-- Every history that does not wrap around keeps a table valid. -/
theorem Valid.run (h : t.Valid) {ops : List (Op α)} (hrange : t.InRange ops) : (t.run ops).Valid := by
  induction ops generalizing t with
  | nil => exact h
  | cons op ops ih => exact ih (h.apply hrange.1) hrange.2

/-- A history on top of another one, the latter given with its latest operation first. -/
theorem Valid.get?_run (h : t.Valid) {ops before : List (Op α)} (hrange : t.InRange ops)
    (hget : t.get? key = latest key before) : (t.run ops).get? key = latest key (ops.reverse ++ before) := by
  induction ops generalizing t before with
  | nil => exact hget
  | cons op ops ih =>
    rw [reverse_cons, append_assoc]
    exact ih (h.apply hrange.1) hrange.2 (h.get?_apply hget hrange.1)

/-- **A table refines the finite map of its history.** After any history in which no growth wraps around,
starting from an empty table of any size that grows by itself or not, with `value` the map that the history
describes:

* looking up a key gives its value;
* removing a key is refused exactly if the key has no value, and growing exactly if the factor is not
  greater than one or there cannot be so many rows; what is refused changes nothing;
* the count is the number of keys with a value; each of them is listed once, and with its value;
* each entry sits in the row of its key and carries the generation of the table. -/
theorem run_refines_latest {rows capacity : Int} {autoGrow : Bool} {new : Table α}
    (hnew : new? rows capacity autoGrow = some new) {ops : List (Op α)} (hrange : new.InRange ops) :
    let t := new.run ops
    let value := fun key => latest key ops.reverse
    (∀ key, t.lookup key = .ok (value key)) ∧
    (∀ key, ((Op.erase key).apply t).2 = some .keyNotFound ↔ value key = none) ∧
    (∀ factor, ((Op.grow factor).apply t).2 = some (.badFactor factor) ↔ factor ≤ 1) ∧
    (∀ (op : Op α) e, (op.apply t).2 = some e → (op.apply t).1 = t) ∧
    t.count = {key | (value key).isSome}.ncard ∧
    t.keys.Nodup ∧ (∀ key, key ∈ t.keys ↔ (value key).isSome) ∧
    t.toList.map Prod.fst = t.keys ∧ (∀ key v, (key, v) ∈ t.toList ↔ value key = some v) ∧
    (∀ (i : Nat) (hi : i < t.rows.size), ∀ e ∈ t.rows[i],
      t.index e.key = i ∧ e.generation = t.generation) := by
  intro t value
  obtain ⟨n, hn, c, hpos, rfl⟩ := exists_of_new? hnew
  have hvalid : t.Valid := (valid_ofRows hpos hn c autoGrow).run hrange
  have hget (key : Text) : t.get? key = value key := by
    have hempty : (ofRows n hn c autoGrow : Table α).get? key = latest key [] := get?_ofRows n hn c autoGrow key
    have hrun := (valid_ofRows hpos hn c autoGrow).get?_run hrange hempty
    rwa [append_nil] at hrun
  have hcontains (key : Text) : t.contains key = false ↔ value key = none := by
    rw [contains_eq_false_iff, hget]
  have hkeys (key : Text) : key ∈ t.keys ↔ (value key).isSome := by
    rw [mem_keys_iff hvalid, hget]
  refine ⟨?_, ?_, ?_, ?_, ?_, hvalid.nodup_keys, hkeys, ?_, ?_, ?_⟩
  · intro key
    rw [lookup, hvalid.isEmpty_rows, if_neg Bool.false_ne_true, hget]
  · intro key
    rw [hvalid.erase_apply, ← hcontains]
    cases t.contains key <;> simp
  · intro factor
    by_cases hf : factor ≤ 1
    · simp [Op.grow_apply_of_le hf, hf]
    · simp only [hf, iff_false, Op.apply, grow, if_false]
      cases t.widen? factor <;> simp
  · intro op e he
    exact op.apply_of_refused he
  · -- the keys are a duplicate free list of the set counted
    have hset : {key | (value key).isSome} = (t.keys.toFinset : Set Text) := by
      ext key
      simp [hkeys]
    rw [hset, Set.ncard_coe_finset, toFinset_card_of_nodup hvalid.nodup_keys, keys, length_map]
    exact hvalid.count_eq
  · rw [toList, keys, map_map]
    rfl
  · intro key v
    rw [← hget, hvalid.get?_eq_some_iff, toList, mem_map]
    simp only [Prod.mk.injEq]
  · intro i hi e he
    have he : e ∈ t.row i := by simpa [row_eq_getElem?, hi] using he
    exact ⟨hvalid.index_eq he, hvalid.generation_eq (mem_entries.mpr ⟨i, he⟩)⟩

/-- A key that is put again after a growth, and one that is removed. -/
theorem run_refines_latest_sample :
    let ops : List (Op Nat) := [.put "a" 1, .put "b" 2, .grow 3, .put "a" 4, .erase "b"]
    ∃ new : Table Nat, new? 1 0 true = some new ∧ new.InRange ops ∧
      (new.run ops).lookup "a" = .ok (some 4) ∧ (new.run ops).lookup "b" = .ok none := by
  intro ops
  have hrange (new : Table Nat) : new.InRange ops := inRange_of_factors fun factor hmem => by simp_all [ops]
  have hnew : new? 1 0 true = some (ofRows 1 (by decide) 200 true : Table Nat) := rfl
  have hrefines := run_refines_latest hnew (hrange _)
  exact ⟨_, hnew, hrange _, hrefines.1 "a", hrefines.1 "b"⟩

/-- Twenty rows times `2 ^ 62` wrap around to none. The growth is not refused, and the key that was put is
lost. -/
theorem run_grow_loses_key :
    let ops : List (Op Nat) := [.put "a" 1, .grow 0x4000000000000000]
    let t := (empty : Table Nat).run ops
    new? 0 0 true = some (empty : Table Nat) ∧ latest "a" ops.reverse = some 1 ∧
      ((Op.grow 0x4000000000000000).apply ((empty : Table Nat).run [.put "a" 1])).2 = none ∧
      t.keys = [] ∧ t.count = 1 ∧ t.lookup "a" = .error .noRows := by
  refine ⟨rfl, rfl, ?_, ?_, ?_, ?_⟩
  all_goals decide +kernel

end TinyScript.Table
