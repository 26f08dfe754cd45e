import TinyScript.Proofs.Dict.FiniteMap

/-!
# The order of a table

Going through a table gives its keys sorted by row and, within a row, in the order in which they were inserted. So two
things fix the order, the history and the number of rows, as long as no growth wraps around.

The history is kept as the list `inserted`. `Lists t ins` says that each row of `t` holds, in order, the part of `ins`
that belongs there. Growing keeps it since the keys of one row come from one row of the narrower table.
-/

namespace TinyScript

open List

/-- The key and the value of an entry. -/
def Entry.pair {α : Type} (e : Entry α) : Text × α := (e.key, e.value)

namespace Table

variable {α β : Type}

/-! ## Stable sorting by a number -/

/-- A list stably sorted by a number that each of its members has. -/
def sortBy (f : β → Nat) (l : List β) : List β := l.mergeSort fun a b => f a ≤ f b

section SortBy

variable (f : β → Nat) (l : List β)

theorem sortBy_perm : (sortBy f l).Perm l := mergeSort_perm l _

theorem sortBy_pairwise : (sortBy f l).Pairwise fun a b => f a ≤ f b := by
  have hsorted : (sortBy f l).Pairwise fun a b => decide (f a ≤ f b) :=
    pairwise_mergeSort (by simpa using fun a b c => Nat.le_trans)
      (by simpa using fun a b => Nat.le_total (f a) (f b)) l
  simpa using hsorted

/-- The members with one number keep their order. -/
theorem filter_sortBy (i : Nat) : ((sortBy f l).filter fun a => f a = i) = l.filter fun a => f a = i := by
  have hpart : (l.filter fun a => f a = i).Sublist (sortBy f l) := by
    refine sublist_mergeSort (by simpa using fun a b c => Nat.le_trans)
      (by simpa using fun a b => Nat.le_total (f a) (f b)) ?_ filter_sublist
    refine pairwise_of_forall_mem_list fun a ha b hb => ?_
    have ha : f a = i := of_decide_eq_true (List.mem_filter.mp ha).2
    have hb : f b = i := of_decide_eq_true (List.mem_filter.mp hb).2
    simp [ha, hb]
  have hsub := hpart.filter fun a => f a = i
  rw [filter_filter, filter_congr (q := fun a => decide (f a = i)) (by simp)] at hsub
  exact (hsub.eq_of_length (((sortBy_perm f l).filter _).length_eq.symm)).symm

end SortBy

/-- In a sorted list the members with the number `n` come behind those with a smaller one. -/
theorem filter_lt_succ {f : β → Nat} {l : List β} (h : l.Pairwise fun a b => f a ≤ f b) (n : Nat) :
    (l.filter fun a => f a < n + 1) = (l.filter fun a => f a < n) ++ l.filter fun a => f a = n := by
  induction l with
  | nil => rfl
  | cons a l ih =>
    obtain ⟨hle, hrest⟩ := List.pairwise_cons.mp h
    have ih := ih hrest
    simp only [filter_cons, decide_eq_true_eq]
    rcases Nat.lt_trichotomy (f a) n with hlt | heq | hgt
    · rw [if_pos (by omega), if_pos hlt, if_neg (by omega), ih, cons_append]
    · -- nothing behind `a` has a smaller number
      have hnone : (l.filter fun a => f a < n) = [] := by
        refine List.filter_eq_nil_iff.mpr fun b hb => ?_
        have hab := hle b hb
        simp only [decide_eq_true_eq]
        omega
      rw [if_pos (by omega), if_neg (by omega), if_pos heq, ih, hnone]
      rfl
    · rw [if_neg (by omega), if_neg (by omega), if_neg (by omega), ih]

theorem flatMap_filter_of_pairwise {f : β → Nat} {l : List β} (h : l.Pairwise fun a b => f a ≤ f b)
    (n : Nat) : ((List.range n).flatMap fun i => l.filter fun a => f a = i) = l.filter fun a => f a < n := by
  induction n with
  | zero => simp
  | succ n ih => rw [range_succ, flatMap_append, flatMap_singleton, ih, filter_lt_succ h]

/-- Sorting by a number below `n` is dealing out into `n` heaps and stacking them. -/
theorem sortBy_eq_flatMap {f : β → Nat} {l : List β} {n : Nat} (h : ∀ a ∈ l, f a < n) :
    sortBy f l = (List.range n).flatMap fun i => l.filter fun a => f a = i := by
  have hall : ((sortBy f l).filter fun a => f a < n) = sortBy f l := by
    refine List.filter_eq_self.mpr fun a ha => ?_
    simpa using h a ((sortBy_perm f l).mem_iff.mp ha)
  rw [← hall, ← flatMap_filter_of_pairwise (sortBy_pairwise f l)]
  simp only [filter_sortBy]

/-! ## Insertion order -/

/-- What an operation makes of the list of keys and values in the order of insertion. -/
def Op.record (ins : List (Text × α)) : Op α → List (Text × α)
  | put key v =>
    if key ∈ ins.map Prod.fst then ins.map fun kv => if kv.1 = key then (key, v) else kv
    else ins ++ [(key, v)]
  | erase key => ins.filter fun kv => kv.1 ≠ key
  | grow _ => ins

/-- The keys present after a history, with their values, in the order of insertion. -/
def inserted (ops : List (Op α)) : List (Text × α) := ops.foldl Op.record []

/-- Each row holds, in order, what belongs to it of a list of keys and values. -/
def Lists (t : Table α) (ins : List (Text × α)) : Prop :=
  ∀ i, (t.row i).map Entry.pair = ins.filter fun kv => t.index kv.1 = i

theorem lists_ofRows (n : Nat) (h : n ≤ rowLimit) (capacity : Int) (autoGrow : Bool) :
    (ofRows n h capacity autoGrow : Table α).Lists [] := by
  intro i
  rw [row_ofRows]
  rfl

variable {ins : List (Text × α)} {t : Table α}

theorem Lists.mem_keys_iff (h : t.Lists ins) (key : Text) :
    key ∈ ins.map Prod.fst ↔ t.contains key := by
  have hrow := h (t.index key)
  have hcontains : t.contains key ↔ key ∈ ((t.row (t.index key)).map Entry.pair).map Prod.fst := by
    simp [contains, chain_eq_row, Entry.pair]
  rw [hcontains, hrow]
  simp only [mem_map, mem_filter, decide_eq_true_eq]
  constructor
  · rintro ⟨kv, hkv, rfl⟩
    exact ⟨kv, ⟨hkv, rfl⟩, rfl⟩
  · rintro ⟨kv, ⟨hkv, -⟩, rfl⟩
    exact ⟨kv, hkv, rfl⟩

/-- The list of what a table holds, read row by row. -/
theorem toList_eq_flatMap (t : Table α) :
    t.toList = (List.range t.rows.size).flatMap fun i => (t.row i).map Entry.pair := by
  rw [toList, entries_eq_flatMap, map_flatMap]
  rfl

theorem Lists.toList_eq (h : t.Lists ins) (hsize : 0 < t.rows.size) :
    t.toList = sortBy (fun kv => t.index kv.1) ins := by
  rw [toList_eq_flatMap, sortBy_eq_flatMap fun kv _ => index_lt hsize kv.1]
  simp only [h _]

/-! ## Changing one row -/

theorem map_pair_replaceIn {key : Text} {v : α} {g : Generation} {es : List (Entry α)}
    (hnodup : (es.map Entry.key).Nodup) :
    (replaceIn key v g es).map Entry.pair
      = (es.map Entry.pair).map fun kv => if kv.1 = key then (key, v) else kv := by
  induction es with
  | nil => rfl
  | cons e es ih =>
    obtain ⟨hfresh, hnodup⟩ := List.nodup_cons.mp hnodup
    rw [replaceIn, map_cons, map_cons]
    by_cases hkey : e.key = key
    · -- the key does not come again, so nothing else changes
      have hrest : (es.map Entry.pair).map (fun kv => if kv.1 = key then (key, v) else kv)
          = es.map Entry.pair := by
        rw [map_map]
        refine map_congr_left fun e' he' => ?_
        have hne : e'.key ≠ key := fun h => hfresh (by rw [hkey, ← h]; exact mem_map_of_mem he')
        simp [Entry.pair, hne]
      rw [if_pos hkey, hrest]
      simp [Entry.pair, hkey]
    · rw [if_neg hkey, map_cons, ih hnodup]
      simp [Entry.pair, hkey]

theorem map_pair_eraseP {key : Text} {es : List (Entry α)} (hnodup : (es.map Entry.key).Nodup) :
    (es.eraseP fun e => e.key = key).map Entry.pair = (es.map Entry.pair).filter fun kv => kv.1 ≠ key := by
  induction es with
  | nil => rfl
  | cons e es ih =>
    obtain ⟨hfresh, hnodup⟩ := List.nodup_cons.mp hnodup
    by_cases hkey : e.key = key
    · have hrest : ((es.map Entry.pair).filter fun kv => kv.1 ≠ key) = es.map Entry.pair := by
        refine List.filter_eq_self.mpr fun kv hkv => ?_
        obtain ⟨e', he', rfl⟩ := List.mem_map.mp hkv
        have hne : e'.key ≠ key := fun h => hfresh (by rw [hkey, ← h]; exact mem_map_of_mem he')
        exact decide_eq_true hne
      rw [eraseP_cons_of_pos (by simpa using hkey), map_cons, filter_cons, hrest, if_neg]
      exact fun hne => of_decide_eq_true hne hkey
    · rw [eraseP_cons_of_neg (by simpa using hkey), map_cons, map_cons, filter_cons,
        ih hnodup, if_pos]
      exact decide_eq_true hkey

section Lists

variable {t : Table α} (h : t.Valid) {ins : List (Text × α)} (hl : t.Lists ins)
include h hl

theorem Lists.replace (key : Text) (v : α) :
    (t.editRow key (replaceIn key v t.generation) t.count).Lists
      (ins.map fun kv => if kv.1 = key then (key, v) else kv) := by
  intro i
  have hfilter : ((ins.map fun kv => if kv.1 = key then (key, v) else kv).filter fun kv =>
        (t.editRow key (replaceIn key v t.generation) t.count).index kv.1 = i)
      = (ins.filter fun kv => t.index kv.1 = i).map fun kv => if kv.1 = key then (key, v) else kv := by
    rw [filter_map]
    refine congrArg _ (filter_congr fun kv _ => ?_)
    by_cases hkey : kv.1 = key
    · simp [hkey]
    · simp [hkey]
  rw [hfilter, ← hl i, row_editRow h.size_pos]
  split
  · exact map_pair_replaceIn (h.nodup i)
  · next hi =>
    rw [map_map]
    refine map_congr_left fun e he => ?_
    have hne : e.key ≠ key := fun hkey => hi (by rw [← hkey]; exact h.index_eq he)
    simp [Entry.pair, hne]

theorem Lists.add (key : Text) (v : α) : (t.add key v).Lists (ins ++ [(key, v)]) := by
  intro i
  have hindex (k : Text) : (t.add key v).index k = t.index k := index_editRow t key _ _ k
  simp only [hindex, filter_append, ← hl i]
  rw [Table.add, row_editRow h.size_pos]
  by_cases hi : t.index key = i
  · simp [hi, Entry.pair]
  · simp [hi]

theorem Lists.remove (key : Text) : (t.remove key).Lists (ins.filter fun kv => kv.1 ≠ key) := by
  intro i
  have hindex (k : Text) : (t.remove key).index k = t.index k := index_editRow t key _ _ k
  simp only [hindex]
  rw [filter_comm, ← hl i, Table.remove, row_editRow h.size_pos]
  split
  · exact map_pair_eraseP (h.nodup i)
  · next hi =>
    refine (List.filter_eq_self.mpr fun kv hkv => ?_).symm
    obtain ⟨e, he, rfl⟩ := List.mem_map.mp hkv
    have hne : e.key ≠ key := fun hkey => hi (by rw [← hkey]; exact h.index_eq he)
    exact decide_eq_true hne

end Lists

/-! ## Growing -/

section Wide

variable {t : Table α} (h : t.Valid) {n : Nat} (hn : n ≤ rowLimit)

include h in
/-- A row of a wider table, in the order in which the narrower one was gone through. -/
theorem Valid.lists_wide (hle : t.rows.size ≤ n) (c : Int) : (t.wide n hn c).rehash.Lists t.toList := by
  intro j
  simp only [index_rehash_wide]
  by_cases hj : j < n
  · rw [h.row_wide hn hle c hj, toList, filter_map, map_map]
    rfl
  · rw [row_eq_nil (by rw [size_rehash_wide]; omega)]
    refine (List.filter_eq_nil_iff.mpr fun kv _ => ?_).symm
    have hlt := Nat.mod_lt (hashText kv.1).toNat (h.pos_wide hle)
    simp only [decide_eq_true_eq]
    omega

include h in
/-- Entries that meet in a row of the wider table stood in one row before, in order of insertion. -/
theorem Lists.widened (hl : t.Lists ins) {u : Table α} (hu : t.Widened u) : u.Lists ins := by
  obtain @⟨k, n, hk, hn, hsize, c⟩ := hu
  intro j
  rw [h.lists_wide hn (le_of_factor hk hsize) c j]
  simp only [index_rehash_wide]
  -- the row of a key in the narrower table is fixed by its row in the wider one
  have hsplit (kv : Text × α) : decide ((hashText kv.1).toNat % n = j)
      = (decide ((hashText kv.1).toNat % n = j) && decide (t.index kv.1 = j % t.rows.size)) := by
    rw [← Bool.decide_and, decide_eq_decide, iff_self_and]
    rintro rfl
    rw [hsize, Nat.mod_mul_right_mod, index]
  have hrow : (t.toList.filter fun kv => t.index kv.1 = j % t.rows.size)
      = ins.filter fun kv => t.index kv.1 = j % t.rows.size := by
    rw [hl.toList_eq h.size_pos, filter_sortBy]
  rw [filter_congr fun kv _ => hsplit kv, filter_congr (l := ins) fun kv _ => hsplit kv,
    ← filter_filter, ← filter_filter, hrow]

end Wide

/-! ## Histories -/

theorem Lists.put (h : t.Valid) (hl : t.Lists ins) (key : Text) (v : α) :
    (t.put key v).1.Lists ((Op.put key v).record ins) := by
  rw [put_eq, Op.record]
  simp only [hl.mem_keys_iff]
  by_cases hkey : t.contains key
  · rw [if_pos hkey, if_pos hkey]
    exact hl.replace h key v
  · rw [if_neg hkey, if_neg hkey]
    rcases (t.add key v).autoGrown_cases with hsame | hwide
    · rw [hsame]
      exact hl.add h key v
    · exact (hl.add h key v).widened (h.add (by simpa using hkey) v) hwide

/-- What one operation does to the rows. -/
theorem Lists.apply (h : t.Valid) (hl : t.Lists ins) {op : Op α} (hrange : op.InRange t) :
    (op.apply t).1.Lists (op.record ins) := by
  cases op with
  | put key v =>
    rw [h.put_apply]
    exact hl.put h key v
  | erase key =>
    rw [h.erase_apply, Op.record]
    split
    · exact hl.remove h key
    · next hkey =>
      have hsame : (ins.filter fun kv => kv.1 ≠ key) = ins := by
        refine List.filter_eq_self.mpr fun kv hkv => ?_
        have hne : kv.1 ≠ key := fun heq =>
          hkey ((hl.mem_keys_iff key).mp (by rw [← heq]; exact mem_map_of_mem hkv))
        simpa using hne
      rw [hsame]
      exact hl
  | grow factor =>
    by_cases hf : factor ≤ 1
    · rw [Op.grow_apply_of_le hf]
      exact hl
    · rcases Op.grow_apply_cases (Int.not_le.mp hf) hrange with heq | ⟨u, hu, heq⟩
      · rw [heq]
        exact hl
      · rw [heq]
        exact hl.widened h hu

theorem Lists.run (h : t.Valid) (hl : t.Lists ins) {ops : List (Op α)} (hrange : t.InRange ops) :
    (t.run ops).Lists (ops.foldl Op.record ins) := by
  induction ops generalizing t ins with
  | nil => exact hl
  | cons op ops ih => exact ih (h.apply hrange.1) (hl.apply h hrange.1) hrange.2

/-! ## Filling a fresh table -/

theorem Valid.putAll (h : t.Valid) (kvs : List (Text × α)) : (t.putAll kvs).Valid := by
  induction kvs generalizing t with
  | nil => exact h
  | cons kv kvs ih => exact ih (h.put kv.1 kv.2)

theorem Lists.putAll (h : t.Valid) (hl : t.Lists ins) (kvs : List (Text × α)) :
    (t.putAll kvs).Lists ((kvs.map fun kv => Op.put kv.1 kv.2).foldl Op.record ins) := by
  induction kvs generalizing t ins with
  | nil => exact hl
  | cons kv kvs ih => exact ih (h.put kv.1 kv.2) (hl.put h kv.1 kv.2)

/-- Keys that differ are recorded in the order in which they are put. -/
theorem foldl_record_puts {ins kvs : List (Text × α)} (h : ((ins ++ kvs).map Prod.fst).Nodup) :
    (kvs.map fun kv => Op.put kv.1 kv.2).foldl Op.record ins = ins ++ kvs := by
  induction kvs generalizing ins with
  | nil => simp
  | cons kv kvs ih =>
    have hfresh : kv.1 ∉ ins.map Prod.fst := by
      rw [map_append, map_cons, nodup_append] at h
      exact fun hmem => h.2.2 _ hmem _ mem_cons_self rfl
    rw [map_cons, foldl_cons, Op.record, if_neg hfresh, ih (by simpa using h)]
    simp

theorem size_putAll (h : t.autoGrow = false) (kvs : List (Text × α)) :
    (t.putAll kvs).rows.size = t.rows.size := by
  induction kvs generalizing t with
  | nil => rfl
  | cons kv kvs ih =>
    have hput : (t.put kv.1 kv.2).1 = if t.contains kv.1
        then t.editRow kv.1 (replaceIn kv.1 kv.2 t.generation) t.count else t.add kv.1 kv.2 := by
      have hsame : (t.add kv.1 kv.2).autoGrown = t.add kv.1 kv.2 := by
        rw [autoGrown, if_neg]
        rw [Bool.and_eq_true, not_and]
        intro hauto
        exact absurd (hauto.symm.trans h) (by decide)
      rw [put_eq, hsame]
    have hkeeps : (t.put kv.1 kv.2).1.autoGrow = false ∧ (t.put kv.1 kv.2).1.rows.size = t.rows.size := by
      rw [hput]
      split
      · exact ⟨h, by simp [editRow]⟩
      · exact ⟨h, by simp [add, editRow]⟩
    exact (ih hkeeps.1).trans hkeeps.2

/-- The rows of a table are fixed by their number and by the list that they hold. -/
theorem Lists.rows_eq {t u : Table α} (ht : t.Lists ins) (hu : u.Lists ins)
    (hsize : t.rows.size = u.rows.size) :
    t.rows.map (List.map Entry.pair) = u.rows.map (List.map Entry.pair) := by
  have hindex (key : Text) : t.index key = u.index key := by
    rw [index, index, hsize]
  have hrow (i : Nat) : (t.row i).map Entry.pair = (u.row i).map Entry.pair := by
    rw [ht i, hu i]
    simp only [hindex]
  ext1
  · simpa using hsize
  · next i hi hi' =>
    have hi : i < t.rows.size := by simpa using hi
    have hi' : i < u.rows.size := by simpa using hi'
    simpa [row_eq_getElem?, hi, hi'] using hrow i

theorem new?_natCast {n : Nat} (hpos : 0 < n) (h : n ≤ rowLimit) (capacity : Int) (autoGrow : Bool) :
    new? n capacity autoGrow
      = some (ofRows n h (if capacity < 1 then defaultCapacity else capacity) autoGrow : Table α) := by
  have hone : ¬ (n : Int) < 1 := by omega
  simp only [new?, if_neg hone, Int.toNat_natCast, dif_pos h]

/-- **The order of a table is fixed by row and insertion.** After any history in which no growth wraps
around, starting from an empty table of any size that grows by itself or not, going through the table gives
what is present in the order of insertion, stably sorted by the remainder of the hash of a key by the number
of rows. Growing such a table in place, by a factor that does not wrap around, gives the rows that a new
table, with so many rows, has after the same keys and values were put into it in the order of the old one. -/
theorem run_order {rows capacity : Int} {autoGrow : Bool} {new : Table α}
    (hnew : new? rows capacity autoGrow = some new) {ops : List (Op α)} (hrange : new.InRange ops) :
    let t := new.run ops
    t.toList = sortBy (fun kv => (hashText kv.1).toNat % t.rows.size) (inserted ops) ∧
    ∀ factor grown growth, (Op.grow factor).InRange t → t.grow factor = .ok (grown, growth) → ∀ capacity',
      ∃ fresh : Table α, new? (t.rows.size * factor) capacity' false = some fresh ∧
        grown.rows.map (List.map Entry.pair) = (fresh.putAll t.toList).rows.map (List.map Entry.pair) := by
  intro t
  obtain ⟨n, hn, c, hpos, rfl⟩ := exists_of_new? hnew
  have hvalid : t.Valid := (valid_ofRows hpos hn c autoGrow).run hrange
  have hlists : t.Lists (inserted ops) :=
    (lists_ofRows n hn c autoGrow).run (valid_ofRows hpos hn c autoGrow) hrange
  refine ⟨hlists.toList_eq hvalid.size_pos, ?_⟩
  intro factor grown growth hfactor hgrow capacity'
  have hnodup : (([] ++ t.toList).map Prod.fst).Nodup := by
    rw [nil_append, toList, map_map]
    exact hvalid.nodup_keys
  rw [grow] at hgrow
  split at hgrow
  · cases hgrow
  · next hf =>
    obtain ⟨k, rfl⟩ := Int.eq_ofNat_of_zero_le (show 0 ≤ factor by omega)
    cases hwiden : t.widen? k with
    | none =>
      rw [hwiden] at hgrow
      cases hgrow
    | some p =>
      rw [hwiden] at hgrow
      cases hgrow
      obtain ⟨n', hn', c', hsize, rfl⟩ := exists_of_widen? hfactor hwiden
      have hle := le_of_factor (show 1 < k by omega) hsize
      have hpos' := hvalid.pos_wide hle
      have hcast : (t.rows.size * k : Int) = (n' : Int) := by rw [hsize, Int.natCast_mul]
      rw [hcast]
      refine ⟨_, new?_natCast hpos' hn' capacity' false, (hvalid.lists_wide hn' hle c').rows_eq ?_ ?_⟩
      · have hput {c : Int} := (lists_ofRows n' hn' c false).putAll (valid_ofRows hpos' hn' c false) t.toList
        rw [foldl_record_puts hnodup] at hput
        exact hput
      · rw [size_rehash_wide, size_putAll rfl, ofRows, Array.size_replicate]

/-- A key that is put again keeps its place, and growing changes nothing about that. -/
theorem run_order_sample :
    let ops : List (Op Nat) := [.put "a" 1, .put "b" 2, .grow 3, .put "a" 3]
    ∃ new : Table Nat, new? 1 0 false = some new ∧ new.InRange ops ∧
      (new.run ops).toList = sortBy (fun kv => (hashText kv.1).toNat % (new.run ops).rows.size)
        [(("a" : Text), 3), (("b" : Text), 2)] := by
  intro ops
  have hrange (new : Table Nat) : new.InRange ops := inRange_of_factors fun factor hmem => by simp_all [ops]
  have hnew : new? 1 0 false = some (ofRows 1 (by decide) 200 false : Table Nat) := rfl
  have hinserted : inserted ops = [(("a" : Text), 3), (("b" : Text), 2)] := rfl
  exact ⟨_, hnew, hrange _, hinserted ▸ (run_order hnew (hrange _)).1⟩

/-- Twenty rows times `2 ^ 62` wrap around to none, so that nothing is listed of what was inserted. -/
theorem run_grow_lists_nothing :
    let ops : List (Op Nat) := [.put "a" 1, .grow 0x4000000000000000]
    new? 0 0 true = some (empty : Table Nat) ∧ inserted ops = [(("a" : Text), 1)] ∧
      ((empty : Table Nat).run ops).toList = [] := by
  refine ⟨rfl, rfl, ?_⟩
  decide +kernel

end Table

end TinyScript
