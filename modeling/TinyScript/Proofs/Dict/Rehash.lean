import Mathlib.Data.List.Basic
import Mathlib.Data.List.Nodup
import Mathlib.Tactic.Common
import TinyScript.Dict.Table

/-!
# Growing a table in place

A table grows by one pass over its rows. Entries are taken out and appended to rows that are still to come, to rows
that were done, or to the row being gone through. Afterwards each row holds the entries that now belong to it, in the
order in which the table was gone through before (`row_rehash`). Entries that were placed carry the new generation;
that alone tells them apart when the pass comes to them. The invariant is `row_foldl_rehashRow`.
-/

namespace TinyScript

open List

@[simp] theorem Generation.flip_ne (g : Generation) : g.flip ≠ g := by cases g <;> decide

@[simp] theorem Generation.ne_flip (g : Generation) : g ≠ g.flip := by cases g <;> decide

namespace Table

variable {α : Type}

/-! ## Rows -/

theorem chain_eq_row (t : Table α) (key : Text) : t.chain key = t.row (t.index key) := rfl

theorem row_eq_getElem? (t : Table α) (i : Nat) : t.row i = t.rows[i]?.getD [] := by
  simp [row]

theorem row_eq_nil {t : Table α} {i : Nat} (h : t.rows.size ≤ i) : t.row i = [] := by
  simp [row_eq_getElem?, h]

/-- Every entry is in some row. -/
theorem mem_entries {t : Table α} {e : Entry α} : e ∈ t.entries ↔ ∃ i, e ∈ t.row i := by
  simp only [entries, mem_flatten, Array.mem_toList_iff]
  constructor
  · rintro ⟨r, hr, he⟩
    obtain ⟨i, hi, rfl⟩ := Array.getElem_of_mem hr
    exact ⟨i, by simpa [row_eq_getElem?, hi] using he⟩
  · rintro ⟨i, he⟩
    have hi : i < t.rows.size := by
      by_contra hi
      rw [row_eq_nil (by omega)] at he
      exact absurd he not_mem_nil
    refine ⟨t.rows[i], Array.getElem_mem hi, ?_⟩
    simpa [row_eq_getElem?, hi] using he

theorem entries_eq_flatMap (t : Table α) : t.entries = (List.range t.rows.size).flatMap t.row := by
  have h : t.rows.toList = (List.range t.rows.size).map t.row := by
    apply ext_getElem
    · simp
    · intro i h₁ h₂
      have hi : i < t.rows.size := by simpa using h₁
      simp [row_eq_getElem?, hi]
  rw [entries, h, flatMap_def]

theorem index_lt {t : Table α} (h : 0 < t.rows.size) (key : Text) : t.index key < t.rows.size :=
  Nat.mod_lt _ h

/-- Changing one row changes the entries at that row's place only. -/
theorem entries_modify {t : Table α} {i : Nat} (hi : i < t.rows.size) :
    ∃ before after, t.entries = before ++ t.row i ++ after ∧
      ∀ f, (t.modifyRow i f).entries = before ++ f (t.row i) ++ after := by
  refine ⟨(t.rows.toList.take i).flatten, (t.rows.toList.drop (i + 1)).flatten, ?_, ?_⟩
  · have hsplit : t.rows.toList
        = t.rows.toList.take i ++ t.rows.toList[i] :: t.rows.toList.drop (i + 1) := by
      rw [← drop_eq_getElem_cons, take_append_drop]
    conv_lhs => rw [entries, hsplit]
    simp [row_eq_getElem?, hi]
  · intro f
    rw [entries, modifyRow, Array.toList_modify, modify_eq_take_cons_drop (by simpa using hi)]
    simp [row_eq_getElem?, hi]

/-! ## Placing entries -/

@[simp] theorem size_modifyRow (t : Table α) (i : Nat) (f : List (Entry α) → List (Entry α)) :
    (t.modifyRow i f).rows.size = t.rows.size := by
  simp [modifyRow]

@[simp] theorem index_modifyRow (t : Table α) (i : Nat) (f : List (Entry α) → List (Entry α)) (key : Text) :
    (t.modifyRow i f).index key = t.index key := by
  simp [index]

/-- An entry goes to the end of its row. -/
theorem row_append {t : Table α} (h : 0 < t.rows.size) (e : Entry α) (j : Nat) :
    (t.append e).row j = if t.index e.key = j then t.row j ++ [e] else t.row j := by
  rw [append, row_modifyRow]
  by_cases hj : t.index e.key = j
  · rw [if_pos ⟨hj, hj ▸ index_lt h e.key⟩, if_pos hj]
  · rw [if_neg fun h => hj h.1, if_neg hj]

/-- An entry as it is placed in a generation. -/
def tagged (g : Generation) (e : Entry α) : Entry α := { e with generation := g }

@[simp] theorem key_tagged (g : Generation) (e : Entry α) : (tagged g e).key = e.key := rfl

theorem place_eq (t : Table α) (e : Entry α) : t.place e = t.append (tagged t.generation e) := rfl

/-- Two tables that differ in their rows only, of which there are equally many. -/
structure Alike (t u : Table α) : Prop where
  size : u.rows.size = t.rows.size
  generation : u.generation = t.generation
  count : u.count = t.count
  capacity : u.capacity = t.capacity
  autoGrow : u.autoGrow = t.autoGrow

theorem Alike.refl (t : Table α) : Alike t t := ⟨rfl, rfl, rfl, rfl, rfl⟩

theorem Alike.trans {t u v : Table α} (h : Alike t u) (k : Alike u v) : Alike t v where
  size := k.size.trans h.size
  generation := k.generation.trans h.generation
  count := k.count.trans h.count
  capacity := k.capacity.trans h.capacity
  autoGrow := k.autoGrow.trans h.autoGrow

/-- Alike tables with the same rows are the same. -/
theorem Alike.eq_of_row {t u : Table α} (h : Alike t u) (hrow : ∀ i, u.row i = t.row i) : u = t := by
  have hrows : u.rows = t.rows := by
    ext1
    · exact h.size
    · next i hi hi' => simpa [row_eq_getElem?, hi, hi'] using hrow i
  obtain ⟨-, hgen, hcount, hcapacity, hauto⟩ := h
  cases t
  cases u
  simp only at hrows hgen hcount hcapacity hauto
  subst hrows hgen hcount hcapacity hauto
  rfl

/-- Tables that are alike have keys in the same rows. -/
theorem Alike.index {t u : Table α} (h : Alike t u) (key : Text) : u.index key = t.index key := by
  simp [Table.index, h.size]

theorem alike_place (t : Table α) (e : Entry α) : Alike t (t.place e) :=
  ⟨by simp [place_eq, append], rfl, rfl, rfl, rfl⟩

theorem alike_foldl_place (t : Table α) (es : List (Entry α)) : Alike t (es.foldl place t) := by
  induction es generalizing t with
  | nil => exact Alike.refl t
  | cons e es ih => exact (alike_place t e).trans (ih _)

/-- Placing entries appends to each row those whose keys belong there. -/
theorem row_foldl_place {t : Table α} (h : 0 < t.rows.size) (es : List (Entry α)) (j : Nat) :
    (es.foldl place t).row j
      = t.row j ++ (es.filter fun e => t.index e.key = j).map (tagged t.generation) := by
  induction es generalizing t with
  | nil => simp
  | cons e es ih =>
    have halike := alike_place t e
    have hsize : 0 < (t.place e).rows.size := by rwa [halike.size]
    rw [foldl_cons, ih hsize, place_eq, row_append h]
    simp only [← place_eq, halike.index, halike.generation, key_tagged]
    by_cases hj : t.index e.key = j
    · simp [hj]
    · simp [hj]

/-! ## The pass -/

theorem alike_modifyRow (t : Table α) (i : Nat) (f : List (Entry α) → List (Entry α)) :
    Alike t (t.modifyRow i f) :=
  ⟨size_modifyRow t i f, rfl, rfl, rfl, rfl⟩

theorem modifyRow_congr {t : Table α} {i : Nat} {f g : List (Entry α) → List (Entry α)}
    (h : f (t.row i) = g (t.row i)) : t.modifyRow i f = t.modifyRow i g := by
  refine Alike.eq_of_row ⟨by simp, rfl, rfl, rfl, rfl⟩ fun j => ?_
  rw [row_modifyRow, row_modifyRow]
  split
  · next hj => rw [← hj.1, h]
  · rfl

theorem modifyRow_eq_self {t : Table α} {i : Nat} {f : List (Entry α) → List (Entry α)}
    (h : f (t.row i) = t.row i) : t.modifyRow i f = t := by
  refine (alike_modifyRow t i f).eq_of_row fun j => ?_
  rw [row_modifyRow]
  split
  · next hj => rw [← hj.1, h]
  · rfl

/-- Whether an entry of a row stays where it is. -/
abbrev isFresh (t : Table α) (e : Entry α) : Bool := decide (e.generation = t.generation)

/-- A row whose entries from an index on were split: those that stay. -/
def keptFrom (t : Table α) (k : Nat) (r : List (Entry α)) : List (Entry α) :=
  r.take k ++ (r.drop k).filter t.isFresh

section Walk

variable {t : Table α} {i k : Nat} {e : Entry α}

theorem row_modifyRow_self (h : i < t.rows.size) (f : List (Entry α) → List (Entry α)) :
    (t.modifyRow i f).row i = f (t.row i) := by
  rw [row_modifyRow, if_pos ⟨rfl, h⟩]

theorem row_modifyRow_of_ne {j : Nat} (h : i ≠ j) (f : List (Entry α) → List (Entry α)) :
    (t.modifyRow i f).row j = t.row j := by
  rw [row_modifyRow, if_neg fun hj => h hj.1]

/-- A row after an entry was placed, in whichever row. -/
theorem row_place (h : 0 < t.rows.size) (e : Entry α) (j : Nat) :
    (t.place e).row j = t.row j ++ if t.index e.key = j then [tagged t.generation e] else [] := by
  rw [place_eq, row_append h, key_tagged]
  split
  · rfl
  · rw [append_nil]

theorem lt_size_of_row (he : (t.row i)[k]? = some e) : i < t.rows.size := by
  by_contra hi
  rw [row_eq_nil (by omega)] at he
  cases he

/-- A row from an entry on. -/
theorem drop_row (he : (t.row i)[k]? = some e) : (t.row i).drop k = e :: (t.row i).drop (k + 1) := by
  obtain ⟨hk, hget⟩ := List.getElem?_eq_some_iff.mp he
  rw [drop_eq_getElem_cons hk, hget]

theorem length_take_row (he : (t.row i)[k]? = some e) : ((t.row i).take k).length = k :=
  length_take_of_le (Nat.le_of_lt (List.getElem?_eq_some_iff.mp he).1)

/-- A row after an entry was taken out of it and placed. -/
theorem row_place_eraseIdx (he : (t.row i)[k]? = some e) :
    ((t.modifyRow i (·.eraseIdx k)).place e).row i = (t.row i).take k
      ++ ((t.row i).drop (k + 1) ++ if t.index e.key = i then [tagged t.generation e] else []) := by
  have hi := lt_size_of_row he
  rw [row_place (by rw [size_modifyRow]; omega), row_modifyRow_self hi, index_modifyRow,
    eraseIdx_eq_take_drop_succ, append_assoc]
  rfl

/-- An entry that moves to the end of a row that is being gone through stays there: it is of the new
generation already. -/
theorem modifyRow_place (he : (t.row i)[k]? = some e) (hgen : e.generation ≠ t.generation) :
    ((t.modifyRow i (·.eraseIdx k)).place e).modifyRow i (t.keptFrom k)
      = (t.modifyRow i (t.keptFrom k)).place e := by
  have hi := lt_size_of_row he
  have hpos (f : List (Entry α) → List (Entry α)) : 0 < (t.modifyRow i f).rows.size := by
    rw [size_modifyRow]
    omega
  refine Alike.eq_of_row ⟨by simp [place, append], rfl, rfl, rfl, rfl⟩ fun j => ?_
  rw [row_place (hpos _), index_modifyRow]
  by_cases hij : i = j
  · subst hij
    have hfresh : (if t.index e.key = i then [tagged t.generation e] else []).filter t.isFresh
        = if t.index e.key = i then [tagged t.generation e] else [] :=
      List.filter_eq_self.mpr fun e' he' => by
        split at he'
        · simp_all [tagged]
        · cases he'
    rw [row_modifyRow_self (by simpa [place, append] using hi), row_place_eraseIdx he, row_modifyRow_self hi,
      keptFrom, keptFrom, take_left' (length_take_row he), drop_left' (length_take_row he),
      drop_row he, filter_cons_of_neg (by simpa using hgen), filter_append, hfresh, append_assoc]
    rfl
  · rw [row_modifyRow_of_ne hij, row_place (hpos _), row_modifyRow_of_ne hij, row_modifyRow_of_ne hij,
      index_modifyRow]
    rfl

end Walk

/-- Going through a row from an index on comes to splitting the rest of it by generation, and then placing
what is of the old one. -/
theorem rehashFrom_eq (t : Table α) (i k : Nat) :
    t.rehashFrom i k
      = (((t.row i).drop k).filter fun e => !t.isFresh e).foldl place (t.modifyRow i (t.keptFrom k)) := by
  fun_induction rehashFrom t i k with
  | case1 t k hnone =>
    have hle := List.getElem?_eq_none_iff.mp hnone
    rw [drop_eq_nil_of_le hle, modifyRow_eq_self]
    · rfl
    · rw [keptFrom, drop_eq_nil_of_le hle, filter_nil, append_nil, take_of_length_le hle]
  | case2 t k e he hgen ih =>
    rw [ih, drop_row he, filter_cons_of_neg (by simpa using hgen)]
    refine congrArg (List.foldl place · _) (modifyRow_congr ?_)
    rw [keptFrom, keptFrom, drop_row he, filter_cons_of_pos (by simpa using hgen), take_add_one, he]
    simp
  | case3 t k e he hgen moved hlast =>
    have hend : (t.row i).drop (k + 1) = [] := drop_eq_nil_of_le (Nat.le_of_eq hlast.symm)
    rw [drop_row he, hend, filter_cons_of_pos (by simpa using hgen)]
    refine congrArg (place · e) (modifyRow_congr ?_)
    rw [keptFrom, drop_row he, hend, filter_cons_of_neg (by simpa using hgen),
      eraseIdx_eq_take_drop_succ, hend]
    rfl
  | case4 t k e he hgen moved hlast ih =>
    -- what was appended is of the new generation, so the rest of the walk passes over it
    have hrest : ((moved.row i).drop k).filter (fun e => !moved.isFresh e)
        = ((t.row i).drop (k + 1)).filter fun e => !t.isFresh e := by
      have hfresh : moved.isFresh = t.isFresh := rfl
      rw [row_place_eraseIdx he, drop_left' (length_take_row he), filter_append, hfresh]
      split
      · rw [filter_cons_of_neg (by simp [tagged]), filter_nil, append_nil]
      · rw [filter_nil, append_nil]
    rw [ih, hrest, drop_row he, filter_cons_of_pos (by simpa using hgen), foldl_cons]
    exact congrArg (List.foldl place · _) (modifyRow_place he hgen)

/-- Going through a row comes to splitting it by generation and placing what is of the old one. -/
theorem rehashRow_eq (t : Table α) (i : Nat) :
    t.rehashRow i = ((t.row i).filter fun e => e.generation ≠ t.generation).foldl place
      (t.modifyRow i fun r => r.filter t.isFresh) := by
  rw [rehashRow, rehashFrom_eq, drop_zero]
  congr 2
  funext e
  simp

theorem alike_rehashRow (t : Table α) (i : Nat) : Alike t (t.rehashRow i) := by
  rw [rehashRow_eq]
  exact (alike_modifyRow t i _).trans (alike_foldl_place _ _)

/-- One row of the pass: what carries the new generation stays, and the rest is placed. -/
theorem row_rehashRow {t : Table α} (h : 0 < t.rows.size) (i j : Nat) :
    (t.rehashRow i).row j
      = (if i = j then (t.row j).filter fun e => e.generation = t.generation else t.row j)
        ++ (((t.row i).filter fun e => e.generation ≠ t.generation).filter fun e =>
            t.index e.key = j).map (tagged t.generation) := by
  rw [rehashRow_eq, row_foldl_place (by simpa using h), row_modifyRow]
  simp only [index_modifyRow]
  congr 1
  by_cases hij : i = j
  · subst hij
    by_cases hi : i < t.rows.size
    · simp [hi]
    · simp [hi, row_eq_nil (Nat.le_of_not_lt hi)]
  · simp [hij]

theorem alike_foldl_rehashRow (t : Table α) (is : List Nat) : Alike t (is.foldl rehashRow t) := by
  induction is generalizing t with
  | nil => exact Alike.refl t
  | cons i is ih => exact (alike_rehashRow t i).trans (ih _)

/-- What the rows below `k` place in row `j`. -/
def placedBelow (t : Table α) (k j : Nat) : List (Entry α) :=
  (((List.range k).flatMap t.row).filter fun e => t.index e.key = j).map (tagged t.generation)

theorem generation_of_mem_placedBelow {t : Table α} {k j : Nat} {e : Entry α}
    (h : e ∈ t.placedBelow k j) : e.generation = t.generation := by
  obtain ⟨e', -, rfl⟩ := List.mem_map.mp h
  rfl

/-- One more row that was gone through. -/
theorem placedBelow_succ (t : Table α) (k j : Nat) :
    t.placedBelow (k + 1) j
      = t.placedBelow k j ++ ((t.row k).filter fun e => t.index e.key = j).map (tagged t.generation) := by
  simp [placedBelow, range_succ]

/-- The invariant of the pass. A row still to come holds its old entries and then those placed there;
a row that is done holds only the latter. -/
theorem row_foldl_rehashRow {t : Table α} (h : 0 < t.rows.size)
    (hold : ∀ e ∈ t.entries, e.generation ≠ t.generation) (k j : Nat) :
    ((List.range k).foldl rehashRow t).row j
      = (if j < k then [] else t.row j) ++ t.placedBelow k j := by
  induction k generalizing j with
  | zero => simp [placedBelow]
  | succ k ih =>
    have halike := alike_foldl_rehashRow t (List.range k)
    -- the generation tells what is left of row `k` from what was placed there
    have hold : ∀ e ∈ t.row k, e.generation ≠ t.generation :=
      fun e he => hold e (mem_entries.mpr ⟨k, he⟩)
    have hkept : (t.row k ++ t.placedBelow k k).filter (fun e => e.generation = t.generation)
        = t.placedBelow k k := by
      rw [filter_append, List.filter_eq_nil_iff.mpr fun e he => by simpa using hold e he,
        List.filter_eq_self.mpr fun e he => by simp [generation_of_mem_placedBelow he], nil_append]
    have hmoved : (t.row k ++ t.placedBelow k k).filter (fun e => e.generation ≠ t.generation)
        = t.row k := by
      rw [filter_append, List.filter_eq_self.mpr fun e he => by simpa using hold e he,
        List.filter_eq_nil_iff.mpr fun e he => by simp [generation_of_mem_placedBelow he],
        append_nil]
    rw [range_succ, foldl_append, foldl_cons, foldl_nil,
      row_rehashRow (by rw [halike.size]; exact h), halike.generation, ih k,
      if_neg (Nat.lt_irrefl k), hmoved, placedBelow_succ]
    simp only [halike.index]
    by_cases hj : k = j
    · subst hj
      rw [if_pos rfl, ih, if_neg (Nat.lt_irrefl k), hkept, if_pos (Nat.lt_succ_self k), nil_append]
    · have hlt : j < k + 1 ↔ j < k := by omega
      simp only [hj, hlt, if_false, ih, append_assoc]

/-- **What growing does to a row**: it holds the entries whose keys belong to it under the new number of
rows, in the order of the old table, all of them in the new generation. -/
theorem row_rehash {t : Table α} (h : 0 < t.rows.size)
    (hgen : ∀ e ∈ t.entries, e.generation = t.generation) {j : Nat} (hj : j < t.rows.size) :
    t.rehash.row j = (t.entries.filter fun e => t.index e.key = j).map (tagged t.generation.flip) := by
  have hold : ∀ e ∈ ({ t with generation := t.generation.flip } : Table α).entries,
      e.generation ≠ t.generation.flip := by
    intro e he
    rw [hgen e he]
    exact Generation.ne_flip _
  have hrow := row_foldl_rehashRow (t := { t with generation := t.generation.flip }) h hold t.rows.size j
  rw [if_pos hj, nil_append] at hrow
  rw [entries_eq_flatMap]
  exact hrow

/-- Growing changes rows and the generation, and nothing else. -/
theorem alike_rehash (t : Table α) : Alike { t with generation := t.generation.flip } t.rehash :=
  alike_foldl_rehashRow _ _

end Table

end TinyScript
