import TinyScript.Proofs.Dict.FiniteMap

/-!
# Tables do not look at their values

Where an entry sits depends on its key alone. So replacing all values by a function commutes with every
operation (`put_map`, `erase?_map`), and two tables that went through the same operations with different
values are two images of one table of pairs (`Paired`).
-/

namespace TinyScript

open List

/-- An entry with its value replaced. -/
def Entry.map {α β : Type} (f : α → β) (e : Entry α) : Entry β := ⟨e.key, f e.value, e.generation⟩

namespace Table

variable {α β : Type}

/-- A table with all values replaced. -/
def map (f : α → β) (t : Table α) : Table β where
  rows := t.rows.map (List.map (Entry.map f))
  count := t.count
  capacity := t.capacity
  generation := t.generation
  autoGrow := t.autoGrow
  fits := by rw [Array.size_map]; exact t.fits

variable (f : α → β) (t : Table α)

@[simp] theorem size_map : (t.map f).rows.size = t.rows.size := by
  simp [map]

@[simp] theorem index_map (key : Text) : (t.map f).index key = t.index key := by
  simp [index]

/-- Rows keep their entries in place. -/
theorem row_map (i : Nat) : (t.map f).row i = (t.row i).map (Entry.map f) := by
  rw [row_eq_getElem?, row_eq_getElem?]
  simp only [map, Array.getElem?_map]
  cases t.rows[i]? <;> rfl

theorem chain_map (key : Text) : (t.map f).chain key = (t.chain key).map (Entry.map f) := by
  rw [chain, chain, index_map, row_map]

theorem entries_map : (t.map f).entries = t.entries.map (Entry.map f) := by
  simp [entries, map, map_flatten]

/-- The order of the table is the same. -/
theorem toList_map : (t.map f).toList = t.toList.map fun e => (e.1, f e.2) := by
  simp [toList, entries_map, Entry.map]

theorem keys_map : (t.map f).keys = t.keys := by
  simp [keys, entries_map, Entry.map]

/-- What is found for a key is found under the map. -/
theorem get?_map (key : Text) : (t.map f).get? key = (t.get? key).map f := by
  rw [get?, get?, chain_map, find?_map, Option.map_map, Option.map_map]
  rfl

theorem contains_map (key : Text) : (t.map f).contains key = t.contains key := by
  rw [contains, contains, chain_map, any_map]
  rfl

theorem map_empty : (empty : Table α).map f = empty := by
  simp [map, empty, ofRows]

/-! ## Growing -/

/-- A change to a row that treats all values alike. -/
theorem modifyRow_map (i : Nat) {u : List (Entry α) → List (Entry α)} {v : List (Entry β) → List (Entry β)}
    (h : ∀ es, v (es.map (Entry.map f)) = (u es).map (Entry.map f)) :
    (t.map f).modifyRow i v = (t.modifyRow i u).map f := by
  refine Alike.eq_of_row ⟨by simp, rfl, rfl, rfl, rfl⟩ fun j => ?_
  rw [row_modifyRow, row_map, row_map, row_modifyRow, size_map]
  split
  · exact h _
  · rfl

theorem append_map (e : Entry α) : (t.map f).append (e.map f) = (t.append e).map f := by
  have hindex : (t.map f).index (e.map f).key = t.index e.key := index_map f t e.key
  rw [append, append, hindex]
  exact modifyRow_map f t _ fun es => by rw [map_append]; rfl

/-- Entries go to the same rows. -/
theorem place_map (e : Entry α) : (t.map f).place (e.map f) = (t.place e).map f :=
  append_map f t { e with generation := t.generation }

theorem foldl_place_map (es : List (Entry α)) :
    (es.map (Entry.map f)).foldl place (t.map f) = (es.foldl place t).map f := by
  induction es generalizing t with
  | nil => rfl
  | cons e es ih => rw [map_cons, foldl_cons, foldl_cons, place_map, ih]

theorem rehashRow_map (i : Nat) : (t.map f).rehashRow i = (t.rehashRow i).map f := by
  have hkept : (t.map f).modifyRow i (fun r => r.filter (t.map f).isFresh)
      = (t.modifyRow i fun r => r.filter t.isFresh).map f :=
    modifyRow_map f t i fun es => by rw [filter_map]; rfl
  rw [rehashRow_eq, rehashRow_eq, hkept, row_map, filter_map, foldl_place_map]
  rfl

/-- Growing moves entries by their keys. -/
theorem rehash_map : (t.map f).rehash = t.rehash.map f := by
  have hfold (is : List Nat) (u : Table α) :
      is.foldl rehashRow (u.map f) = (is.foldl rehashRow u).map f := by
    induction is generalizing u with
    | nil => rfl
    | cons i is ih => rw [foldl_cons, foldl_cons, rehashRow_map, ih]
  rw [rehash, rehash]
  have hsize : ({ t.map f with generation := (t.map f).generation.flip } : Table β).rows.size
      = ({ t with generation := t.generation.flip } : Table α).rows.size := size_map f t
  simp only [hsize]
  exact hfold _ { t with generation := t.generation.flip }

theorem wide_map (n : Nat) (h : n ≤ rowLimit) (c : Int) : (t.map f).wide n h c = (t.wide n h c).map f := by
  simp [wide, resize, map]

/-- Whether a table can grow has nothing to do with its values. -/
theorem widen?_map (factor : Int) : (t.map f).widen? factor = (t.widen? factor).map fun p => (p.1.map f, p.2) := by
  simp only [widen?, size_map]
  split
  · rw [Option.map_some, ← rehash_map]
    exact congrArg (fun u : Table β => some (u.rehash, _)) (wide_map f t _ _ _)
  · rfl

/-- Neither has whether it does. -/
theorem autoGrown_map : (t.map f).autoGrown = t.autoGrown.map f := by
  have hcrowded : ((t.map f).autoGrow && (t.map f).isCrowded) = (t.autoGrow && t.isCrowded) := rfl
  rw [autoGrown, autoGrown, hcrowded, widen?_map]
  split
  · cases t.widen? growthFactor <;> rfl
  · rfl

/-! ## Changing -/

theorem replaceIn_map (key : Text) (v : α) (g : Generation) (es : List (Entry α)) :
    replaceIn key (f v) g (es.map (Entry.map f)) = (replaceIn key v g es).map (Entry.map f) := by
  induction es with
  | nil => rfl
  | cons e es ih =>
    have hkey : (e.map f).key = e.key := rfl
    rw [map_cons, replaceIn, replaceIn, hkey]
    split
    · rfl
    · rw [ih]
      rfl

/-- Such a change behind growing. -/
theorem editRow_map (key : Text) {u : List (Entry α) → List (Entry α)}
    {v : List (Entry β) → List (Entry β)} (h : ∀ es, v (es.map (Entry.map f)) = (u es).map (Entry.map f))
    (count : Nat) : (t.map f).editRow key v count = (t.editRow key u count).map f := by
  rw [editRow, index_map, modifyRow_map f t _ h]
  rfl

theorem add_map (key : Text) (v : α) : (t.map f).add key (f v) = (t.add key v).map f :=
  editRow_map f t key (fun es => by rw [map_append]; rfl) _

/-- Putting treats all values alike. -/
theorem put_map (key : Text) (v : α) : ((t.map f).put key (f v)).1 = (t.put key v).1.map f := by
  rw [put_eq, put_eq, contains_map, add_map, autoGrown_map]
  split
  · exact editRow_map f t key (replaceIn_map f key v t.generation) _
  · rfl

/-- So does erasing. -/
theorem erase?_map (key : Text) : (t.map f).erase? key = (t.erase? key).map (map f) := by
  rw [erase?_eq, erase?_eq, contains_map]
  split
  · rw [remove, editRow_map f t key (u := (·.eraseP fun e => e.key = key)) fun es => ?_]
    · rfl
    · rw [eraseP_map]
      rfl
  · rfl

/-! ## Tables of pairs -/

/-- Changing values that a table does not hold changes nothing. -/
theorem map_eq_self {t : Table α} {f : α → α} (h : ∀ e ∈ t.entries, f e.value = e.value) : t.map f = t := by
  have hrows : t.rows.map (List.map (Entry.map f)) = t.rows := by
    ext1
    · simp
    · next i hi hi' =>
      rw [Array.getElem_map]
      refine (map_congr_left fun e he => ?_).trans (map_id _)
      have hmem : e ∈ t.entries :=
        List.mem_flatten.mpr ⟨t.rows[i], Array.mem_toList_iff.mpr (Array.getElem_mem hi'), he⟩
      rw [Entry.map, h e hmem]
      rfl
  simp only [map, hrows]

/-- A new value is the only one that `put` brings in. -/
theorem forall_entries_put {P : α → Prop} {t : Table α} (h : ∀ e ∈ t.entries, P e.value) (key : Text)
    {v : α} (hv : P v) : ∀ e ∈ (t.put key v).1.entries, P e.value := by
  classical
  -- the table is the image of one whose values carry the property, and so is the new one
  let lift (a : α) : { a // P a } := if ha : P a then ⟨a, ha⟩ else ⟨v, hv⟩
  have hlift {a : α} (ha : P a) : (lift a).1 = a := by
    simp [lift, ha]
  have ht : (t.map lift).map Subtype.val = t := by
    have hcomp : (t.map lift).map Subtype.val = t.map fun a => (lift a).1 := by
      simp [map, Function.comp_def, Entry.map]
    rw [hcomp]
    exact map_eq_self fun e he => hlift (h e he)
  have hput : (t.put key v).1 = ((t.map lift).put key ⟨v, hv⟩).1.map Subtype.val := by
    have hmap := put_map Subtype.val (t.map lift) key ⟨v, hv⟩
    rw [ht] at hmap
    rw [hmap]
  rw [hput, entries_map]
  intro e he
  obtain ⟨e', -, rfl⟩ := List.mem_map.mp he
  exact e'.value.2

/-- Erasing adds no entry. -/
theorem entries_erase? {t u : Table α} {key : Text} (h : t.erase? key = some u) {e : Entry α}
    (he : e ∈ u.entries) : e ∈ t.entries := by
  rw [erase?_eq] at h
  split at h
  · cases h
    obtain ⟨i, hi⟩ := mem_entries.mp he
    have hrow : (t.remove key).row i = (t.modifyRow (t.index key) (·.eraseP fun e => e.key = key)).row i := rfl
    rw [hrow, row_modifyRow] at hi
    split at hi
    · exact mem_entries.mpr ⟨i, mem_of_mem_eraseP hi⟩
    · exact mem_entries.mpr ⟨i, hi⟩
  · cases h

/-- The two tables hold related values at the same places. -/
def Paired (R : α → β → Prop) (t : Table α) (u : Table β) : Prop :=
  ∃ w : Table (α × β), w.map Prod.fst = t ∧ w.map Prod.snd = u ∧ ∀ e ∈ w.entries, R e.value.1 e.value.2

section Paired

variable {R : α → β → Prop} {t : Table α} {u : Table β}

theorem paired_empty : Paired R (empty : Table α) (empty : Table β) :=
  ⟨empty, map_empty _, map_empty _, by simp [empty, ofRows, entries]⟩

/-- A table is paired with itself, if its values are. -/
theorem Paired.self {R : α → α → Prop} (h : ∀ v ∈ t.entries.map Entry.value, R v v) : Paired R t t := by
  refine ⟨t.map fun v => (v, v), ?_, ?_, ?_⟩
  · simp [map, Function.comp_def, Entry.map]
  · simp [map, Function.comp_def, Entry.map]
  · rw [entries_map]
    intro e he
    obtain ⟨e', he', rfl⟩ := List.mem_map.mp he
    exact h _ (mem_map_of_mem he')

/-- Only values that are there have to be related anew. -/
theorem Paired.mono {S : α → β → Prop} (h : Paired R t u)
    (hRS : ∀ v ∈ t.entries.map Entry.value, ∀ w ∈ u.entries.map Entry.value, R v w → S v w) :
    Paired S t u := by
  obtain ⟨x, rfl, rfl, hx⟩ := h
  refine ⟨x, rfl, rfl, fun e he => hRS _ ?_ _ ?_ (hx e he)⟩
  · rw [entries_map, map_map]
    exact List.mem_map.mpr ⟨e, he, rfl⟩
  · rw [entries_map, map_map]
    exact List.mem_map.mpr ⟨e, he, rfl⟩

/-- Both tables get an entry or replace it. -/
theorem Paired.put (h : Paired R t u) (key : Text) {v : α} {w : β} (hv : R v w) :
    Paired R (t.put key v).1 (u.put key w).1 := by
  obtain ⟨x, rfl, rfl, hx⟩ := h
  refine ⟨(x.put key (v, w)).1, ?_, ?_, ?_⟩
  · rw [put_map Prod.fst x key (v, w)]
  · rw [put_map Prod.snd x key (v, w)]
  · exact forall_entries_put (P := fun p : α × β => R p.1 p.2) hx key hv

/-- Both tables have the key, or neither has. -/
theorem Paired.erase? (h : Paired R t u) (key : Text) :
    Option.Rel (Paired R) (t.erase? key) (u.erase? key) := by
  obtain ⟨x, rfl, rfl, hx⟩ := h
  rw [erase?_map, erase?_map]
  cases hx' : x.erase? key with
  | none => exact .none
  | some x' => exact .some ⟨x', rfl, rfl, fun e he => hx e (entries_erase? hx' he)⟩

/-- Related values are found, or none on either side. -/
theorem Paired.get? (h : Paired R t u) (key : Text) : Option.Rel R (t.get? key) (u.get? key) := by
  obtain ⟨x, rfl, rfl, hx⟩ := h
  rw [get?_map, get?_map]
  cases hget : x.get? key with
  | none => exact .none
  | some p =>
    obtain ⟨e, he, rfl⟩ := Option.map_eq_some_iff.mp hget
    have hmem : e ∈ x.entries := by
      have hchain := mem_of_find?_eq_some he
      rw [chain_eq_row] at hchain
      exact mem_entries.mpr ⟨_, hchain⟩
    exact .some (hx e hmem)

theorem Paired.count_eq (h : Paired R t u) : t.count = u.count := by
  obtain ⟨x, rfl, rfl, -⟩ := h
  rfl

theorem Paired.keys_eq (h : Paired R t u) : t.keys = u.keys := by
  obtain ⟨x, rfl, rfl, -⟩ := h
  rw [keys_map, keys_map]

theorem Paired.symm (h : Paired R t u) : Paired (flip R) u t := by
  obtain ⟨x, rfl, rfl, hx⟩ := h
  refine ⟨x.map Prod.swap, ?_, ?_, ?_⟩
  · simp [map, Function.comp_def, Entry.map]
  · simp [map, Function.comp_def, Entry.map]
  · rw [entries_map]
    intro e he
    obtain ⟨e', he', rfl⟩ := List.mem_map.mp he
    exact hx e' he'

/-- Going through both tables gives the same keys with related values. -/
theorem Paired.toList (h : Paired R t u) :
    List.Forall₂ (fun a b => a.1 = b.1 ∧ R a.2 b.2) t.toList u.toList := by
  obtain ⟨x, rfl, rfl, hx⟩ := h
  rw [toList_map, toList_map, forall₂_map_left_iff, forall₂_map_right_iff, Table.toList,
    forall₂_map_left_iff, forall₂_map_right_iff, forall₂_same]
  exact fun e he => ⟨rfl, hx e he⟩

end Paired

end Table

end TinyScript
