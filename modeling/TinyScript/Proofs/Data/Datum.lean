import TinyScript.Data.Datum

/-!
# Maps of plain data

The entries of a map are in the order of their keys, each key once (`Ordered`). `Datum.insert` keeps
them so, and `ofEntries_spec` says what that means for a map built from a list of entries: it is
ordered, and it has no entry that was not given. If no key is given twice, it has all of them
(`ofEntries_eq`).

What is inside a list or a map is less deep than the list or the map.
-/

/-- What goes through a list item by item maps it. -/
theorem TinyScript.eq_map_of_cons {α β : Type} {f : α → β} {g : List α → List β} (hnil : g [] = [])
    (hcons : ∀ x xs, g (x :: xs) = f x :: g xs) (xs : List α) : g xs = xs.map f := by
  induction xs with
  | nil => exact hnil
  | cons x xs ih => rw [hcons, ih, List.map_cons]

/-- Reading each item of a list, where no item fails. -/
theorem TinyScript.mapM_eq_ok {ε α β : Type} {f : α → Except ε β} {g : α → β} {xs : List α}
    (h : ∀ x ∈ xs, f x = .ok (g x)) : xs.mapM f = .ok (xs.map g) := by
  induction xs with
  | nil => rfl
  | cons x xs ih =>
    obtain ⟨hx, hxs⟩ := List.forall_mem_cons.1 h
    rw [List.mapM_cons, hx, ih hxs]
    rfl

namespace TinyScript.Text

/-- The order of bytes is that of lists. -/
theorem leBytes_iff {xs ys : List UInt8} : leBytes xs ys ↔ xs ≤ ys := by
  induction xs generalizing ys with
  | nil => simp [leBytes]
  | cons x xs ih =>
    cases ys with
    | nil => simp [leBytes]
    | cons y ys => simp [leBytes, List.cons_le_cons_iff, ih]

theorem not_le_iff {s t : Text} : ¬ s.le t ↔ t.bytes < s.bytes := by
  rw [le, leBytes_iff, List.not_le]

/-- Things with different texts, sorted by these, are strictly increasing. -/
theorem pairwise_lt_mergeSort {α : Type} {f : α → Text} {l : List α} (h : (l.map f).Nodup) :
    (l.mergeSort fun a b => (f a).le (f b)).Pairwise fun a b => (f a).bytes < (f b).bytes := by
  have htrans (a b c : α) (hab : (f a).le (f b)) (hbc : (f b).le (f c)) : (f a).le (f c) :=
    leBytes_iff.2 (List.le_trans (leBytes_iff.1 hab) (leBytes_iff.1 hbc))
  have htotal (a b : α) : ((f a).le (f b) || (f b).le (f a)) :=
    Bool.or_eq_true_iff.2 ((List.le_total (f a).bytes (f b).bytes).imp leBytes_iff.2 leBytes_iff.2)
  have hperm := List.mergeSort_perm l fun a b => (f a).le (f b)
  have hdistinct := List.pairwise_map.1 ((hperm.map f).nodup_iff.2 h)
  refine ((List.pairwise_mergeSort htrans htotal l).and hdistinct).imp fun {a b} hab => ?_
  refine List.not_le.1 fun hge => hab.2 ?_
  exact congrArg Text.mk (List.le_antisymm (leBytes_iff.1 hab.1) hge)

end TinyScript.Text

namespace TinyScript.Data.Datum

open List

/-! ## The order of the entries -/

/-- The entries of a map are in the order of their keys, each key once. -/
def Ordered (entries : List (Text × Datum)) : Prop :=
  entries.Pairwise fun e f => e.1.bytes < f.1.bytes

/-- Only the keys matter. -/
theorem Ordered.congr {entries entries' : List (Text × Datum)} (h : Ordered entries)
    (hkeys : entries'.map Prod.fst = entries.map Prod.fst) : Ordered entries' := by
  have hiff (es : List (Text × Datum)) : (es.map Prod.fst).Pairwise (fun s t => s.bytes < t.bytes) ↔ Ordered es :=
    pairwise_map
  rw [← hiff, hkeys, hiff]
  exact h

variable {entries : List (Text × Datum)} {key : Text}

/-- Nothing comes in but the new entry. -/
theorem mem_insert {value : Datum} {e : Text × Datum} (h : e ∈ insert key value entries) :
    e = (key, value) ∨ e ∈ entries := by
  induction entries with
  | nil => exact .inl (List.mem_singleton.1 h)
  | cons first rest ih =>
    obtain ⟨k, v⟩ := first
    rw [insert] at h
    split at h
    · exact (List.mem_cons.1 h).imp_right (mem_cons_of_mem _)
    · split at h
      · exact List.mem_cons.1 h
      · rcases List.mem_cons.1 h with rfl | h
        · exact .inr mem_cons_self
        · exact (ih h).imp_right (mem_cons_of_mem _)

/-- **An entry goes to its place.** -/
theorem Ordered.insert (h : Ordered entries) (key : Text) (value : Datum) :
    Ordered (insert key value entries) := by
  induction entries with
  | nil => exact pairwise_singleton _ _
  | cons first rest ih =>
    obtain ⟨k, v⟩ := first
    obtain ⟨hfirst, hrest⟩ := List.pairwise_cons.1 h
    rw [Datum.insert]
    split
    · next hk =>
      subst hk
      exact List.pairwise_cons.2 ⟨hfirst, hrest⟩
    · next hk =>
      split
      · next hle =>
        -- the new key is below the first one, and so below all the others
        have hlt : key.bytes < k.bytes := by
          refine List.not_le.1 fun hge => hk ?_
          have hbytes := List.le_antisymm hge (Text.leBytes_iff.1 hle)
          exact congrArg Text.mk hbytes
        refine List.pairwise_cons.2 ⟨fun f hf => ?_, h⟩
        rcases List.mem_cons.1 hf with rfl | hf
        · exact hlt
        · exact List.lt_trans hlt (hfirst f hf)
      · next hle =>
        refine List.pairwise_cons.2 ⟨fun f hf => ?_, ih hrest⟩
        rcases mem_insert hf with rfl | hf
        · exact Text.not_le_iff.1 hle
        · exact hfirst f hf

/-- An entry behind all others is put at the end. -/
theorem insert_append (h : ∀ e ∈ entries, e.1.bytes < key.bytes) (value : Datum) :
    insert key value entries = entries ++ [(key, value)] := by
  induction entries with
  | nil => rfl
  | cons first rest ih =>
    obtain ⟨hfirst, hrest⟩ := List.forall_mem_cons.1 h
    have hne : first.1 ≠ key := by
      rintro rfl
      exact List.lt_irrefl _ hfirst
    rw [insert, if_neg hne, if_neg (Text.not_le_iff.2 hfirst), ih hrest]
    rfl

/-- A key behind all others is not there. -/
theorem field?_eq_none (h : ∀ e ∈ entries, e.1.bytes < key.bytes) :
    (Datum.map entries).field? key = none := by
  rw [field?, Option.map_eq_none_iff, find?_eq_none]
  intro e he heq
  obtain rfl := of_decide_eq_true heq
  exact List.lt_irrefl _ (h e he)

/-- **Entries are put in order, none from elsewhere.** -/
theorem ofEntries_spec (given : List (Text × Datum)) :
    ∃ entries, ofEntries given = .map entries ∧ Ordered entries ∧ ∀ e ∈ entries, e ∈ given := by
  -- the loop keeps the order, whatever entries it starts with
  have hloop : ∀ acc : List (Text × Datum), Ordered acc →
      Ordered (given.foldl (fun acc e => insert e.1 e.2 acc) acc)
        ∧ ∀ e ∈ given.foldl (fun acc e => insert e.1 e.2 acc) acc, e ∈ acc ∨ e ∈ given := by
    induction given with
    | nil => exact fun acc h => ⟨h, fun e he => .inl he⟩
    | cons first rest ih =>
      intro acc h
      obtain ⟨hordered, hmem⟩ := ih _ (h.insert first.1 first.2)
      refine ⟨hordered, fun e he => ?_⟩
      rcases hmem e he with he | he
      · rcases mem_insert he with rfl | he
        · exact .inr mem_cons_self
        · exact .inl he
      · exact .inr (mem_cons_of_mem _ he)
  obtain ⟨hordered, hmem⟩ := hloop [] List.Pairwise.nil
  exact ⟨_, rfl, hordered, fun e he => (hmem e he).resolve_left not_mem_nil⟩

/-- Putting entries in order has nothing to do with their values. -/
theorem foldl_insert_map (g : Datum → Datum) (given acc : List (Text × Datum)) :
    (given.foldl (fun acc e => insert e.1 e.2 acc) acc).map (fun e => (e.1, g e.2))
      = (given.map fun e => (e.1, g e.2)).foldl (fun acc e => insert e.1 e.2 acc) (acc.map fun e => (e.1, g e.2)) := by
  have hinsert (key : Text) (value : Datum) (acc : List (Text × Datum)) :
      (insert key value acc).map (fun e => (e.1, g e.2)) = insert key (g value) (acc.map fun e => (e.1, g e.2)) := by
    induction acc with
    | nil => rfl
    | cons e acc ih =>
      rw [map_cons, insert, insert]
      split
      · rfl
      split
      · rfl
      · rw [map_cons, ih]
  induction given generalizing acc with
  | nil => rfl
  | cons e given ih => rw [foldl_cons, ih, hinsert, map_cons, foldl_cons]

/-! ## Entries in any order -/

/-- A new key takes the place of none. -/
theorem perm_insert (h : key ∉ entries.map Prod.fst) (value : Datum) :
    (insert key value entries).Perm ((key, value) :: entries) := by
  induction entries with
  | nil => exact .refl _
  | cons first rest ih =>
    obtain ⟨hfirst, hrest⟩ := ne_and_not_mem_of_not_mem_cons h
    rw [insert, if_neg hfirst.symm]
    split
    · exact .refl _
    · exact ((ih hrest).cons first).trans (.swap _ _ _)

theorem perm_foldl_insert {given acc : List (Text × Datum)} (h : ((given ++ acc).map Prod.fst).Nodup) :
    (given.foldl (fun acc e => insert e.1 e.2 acc) acc).Perm (given ++ acc) := by
  induction given generalizing acc with
  | nil => exact .refl _
  | cons first rest ih =>
    have hnew : first.1 ∉ acc.map Prod.fst := by
      rw [cons_append, map_cons, nodup_cons, map_append, mem_append] at h
      exact fun hmem => h.1 (.inr hmem)
    have hperm : (rest ++ insert first.1 first.2 acc).Perm (first :: rest ++ acc) :=
      ((perm_insert hnew first.2).append_left rest).trans perm_middle
    exact (ih ((hperm.map Prod.fst).nodup_iff.2 h)).trans hperm

theorem Ordered.nodup (h : Ordered entries) : (entries.map Prod.fst).Nodup := by
  refine List.pairwise_map.2 (h.imp fun hlt heq => ?_)
  rw [heq] at hlt
  exact List.lt_irrefl _ hlt

/-- The map of entries with different keys, in whatever order they are given. -/
theorem ofEntries_eq {given entries : List (Text × Datum)} (hordered : Ordered entries) (hperm : entries.Perm given) :
    ofEntries given = .map entries := by
  obtain ⟨kept, hkept, hordered', -⟩ := ofEntries_spec given
  have hnodup : ((given ++ []).map Prod.fst).Nodup := by
    rw [append_nil]
    exact (hperm.map Prod.fst).nodup_iff.1 hordered.nodup
  have hfold := perm_foldl_insert hnodup
  rw [append_nil] at hfold
  rw [ofEntries, Datum.map.injEq] at hkept ⊢
  rw [hkept] at hfold ⊢
  refine (hfold.trans hperm.symm).eq_of_pairwise (fun e f _ _ hef hfe => ?_) hordered' hordered
  exact absurd (List.lt_trans hef hfe) (List.lt_irrefl _)

/-- Entries with different keys can be put in order. -/
theorem exists_ordered {α : Type} {entries : List (Text × α)} (h : (entries.map Prod.fst).Nodup) :
    ∃ sorted : List (Text × α), sorted.Perm entries ∧ sorted.Pairwise fun e f => e.1.bytes < f.1.bytes :=
  ⟨_, mergeSort_perm entries _, Text.pairwise_lt_mergeSort h⟩

/-! ## Depth -/

/-- A list is as deep as its deepest item. -/
theorem depthItems_le_iff {items : List Datum} {n : Nat} : depthItems items ≤ n ↔ ∀ d ∈ items, d.depth ≤ n := by
  induction items with
  | nil => simp [depthItems]
  | cons d items ih => rw [depthItems, Nat.max_le, ih, forall_mem_cons]

theorem depthEntries_le_iff {n : Nat} : depthEntries entries ≤ n ↔ ∀ e ∈ entries, e.2.depth ≤ n := by
  induction entries with
  | nil => simp [depthEntries]
  | cons e entries ih => rw [depthEntries, Nat.max_le, ih, forall_mem_cons]

theorem depth_lt_of_mem_items {d : Datum} {items : List Datum} (h : d ∈ items) :
    d.depth < (Datum.list items).depth := by
  rw [depth]
  exact Nat.lt_succ_of_le (depthItems_le_iff.1 (Nat.le_refl _) d h)

theorem depth_lt_of_mem_entries {e : Text × Datum} (h : e ∈ entries) :
    e.2.depth < (Datum.map entries).depth := by
  rw [depth]
  exact Nat.lt_succ_of_le (depthEntries_le_iff.1 (Nat.le_refl _) e h)

/-- What is found in a datum is less deep. -/
theorem depth_lt_of_field? {d v : Datum} (h : d.field? key = some v) : v.depth < d.depth := by
  cases d with
  | map entries =>
    obtain ⟨e, he, rfl⟩ := Option.map_eq_some_iff.1 h
    exact depth_lt_of_mem_entries (mem_of_find?_eq_some he)
  | _ => cases h

end TinyScript.Data.Datum
