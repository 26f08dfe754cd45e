import Mathlib
import TinyScript.Proofs.Dict.Refill
import TinyScript.Proofs.Graph.Unfolding
import TinyScript.Proofs.Json.Erasure

/-!
# JSON is canonical

Two values have the same structure if they cannot be told apart by looking at their parts, at the parts of these, and
so on, dicts being looked at key by key (`Machine.SameStructure`). Such values become the same JSON, or both become
none (`Machine.SameStructure.toJson_eq`). The two unfold to trees, in which the entries of a dict stand in the order of
its table. This order is lost when they become a map.
-/

namespace TinyScript

open Data Heap List

/-! ## Plain data of trees -/

/-- An object without parts as plain data. -/
def Object.leafDatum (o : Object) : Except ConvertError Datum :=
  (o.leaf?.map Value.toDatum).elim (.error (.kind o.kind)) .ok

namespace Unfolded

mutual

/-- A tree as plain data. -/
def toDatum : Unfolded → Except ConvertError Datum
  | leaf o => o.leafDatum
  | pair h t => do
    let head ← h.toDatum
    let tail ← t.toDatum
    return .list [head, tail]
  | list items => do return .list (← itemsToDatum items)
  | dict entries => do return Datum.ofEntries (← entriesToDatum entries)

/-- Each item of a list as plain data. -/
def itemsToDatum : List Unfolded → Except ConvertError (List Datum)
  | [] => return []
  | x :: xs => do
    let d ← x.toDatum
    let ds ← itemsToDatum xs
    return d :: ds

/-- Each value of a dict as plain data. -/
def entriesToDatum : List (Text × Unfolded) → Except ConvertError (List (Text × Datum))
  | [] => return []
  | (k, x) :: xs => do
    let d ← x.toDatum
    let ds ← entriesToDatum xs
    return (k, d) :: ds

end

theorem itemsToDatum_eq (xs : List Unfolded) : itemsToDatum xs = xs.mapM toDatum := by
  induction xs with
  | nil => rfl
  | cons x xs ih => rw [itemsToDatum, ih, mapM_cons]

theorem entriesToDatum_eq (xs : List (Text × Unfolded)) :
    entriesToDatum xs = xs.mapM fun e => do return (e.1, ← e.2.toDatum) := by
  induction xs with
  | nil => rfl
  | cons x xs ih =>
    rw [entriesToDatum, ih, mapM_cons]
    simp only [bind_assoc, pure_bind]

end Unfolded

namespace Machine

variable {m n : Machine} {r s : Ref} {x : Unfolded}

/-- One step of the walk: if the parts become the plain data of their trees, so does the whole. -/
theorem toDatumWithin_succ {fuel : Nat} {path : List Ref} (hnot : r ∉ path)
    (hpart : ∀ c ∈ (m.object r).children, ∀ x, m.Unfolds c x → m.toDatumWithin fuel (r :: path) c = x.toDatum)
    (hx : m.Unfolds r x) : m.toDatumWithin (fuel + 1) path r = x.toDatum := by
  have hoff : ¬ path.contains r := by rwa [contains_iff_mem]
  rw [toDatumWithin]
  cases hx with
  | leaf hleaf =>
    rw [Unfolded.toDatum]
    cases ho : m.object r with
    | pair | list | dict => rw [ho] at hleaf; cases hleaf
    | _ => rfl
  | pair ho ha hb =>
    rw [ho] at hpart ⊢
    dsimp only
    rw [if_neg hoff, Unfolded.toDatum, hpart _ (by simp [Object.children]) _ ha,
      hpart _ (by simp [Object.children]) _ hb]
  | list ho hitems =>
    rw [ho] at hpart ⊢
    dsimp only [Object.children] at hpart ⊢
    rw [if_neg hoff, Unfolded.toDatum, Unfolded.itemsToDatum_eq, mapM_map,
      mapM_congr_left fun c hc => hpart c hc _ (hitems c hc)]
    rfl
  | dict ho hentries =>
    rw [ho, ← Table.forall_mem_toList] at hpart
    rw [ho]
    dsimp only
    rw [if_neg hoff, Unfolded.toDatum, Unfolded.entriesToDatum_eq, mapM_map,
      mapM_congr_left fun e he => by rw [hpart e he _ (hentries e he)]]
    rfl

/-- **A value becomes the plain data of its tree.** -/
theorem toDatum_eq_of_unfolds (hx : m.Unfolds r x) : m.toDatum r = x.toDatum :=
  hx.walk_eq toDatumWithin_succ

/-- What becomes plain data is a tree. -/
theorem exists_unfolds_of_toDatum {d : Datum} (hd : m.toDatum r = .ok d) : ∃ x, m.Unfolds r x ∧ x.toDatum = .ok d := by
  have hconverts := m.converts_toDatumWithin.iff.mp ⟨d, hd⟩
  obtain ⟨x, hx⟩ := exists_unfolds_iff.mpr fun s hs => (hconverts s hs).2
  exact ⟨x, hx, (toDatum_eq_of_unfolds hx).symm.trans hd⟩

end Machine

/-! ## Values of the same structure -/

/-- Objects that are the same as far as they are concerned themselves, and whose parts are related. Of functions
it is only asked that both are. -/
inductive Object.Matches (R : Ref → Ref → Prop) : Object → Object → Prop
  | leaf {o p} : o.isContainer = false → p.isContainer = false → o.kind = p.kind → o.leaf? = p.leaf? → Matches R o p
  | pair {a b c d} : R a c → R b d → Matches R (.pair a b) (.pair c d)
  | list {items items'} : List.Forall₂ R items items' → Matches R (.list items) (.list items')
  | dict {t u} : t.Valid → u.Valid → (∀ key, Option.Rel R (t.get? key) (u.get? key)) → Matches R (.dict t) (.dict u)

theorem isSome_eq_of_rel {α β : Type} {R : α → β → Prop} {a : Option α} {b : Option β} (h : Option.Rel R a b) :
    a.isSome = b.isSome := by
  cases h <;> rfl

namespace Object.Matches

variable {R : Ref → Ref → Prop} {p : Object}

theorem of_leaf {o : Object} (hleaf : o.isContainer = false) (h : Matches R o p) :
    p.isContainer = false ∧ o.kind = p.kind ∧ o.leaf? = p.leaf? := by
  cases h with
  | leaf _ hleaf' hkind hvalue => exact ⟨hleaf', hkind, hvalue⟩
  | pair | list | dict => cases hleaf

theorem of_pair {a b : Ref} (h : Matches R (.pair a b) p) : ∃ c d, p = .pair c d ∧ R a c ∧ R b d := by
  cases h with
  | leaf hleaf => cases hleaf
  | pair ha hb => exact ⟨_, _, rfl, ha, hb⟩

theorem of_list {items : List Ref} (h : Matches R (.list items) p) :
    ∃ items', p = .list items' ∧ List.Forall₂ R items items' := by
  cases h with
  | leaf hleaf => cases hleaf
  | list hitems => exact ⟨_, rfl, hitems⟩

theorem of_dict {t : Table Ref} (h : Matches R (.dict t) p) :
    ∃ u, p = .dict u ∧ t.Valid ∧ u.Valid ∧ ∀ key, Option.Rel R (t.get? key) (u.get? key) := by
  cases h with
  | leaf hleaf => cases hleaf
  | dict ht hu hkeys => exact ⟨_, rfl, ht, hu, hkeys⟩

theorem flip {o : Object} (h : Matches R o p) : Matches (flip R) p o := by
  cases h with
  | leaf ho hp hkind hvalue => exact .leaf hp ho hkind.symm hvalue.symm
  | pair ha hb => exact .pair ha hb
  | list hitems => exact .list hitems.flip
  | @dict t u ht hu hkeys =>
    refine .dict hu ht fun key => ?_
    have hrel := hkeys key
    generalize t.get? key = c at hrel ⊢
    generalize u.get? key = d at hrel ⊢
    cases hrel with
    | none => exact .none
    | some h => exact .some h

end Object.Matches

/-- Values of two machines that have the same structure: they are related by a relation under which objects match,
with the parts related in the same way. -/
def Machine.SameStructure (m n : Machine) (r s : Ref) : Prop :=
  ∃ R : Ref → Ref → Prop, R r s ∧ ∀ r s, R r s → Object.Matches R (m.object r) (n.object s)

/-- The order of entries with different keys does not matter. -/
theorem Data.Datum.ofEntries_perm {es fs : List (Text × Datum)} (hes : (es.map Prod.fst).Nodup) (hperm : es.Perm fs) :
    ofEntries es = ofEntries fs := by
  obtain ⟨sorted, hsorted, hordered⟩ := exists_ordered hes
  rw [ofEntries_eq hordered hsorted, ofEntries_eq hordered (hsorted.trans hperm)]

theorem bind_pure_eq_ok_iff {ε α β : Type} {x : Except ε α} {g : α → β} {b : β} :
    (do return g (← x)) = Except.ok (ε := ε) b ↔ ∃ a, x = .ok a ∧ g a = b := by
  constructor
  · intro h
    cases x with
    | error e => cases h
    | ok a => exact ⟨a, rfl, Except.ok.inj h⟩
  · rintro ⟨a, rfl, rfl⟩
    rfl

namespace Unfolded

/-- The plain data of the first tree, if it becomes any, are those of the second. -/
def Like (x y : Unfolded) : Prop := ∀ d, x.toDatum = .ok d → y.toDatum = .ok d

theorem like_leaf {o p : Object} (hkind : o.kind = p.kind) (hvalue : o.leaf? = p.leaf?) : (leaf o).Like (leaf p) := by
  intro d hd
  rwa [toDatum, Object.leafDatum, ← hkind, ← hvalue]

theorem like_pair {x y x' y' : Unfolded} (hx : x.Like x') (hy : y.Like y') : (pair x y).Like (pair x' y') := by
  intro d hd
  rw [toDatum] at hd ⊢
  cases hhead : x.toDatum with
  | error e =>
    rw [hhead] at hd
    cases hd
  | ok head =>
    rw [hhead] at hd
    obtain ⟨tail, htail, rfl⟩ := bind_pure_eq_ok_iff.mp hd
    rw [hx head hhead, hy tail htail]
    rfl

theorem like_list {xs ys : List Unfolded} (hxs : List.Forall₂ Like xs ys) : (list xs).Like (list ys) := by
  intro d hd
  rw [toDatum, itemsToDatum_eq, bind_pure_eq_ok_iff] at hd ⊢
  obtain ⟨ds, hmap, rfl⟩ := hd
  refine ⟨ds, mapM_eq_ok_iff.mpr ?_, rfl⟩
  have hds := mapM_eq_ok_iff.mp hmap
  clear hmap
  induction hxs generalizing ds with
  | nil =>
    cases hds
    exact .nil
  | cons hx _ ih =>
    cases hds with
    | cons hd hds => exact .cons (hx _ hd) (ih _ hds)

/-- The order of the entries of a dict is lost. -/
theorem like_dict {es es' : List (Text × Unfolded)} (hnodup : (es.map Prod.fst).Nodup)
    (hkeys : (es.map Prod.fst).Perm (es'.map Prod.fst))
    (hvalues : ∀ e' ∈ es', ∃ x, (e'.1, x) ∈ es ∧ x.Like e'.2) : (dict es).Like (dict es') := by
  intro d hd
  rw [toDatum, entriesToDatum_eq, bind_pure_eq_ok_iff] at hd ⊢
  obtain ⟨ds, hmap, rfl⟩ := hd
  have hds := mapM_eq_ok_iff.mp hmap
  simp only [bind_pure_eq_ok_iff] at hds
  -- each entry of the second dict becomes one that the first has become
  obtain ⟨ds', hmap', hds'⟩ : ∃ ds', es'.mapM (fun e => do return (e.1, ← e.2.toDatum)) = .ok ds' ∧
      List.Forall₂ (fun e d => e.1 = d.1 ∧ d ∈ ds) es' ds' := by
    refine exists_mapM_eq_ok fun e' he' => ?_
    obtain ⟨x, hx, hlike⟩ := hvalues e' he'
    obtain ⟨d, hd, c, hc, rfl⟩ := exists_of_forall₂_of_mem hds hx
    refine ⟨(e'.1, c), ?_, rfl, hd⟩
    rw [hlike c hc]
    rfl
  have hfst : es.map Prod.fst = ds.map Prod.fst := by
    refine map_eq_of_forall₂ hds fun e d hd => ?_
    obtain ⟨c, -, rfl⟩ := hd
    rfl
  have hfst' : es'.map Prod.fst = ds'.map Prod.fst := map_eq_of_forall₂ hds' fun _ _ hd => hd.1
  rw [hfst] at hnodup
  rw [hfst, hfst'] at hkeys
  -- and there are as many
  have hsub : ds' ⊆ ds := by
    intro d hd
    obtain ⟨e, -, -, hmem⟩ := exists_of_forall₂_of_mem hds'.flip hd
    exact hmem
  have hlength : ds.length ≤ ds'.length := by
    have hle := hkeys.length_eq.le
    rwa [length_map, length_map] at hle
  have hperm : ds'.Perm ds := (((hkeys.nodup_iff.mp hnodup).of_map _).subperm hsub).perm_of_length_le hlength
  exact ⟨ds', hmap', (Datum.ofEntries_perm hnodup hperm.symm).symm⟩

end Unfolded

/-- Tables with the same keys list them in some order. -/
theorem Table.Valid.keys_perm {α β : Type} {t : Table α} {u : Table β} (ht : t.Valid) (hu : u.Valid)
    (hkeys : ∀ key, (t.get? key).isSome = (u.get? key).isSome) : t.keys.Perm u.keys := by
  refine (perm_ext_iff_of_nodup ht.nodup_keys hu.nodup_keys).mpr fun key => ?_
  rw [mem_keys_iff ht, mem_keys_iff hu, hkeys]

namespace Machine

variable {m n : Machine} {r s : Ref} {x : Unfolded} {R : Ref → Ref → Prop}

/-- What matches a tree is a tree, and becomes the same plain data. -/
theorem exists_unfolds_of_matches (hR : ∀ r s, R r s → Object.Matches R (m.object r) (n.object s)) (hx : m.Unfolds r x)
    (hrs : R r s) : ∃ y, n.Unfolds s y ∧ x.Like y := by
  -- by induction on the first tree; the trees of the second machine are picked by a function once and for all
  obtain ⟨g, hg⟩ := n.exists_tree
  induction hx generalizing s with
  | @leaf r hleaf =>
    obtain ⟨hleaf', hkind, hvalue⟩ := (hR r s hrs).of_leaf hleaf
    exact ⟨_, .leaf hleaf', Unfolded.like_leaf hkind hvalue⟩
  | @pair r a b x y ho _ _ iha ihb =>
    obtain ⟨c, d, hp, ha, hb⟩ := (ho ▸ hR r s hrs).of_pair
    obtain ⟨x', hx', hlike⟩ := iha ha
    obtain ⟨y', hy', hlike'⟩ := ihb hb
    exact ⟨_, .pair hp hx' hy', Unfolded.like_pair hlike hlike'⟩
  | @list r items f ho _ ih =>
    obtain ⟨items', hp, hitems⟩ := (ho ▸ hR r s hrs).of_list
    have hparts : List.Forall₂ (fun c c' => n.Unfolds c' (g c') ∧ (f c).Like (g c')) items items' := by
      refine ((forall₂_and_left _ _).mpr ⟨fun _ hc => hc, hitems⟩).imp fun c c' hc => ?_
      obtain ⟨y, hy, hlike⟩ := ih c hc.1 hc.2
      obtain rfl := hg hy
      exact ⟨hy, hlike⟩
    refine ⟨.list (items'.map g), .list hp fun c' hc' => ?_, Unfolded.like_list ?_⟩
    · obtain ⟨c, -, hc⟩ := exists_of_forall₂_of_mem hparts.flip hc'
      exact hc.1
    · rw [forall₂_map_left_iff, forall₂_map_right_iff]
      exact hparts.imp fun _ _ hc => hc.2
  | @dict r t f ho _ ih =>
    obtain ⟨u, hp, ht, hu, hkeys⟩ := (ho ▸ hR r s hrs).of_dict
    -- a key of the second table is one of the first, wherever it stands there
    have hparts : ∀ e' ∈ u.toList, ∃ c, (e'.1, c) ∈ t.toList ∧ n.Unfolds e'.2 (g e'.2) ∧ (f c).Like (g e'.2) := by
      intro e' he'
      have hrel := hkeys e'.1
      rw [hu.mem_toList_iff.mp he'] at hrel
      generalize hc : t.get? e'.1 = c? at hrel
      cases hrel with
      | @some c _ hcc' =>
        have hmem : (e'.1, c) ∈ t.toList := ht.mem_toList_iff.mpr hc
        obtain ⟨y, hy, hlike⟩ := ih (e'.1, c) hmem hcc'
        obtain rfl := hg hy
        exact ⟨c, hmem, hy, hlike⟩
    have hfst (t : Table Ref) (f : Ref → Unfolded) : (t.toList.map fun e => (e.1, f e.2)).map Prod.fst = t.keys := by
      rw [map_map, ← t.map_fst_toList]
      rfl
    refine ⟨.dict (u.toList.map fun e => (e.1, g e.2)), .dict hp fun e' he' => ?_, Unfolded.like_dict ?_ ?_ ?_⟩
    · obtain ⟨c, -, hy, -⟩ := hparts e' he'
      exact hy
    · rw [hfst]
      exact ht.nodup_keys
    · rw [hfst, hfst]
      exact ht.keys_perm hu fun key => isSome_eq_of_rel (hkeys key)
    · refine List.forall_mem_map.mpr fun e' he' => ?_
      obtain ⟨c, hc, -, hlike⟩ := hparts e' he'
      exact ⟨f c, List.mem_map.mpr ⟨_, hc, rfl⟩, hlike⟩

namespace SameStructure

theorem symm (h : m.SameStructure n r s) : n.SameStructure m s r := by
  obtain ⟨R, hrs, hR⟩ := h
  exact ⟨flip R, hrs, fun s r hrs => (hR r s hrs).flip⟩

theorem toDatum_eq_ok (h : m.SameStructure n r s) {d : Datum} (hd : m.toDatum r = .ok d) : n.toDatum s = .ok d := by
  obtain ⟨R, hrs, hR⟩ := h
  obtain ⟨x, hx, hxd⟩ := exists_unfolds_of_toDatum hd
  obtain ⟨y, hy, hlike⟩ := exists_unfolds_of_matches hR hx hrs
  rw [toDatum_eq_of_unfolds hy]
  exact hlike d hxd

theorem toJson_eq (h : m.SameStructure n r s) :
    (∃ e e', m.toJson r = .error e ∧ n.toJson s = .error e') ∨ ∃ t, m.toJson r = .ok t ∧ n.toJson s = .ok t := by
  rw [toJson, toJson]
  cases hr : m.toDatum r with
  | ok d =>
    rw [h.toDatum_eq_ok hr]
    exact Or.inr ⟨_, rfl, rfl⟩
  | error e =>
    -- if the second became data, so would the first
    cases hs : n.toDatum s with
    | ok d =>
      rw [h.symm.toDatum_eq_ok hs] at hr
      cases hr
    | error e' => exact Or.inl ⟨e, e', rfl, rfl⟩

end SameStructure

end Machine

/-! ## Keys -/

namespace Act

variable {m : Machine}

/-- Strings are made one after the other, each pinned before the next. -/
theorem newStrings_retains (ts : List Text) (acc : List Ref) (hm : m.Ready) :
    ∃ rs m', (newStrings ts acc).run m = (acc.reverse ++ rs, m') ∧ m.Grows m' ∧
      List.Forall₂ (fun t r => m.Retains (fun h r => h.Denotes r (.string t)) r m') ts rs := by
  induction ts generalizing acc m with
  | nil => exact ⟨[], m, by rw [append_nil]; rfl, .refl hm, .nil⟩
  | cons t ts ih =>
    rcases hrun : (alloc (.string t)).run m with ⟨r, m₁⟩
    have hadds := adds_of_alloc hm hrun
    have hbrings : m.Brings (fun h r => h.Denotes r (.string t)) r m₁ :=
      .of_leaf hadds (.leaf hadds.get?_eq rfl) rfl
    have hpinned := hbrings.pin
    obtain ⟨rs, m₂, hothers, hgrows, hretains⟩ := ih (r :: acc) hpinned.grows.ready
    refine ⟨r :: rs, m₂, ?_, hpinned.grows.trans hgrows,
      .cons (hpinned.later (lasting_denotes _) hgrows) (hretains.imp fun _ _ h => h.earlier hpinned.grows)⟩
    rw [reverse_cons, append_assoc] at hothers
    exact (run_bind_of hrun).trans hothers

/-- The keys of a dict are a list of strings, sorted. -/
theorem keysOf_denotes (hm : m.Ready) {d : Ref} {t : Table Ref} (hd : m.heap.get? d = some (.dict t)) :
    ∃ r m', (keysOf [d]).run.run m = (.ok r, m') ∧ m'.heap.Denotes r (.list ((Text.sort t.keys).map .string)) := by
  have hobject : (object d).run m = (.dict t, m) := by
    have hrun : (object d).run m = (m.object d, m) := rfl
    rw [hrun, Machine.object, hd, Option.getD_some]
  obtain ⟨rs, m₁, hstrings, hgrows, hretains⟩ := newStrings_retains (Text.sort t.keys) [] hm
  rcases hlist : (allocHolding (.list rs) rs).run m₁ with ⟨r, m₂⟩
  have hadds := adds_of_allocHolding hgrows.ready hlist
  -- the strings were pinned, so they are still there when the list is made
  have hdenotes : List.Forall₂ m₂.heap.Denotes rs ((Text.sort t.keys).map .string) := by
    refine List.forall₂_map_right_iff.mpr (hretains.flip.imp fun r t h => ?_)
    exact (h.later (lasting_denotes _) hadds.grows).made
  have hzip := List.forall₂_iff_zip.mp hdenotes
  refine ⟨r, { m₂ with pins := m₂.pins.shrink m.pins.size }, ?_,
    .list hadds.get?_eq hzip.1 fun p hp => hzip.2 hp⟩
  exact Gives.bind (gives_act hobject) (Gives.bind (gives_act rfl) (Gives.bind (gives_act hstrings)
    (Gives.bind (gives_act hlist) (Gives.bind (gives_act rfl) (gives_pure r)))))

end Act

theorem Text.sort_increasing {ks : List Text} (h : ks.Nodup) : (sort ks).Pairwise fun s t => s.bytes < t.bytes :=
  pairwise_lt_mergeSort (f := id) (by rwa [map_id])

/-- Sorting forgets an order. -/
theorem Text.sort_eq_of_perm {ks ks' : List Text} (h : ks.Nodup) (hperm : ks.Perm ks') : sort ks = sort ks' := by
  have hsorted : (sort ks).Perm (sort ks') := (mergeSort_perm ks _).trans (hperm.trans (mergeSort_perm ks' _).symm)
  refine hsorted.eq_of_pairwise (fun s t _ _ hst hts => ?_) (sort_increasing h) (sort_increasing (hperm.nodup_iff.mp h))
  exact absurd (List.lt_trans hst hts) (List.lt_irrefl _)

/-- **JSON and lists of keys are canonical.** Values of the same structure, on one machine or on two, both become no JSON
or become the same JSON, byte for byte. Dicts that have the same keys have the same list of keys, which is strictly
increasing and has exactly the keys that are there. -/
theorem Machine.toJson_keysOf_canonical (m n : Machine) :
    (∀ r s, m.SameStructure n r s →
      (∃ e e', m.toJson r = .error e ∧ n.toJson s = .error e') ∨ ∃ t, m.toJson r = .ok t ∧ n.toJson s = .ok t) ∧
    ∀ (d d' : Ref) (t u : Table Ref), m.Ready → n.Ready → m.heap.get? d = some (.dict t) →
      n.heap.get? d' = some (.dict u) → t.Valid → u.Valid → (∀ key, (t.get? key).isSome = (u.get? key).isSome) →
      ∃ ks : List Text, ks.Pairwise (fun j k => j.bytes < k.bytes) ∧ (∀ key, key ∈ ks ↔ (t.get? key).isSome = true) ∧
        (∃ r m', (Act.keysOf [d]).run.run m = (.ok r, m') ∧ m'.heap.Denotes r (.list (ks.map .string))) ∧
        ∃ r n', (Act.keysOf [d']).run.run n = (.ok r, n') ∧ n'.heap.Denotes r (.list (ks.map .string)) := by
  refine ⟨fun r s h => h.toJson_eq, fun d d' t u hm hn hd hd' ht hu hkeys => ?_⟩
  have hsort : Text.sort t.keys = Text.sort u.keys := Text.sort_eq_of_perm ht.nodup_keys (ht.keys_perm hu hkeys)
  refine ⟨Text.sort t.keys, Text.sort_increasing ht.nodup_keys, fun key => ?_, Act.keysOf_denotes hm hd, ?_⟩
  · rw [Text.sort, mem_mergeSort, Table.mem_keys_iff ht]
  · rw [hsort]
    exact Act.keysOf_denotes hn hd'

/-! ## Two dicts with different histories -/

namespace Machine

/-- An empty table with one row. -/
def narrow : Table Ref := .ofRows 1 (by decide) 8 false

/-- A table that keys were put into. -/
def built : Table Ref := narrow.run [.put "b" ⟨1, 1⟩, .put "a" ⟨3, 1⟩]

/-- A table that keys were put into in another order, one of which was removed, and that has grown. -/
def rebuilt : Table Ref :=
  narrow.run [.put "a" ⟨4, 1⟩, .put "c" ⟨0, 1⟩, .erase "c", .grow 2, .put "b" ⟨2, 1⟩]

/-- The shared `nil`, a number, a second object for the number, a list that holds the first twice, a list that holds
both, and dicts with the two tables. -/
def rearranged : Machine where
  heap :=
    let (h, _) := Heap.empty.alloc .nil true
    let (h, _) := h.alloc (.i64 5) false
    let (h, _) := h.alloc (.i64 5) false
    let (h, _) := h.alloc (.list [⟨1, 1⟩, ⟨1, 1⟩]) false
    let (h, _) := h.alloc (.list [⟨1, 1⟩, ⟨2, 1⟩]) false
    let (h, _) := h.alloc (.dict built) false
    let (h, _) := h.alloc (.dict rebuilt) false
    h
  nil := ⟨0, 1⟩

theorem ready_rearranged : rearranged.Ready where
  wellFormed :=
    (((((((Heap.threaded_empty.alloc _ _).alloc _ _).alloc _ _).alloc _ _).alloc _ _).alloc _ _).alloc _ _).wellFormed
  nil_eq := rfl
  nil_root := rfl

theorem valid_narrow : narrow.Valid := Table.valid_ofRows (by decide) _ _ _

theorem valid_built : built.Valid :=
  valid_narrow.run (Table.inRange_of_factors fun factor h => by simp at h)

theorem valid_rebuilt : rebuilt.Valid :=
  valid_narrow.run (Table.inRange_of_factors fun factor h => by simp_all)

theorem get?_narrow (key : Text) : narrow.get? key = Table.latest key [] := Table.get?_ofRows _ _ _ _ key

theorem get?_built (key : Text) : built.get? key = Table.latest key [.put "a" ⟨3, 1⟩, .put "b" ⟨1, 1⟩] :=
  valid_narrow.get?_run (Table.inRange_of_factors fun factor h => by simp at h) (get?_narrow key)

theorem get?_rebuilt (key : Text) : rebuilt.get? key
    = Table.latest key [.put "b" ⟨2, 1⟩, .grow 2, .erase "c", .put "c" ⟨0, 1⟩, .put "a" ⟨4, 1⟩] :=
  valid_narrow.get?_run (Table.inRange_of_factors fun factor h => by simp_all) (get?_narrow key)

/-- Under each key both tables have nothing, or related values. -/
theorem rel_built_rebuilt {R : Ref → Ref → Prop} (ha : R ⟨3, 1⟩ ⟨4, 1⟩) (hb : R ⟨1, 1⟩ ⟨2, 1⟩) (key : Text) :
    Option.Rel R (built.get? key) (rebuilt.get? key) := by
  rw [get?_built, get?_rebuilt]
  simp only [Table.latest]
  by_cases hkey : "a" = key
  · subst hkey
    exact .some ha
  by_cases hkey' : "b" = key
  · subst hkey'
    exact .some hb
  · rw [if_neg hkey, if_neg hkey', if_neg hkey', if_neg hkey]
    split
    · exact .none
    · exact .none

theorem sameStructure_rearranged : rearranged.SameStructure rearranged ⟨5, 1⟩ ⟨6, 1⟩ := by
  let pairs : List (Ref × Ref) := [(⟨5, 1⟩, ⟨6, 1⟩), (⟨3, 1⟩, ⟨4, 1⟩), (⟨1, 1⟩, ⟨2, 1⟩), (⟨1, 1⟩, ⟨1, 1⟩)]
  refine ⟨fun r s => (r, s) ∈ pairs, mem_cons_self, fun r s hrs => ?_⟩
  simp only [pairs, mem_cons, not_mem_nil, or_false, Prod.mk.injEq] at hrs
  have hnumber : rearranged.object ⟨1, 1⟩ = .i64 5 := rfl
  have hcopy : rearranged.object ⟨2, 1⟩ = .i64 5 := rfl
  have hshared : rearranged.object ⟨3, 1⟩ = .list [⟨1, 1⟩, ⟨1, 1⟩] := rfl
  have happart : rearranged.object ⟨4, 1⟩ = .list [⟨1, 1⟩, ⟨2, 1⟩] := rfl
  have hbuilt : rearranged.object ⟨5, 1⟩ = .dict built := rfl
  have hrebuilt : rearranged.object ⟨6, 1⟩ = .dict rebuilt := rfl
  rcases hrs with ⟨rfl, rfl⟩ | ⟨rfl, rfl⟩ | ⟨rfl, rfl⟩ | ⟨rfl, rfl⟩
  · rw [hbuilt, hrebuilt]
    exact .dict valid_built valid_rebuilt (rel_built_rebuilt (by simp [pairs]) (by simp [pairs]))
  · rw [hshared, happart]
    exact .list (.cons (by simp [pairs]) (.cons (by simp [pairs]) .nil))
  · rw [hnumber, hcopy]
    exact .leaf rfl rfl rfl rfl
  · rw [hnumber]
    exact .leaf rfl rfl rfl rfl

/-- The tables list their keys in different orders, and one list has its item twice, but none of this shows. -/
theorem toJson_keysOf_canonical_rearranged :
    rearranged.SameStructure rearranged ⟨5, 1⟩ ⟨6, 1⟩ ∧ rearranged.Ready ∧
      built.keys = ["b", "a"] ∧ rebuilt.keys = ["a", "b"] ∧
      rearranged.toJson ⟨5, 1⟩ = .ok "\x7b\"a\":[5,5],\"b\":5\x7d" ∧
      rearranged.toJson ⟨6, 1⟩ = .ok "\x7b\"a\":[5,5],\"b\":5\x7d" ∧
      ∃ ks : List Text, ks.Pairwise (fun j k => j.bytes < k.bytes) ∧
        (∀ key, key ∈ ks ↔ (built.get? key).isSome = true) ∧
        (∃ r m', (Act.keysOf [⟨5, 1⟩]).run.run rearranged = (.ok r, m') ∧ m'.heap.Denotes r (.list (ks.map .string))) ∧
        ∃ r m', (Act.keysOf [⟨6, 1⟩]).run.run rearranged = (.ok r, m') ∧
          m'.heap.Denotes r (.list (ks.map .string)) := by
  have hjson : rearranged.toJson ⟨5, 1⟩ = .ok "\x7b\"a\":[5,5],\"b\":5\x7d" := by cbv
  obtain ⟨hcanonical, hkeys⟩ := toJson_keysOf_canonical rearranged rearranged
  have hsame : rearranged.toJson ⟨6, 1⟩ = .ok "\x7b\"a\":[5,5],\"b\":5\x7d" := by
    rcases hcanonical _ _ sameStructure_rearranged with ⟨e, e', he, -⟩ | ⟨t, ht, ht'⟩
    · rw [hjson] at he
      cases he
    · rw [ht', ← ht, hjson]
  have hsome (key : Text) : (built.get? key).isSome = (rebuilt.get? key).isSome :=
    isSome_eq_of_rel (rel_built_rebuilt (R := fun _ _ => True) trivial trivial key)
  exact ⟨sameStructure_rearranged, ready_rearranged, by cbv, by cbv, hjson, hsame,
    hkeys ⟨5, 1⟩ ⟨6, 1⟩ built rebuilt ready_rearranged ready_rearranged rfl rfl valid_built valid_rebuilt hsome⟩

end Machine

end TinyScript
