import TinyScript.Proofs.Packed.Building
import TinyScript.Proofs.Packed.Trees

/-!
# Values of a tree

`Unfolded.Value` says of a value that it unfolds to a tree, with nothing stale and all tables in order. It is true as
long as all of the value stays, and it is told for each kind of tree by the parts. A value has the packed form of its
tree (`Machine.pack_eq_of_unfolds`), and a value of what the tree comes back as is the same as the value
(`Unfolded.Value.same`).
-/

namespace TinyScript

open Data Heap List

/-! ## Values that unfold to a tree -/

/-- A value unfolds to the same tree while all of it stays. -/
theorem Machine.Unfolds.stays {m k : Machine} {r : Ref} {x : Unfolded} (hx : m.Unfolds r x)
    (hstays : m.heap.Stays k.heap r) : k.Unfolds r x := by
  have hobject {r : Ref} (hstays : m.heap.Stays k.heap r) : k.object r = m.object r := by
    rw [object, object, hstays r .refl]
  have hpart {r c : Ref} (hstays : m.heap.Stays k.heap r) (hc : c ∈ (m.object r).children) :
      m.heap.Stays k.heap c := by
    obtain ⟨o, ho, hc⟩ := mem_children_object_iff.mp hc
    exact hstays.child ho hc
  induction hx with
  | leaf hleaf =>
    rw [← hobject hstays] at hleaf ⊢
    exact .leaf hleaf
  | pair ho _ _ iha ihb =>
    refine .pair ((hobject hstays).trans ho) (iha (hpart hstays ?_)) (ihb (hpart hstays ?_)) <;>
      simp [ho, Object.children]
  | list ho _ ih =>
    refine .list ((hobject hstays).trans ho) fun c hc => ih c hc (hpart hstays ?_)
    rwa [ho]
  | dict ho _ ih =>
    refine .dict ((hobject hstays).trans ho) fun e he => ih e he (hpart hstays ?_)
    rw [ho]
    exact Table.forall_mem_toList.mpr (fun _ hc => hc) e he

/-- Nothing that the reference comes to is stale, and the tables of dicts are in order. -/
def Heap.Intact (h : Heap) (r : Ref) : Prop :=
  ∀ s, h.Reaches r s → ∃ o, h.get? s = some o ∧ ∀ t, o = .dict t → t.Valid

/-- An object is intact if its table is and its parts are. -/
theorem Heap.intact_of_parts {h : Heap} {r : Ref} {o : Object} (ho : h.get? r = some o)
    (htable : ∀ t, o = .dict t → t.Valid) (hparts : ∀ c ∈ o.children, h.Intact c) : h.Intact r := by
  intro s hs
  rcases hs.eq_or_child ho with rfl | ⟨c, hc, hcs⟩
  · exact ⟨o, ho, htable⟩
  · exact hparts c hc s hcs

namespace Unfolded

/-- An intact value that unfolds to the tree. -/
structure Value (x : Unfolded) (h : Heap) (r : Ref) : Prop where
  unfolds : ({ heap := h } : Machine).Unfolds r x
  intact : h.Intact r

theorem lasting_value (x : Unfolded) : Lasting x.Value where
  stays hx hstays :=
    { unfolds := hx.unfolds.stays hstays
      intact := fun s hs => by
        have hs := hstays.reaches hs
        rw [hstays s hs]
        exact hx.intact s hs }
  valid hx hs := by
    obtain ⟨o, ho, -⟩ := hx.intact _ hs
    exact valid_iff_get?.mpr ⟨o, ho⟩

namespace Value

variable {h h' : Heap} {r r' : Ref} {x y : Unfolded}

theorem object_eq {o : Object} (ho : h.get? r = some o) : ({ heap := h } : Machine).object r = o := by
  rw [Machine.object, ho, Option.getD_some]

/-- What the reference of a value names, with what is known of its parts. -/
theorem get?_eq (hx : x.Value h r) : h.get? r = some (({ heap := h } : Machine).object r) := by
  obtain ⟨o, ho, -⟩ := hx.intact r .refl
  rw [object_eq ho, ho]

/-- The parts of a value are intact. -/
theorem part (hx : x.Value h r) {c : Ref} (hc : c ∈ (({ heap := h } : Machine).object r).children) : h.Intact c :=
  fun s hs => hx.intact s (.of_child hx.get?_eq hc hs)

theorem leaf {o : Object} (ho : h.get? r = some o) (hleaf : o.isContainer = false) : (Unfolded.leaf o).Value h r where
  unfolds := by
    have hobject := object_eq ho
    rw [← hobject] at hleaf ⊢
    exact .leaf hleaf
  intact := by
    refine intact_of_parts ho (fun t ht => ?_) fun c hc => ?_
    · rw [ht] at hleaf
      cases hleaf
    · rw [Object.children_eq_nil hleaf] at hc
      exact absurd hc not_mem_nil

theorem of_leaf {o : Object} (hx : (Unfolded.leaf o).Value h r) : h.get? r = some o := by
  have hget := hx.get?_eq
  cases hx.unfolds with
  | leaf => exact hget

theorem pair {a b : Ref} (ho : h.get? r = some (.pair a b)) (hx : x.Value h a) (hy : y.Value h b) :
    (Unfolded.pair x y).Value h r where
  unfolds := .pair (object_eq ho) hx.unfolds hy.unfolds
  intact := by
    refine intact_of_parts ho (fun t ht => nomatch ht) fun c hc => ?_
    rcases List.mem_pair.mp hc with rfl | rfl
    · exact hx.intact
    · exact hy.intact

theorem of_pair (hx : (Unfolded.pair x y).Value h r) :
    ∃ a b, h.get? r = some (.pair a b) ∧ x.Value h a ∧ y.Value h b := by
  have hget := hx.get?_eq
  have hpart {c : Ref} := hx.part (c := c)
  cases hx.unfolds with
  | @pair _ a b _ _ ho ha hb =>
    rw [ho] at hget hpart
    exact ⟨a, b, hget, ⟨ha, hpart (by simp [Object.children])⟩, hb, hpart (by simp [Object.children])⟩

theorem list {items : List Ref} {xs : List Unfolded} (ho : h.get? r = some (.list items))
    (hxs : List.Forall₂ (fun c x => x.Value h c) items xs) : (Unfolded.list xs).Value h r := by
  obtain ⟨f, hf⟩ := Machine.exists_tree { heap := h }
  have hmap : xs = items.map f := by
    rw [← forall₂_eq_eq_eq, forall₂_map_right_iff]
    exact hxs.flip.imp fun x c hx => hf hx.unfolds
  have hitems : ∀ c ∈ items, (f c).Value h c := by
    intro c hc
    obtain ⟨x, -, hx⟩ := exists_of_forall₂_of_mem hxs hc
    rwa [← hf hx.unfolds]
  rw [hmap]
  exact ⟨.list (object_eq ho) fun c hc => (hitems c hc).unfolds,
    intact_of_parts ho (fun t ht => nomatch ht) fun c hc => (hitems c hc).intact⟩

theorem of_list {xs : List Unfolded} (hx : (Unfolded.list xs).Value h r) :
    ∃ items f, h.get? r = some (.list items) ∧ xs = items.map f ∧ ∀ c ∈ items, (f c).Value h c := by
  have hget := hx.get?_eq
  have hpart {c : Ref} := hx.part (c := c)
  cases hx.unfolds with
  | @list _ items f ho hitems =>
    rw [ho] at hget hpart
    exact ⟨items, f, hget, rfl, fun c hc => ⟨hitems c hc, hpart hc⟩⟩

theorem dict {t : Table Ref} {es : List (Text × Unfolded)} (ho : h.get? r = some (.dict t)) (ht : t.Valid)
    (hes : List.Forall₂ (fun e x => e.1 = x.1 ∧ x.2.Value h e.2) t.toList es) : (Unfolded.dict es).Value h r := by
  obtain ⟨f, hf⟩ := Machine.exists_tree { heap := h }
  have hmap : es = t.toList.map fun e => (e.1, f e.2) := by
    rw [← forall₂_eq_eq_eq, forall₂_map_right_iff]
    exact hes.flip.imp fun x e hx => Prod.ext hx.1.symm (hf hx.2.unfolds)
  have hentries : ∀ e ∈ t.toList, (f e.2).Value h e.2 := by
    intro e he
    obtain ⟨x, -, hx⟩ := exists_of_forall₂_of_mem hes he
    rw [← hf hx.2.unfolds]
    exact hx.2
  rw [hmap]
  refine ⟨.dict (object_eq ho) fun e he => (hentries e he).unfolds, intact_of_parts ho (fun u hu => ?_) ?_⟩
  · cases hu
    exact ht
  · exact Table.forall_mem_toList.mp fun e he => (hentries e he).intact

/-- The entries of a dict, each with a value of its own. -/
theorem of_dict {es : List (Text × Unfolded)} (hx : (Unfolded.dict es).Value h r) :
    ∃ t, ∃ f : Ref → Unfolded, h.get? r = some (.dict t) ∧ t.Valid ∧ (es = t.toList.map fun e => (e.1, f e.2)) ∧
      ∀ key c, t.get? key = some c → (f c).Value h c := by
  have hget := hx.get?_eq
  have hpart {c : Ref} := hx.part (c := c)
  obtain ⟨o, ho, htable⟩ := hx.intact r .refl
  cases hx.unfolds with
  | @dict _ t f hobject hentries =>
    rw [hobject] at hget hpart
    have hvalid := htable t (Option.some.inj (ho.symm.trans hget))
    refine ⟨t, f, hget, hvalid, rfl, fun key c hc => ?_⟩
    exact ⟨hentries (key, c) (hvalid.mem_toList_iff.mpr hc), hpart (mem_children_of_get? hvalid hc)⟩

/-- **A value of what a tree comes back as is the same as a value of the tree.** -/
theorem same (hx : x.Value h r) (hxy : x.Restores y) (hy : y.Value h' r') : h.Same h' r r' := by
  induction hxy generalizing r r' with
  | leaf hrestored _ => exact .leaf hx.of_leaf hy.of_leaf hrestored
  | pair _ _ iha ihb =>
    obtain ⟨a, b, ho, ha, hb⟩ := hx.of_pair
    obtain ⟨a', b', ho', ha', hb'⟩ := hy.of_pair
    exact .pair ho ho' (iha ha ha') (ihb hb hb')
  | @list xs g _ _ ih =>
    obtain ⟨items, f, ho, rfl, hitems⟩ := hx.of_list
    obtain ⟨items', f', ho', heq, hitems'⟩ := hy.of_list
    -- items that stand across from each other are values of a tree and of what it comes back as
    rw [map_map, ← forall₂_eq_eq_eq, forall₂_map_left_iff, forall₂_map_right_iff,
      forall₂_iff_zip] at heq
    refine .list ho ho' heq.1 fun p hp => ?_
    obtain ⟨hc, hc'⟩ := of_mem_zip hp
    have hback : g (f p.1) = f' p.2 := heq.2 hp
    exact ih _ (mem_map_of_mem hc) (hitems _ hc) (hback ▸ hitems' _ hc')
  | @dict es g _ _ _ ih =>
    obtain ⟨t, f, ho, ht, rfl, hvalues⟩ := hx.of_dict
    obtain ⟨t', f', ho', ht', heq, hvalues'⟩ := hy.of_dict
    have hfst : ((t.toList.map fun e => (e.1, f e.2)).map fun e => (e.1, g e.2)).map Prod.fst = t.keys := by
      rw [map_map, map_map, ← t.map_fst_toList]
      rfl
    have hfst' : (t'.toList.map fun e => (e.1, f' e.2)).map Prod.fst = t'.keys := by
      rw [map_map, ← t'.map_fst_toList]
      rfl
    -- the entries are those of the first dict, in whatever order
    have hperm := Table.toList_putAll_perm (hfst ▸ ht.nodup_keys)
    rw [heq] at hperm
    have hkeys := hperm.map Prod.fst
    rw [hfst, hfst'] at hkeys
    refine .dict ho ho' ht' (fun key => ?_) fun key s s' hs hs' => ?_
    · rw [Bool.eq_iff_iff, ← Table.mem_keys_iff ht, ← Table.mem_keys_iff ht', hkeys.mem_iff]
    · have hmem : (key, f' s') ∈ (t.toList.map fun e => (e.1, f e.2)).map fun e => (e.1, g e.2) :=
        hperm.mem_iff.mp (List.mem_map.mpr ⟨(key, s'), ht'.mem_toList_iff.mpr hs', rfl⟩)
      obtain ⟨_, he, heq⟩ := List.mem_map.mp hmem
      obtain ⟨e, hentry, rfl⟩ := List.mem_map.mp he
      obtain ⟨rfl, hback⟩ := Prod.mk.inj heq
      obtain rfl := Option.some.inj (hs.symm.trans (ht.mem_toList_iff.mp hentry))
      exact ih _ he (hvalues _ _ hs) (hback ▸ hvalues' _ _ hs')

end Value

end Unfolded

/-! ## Packing a tree -/

namespace Machine

variable {m : Machine} {r : Ref} {x : Unfolded}

/-- One step of the walk: if the parts have the packed forms of their trees, so has the whole. -/
theorem packWithin_succ {y : Unfolded} {fuel : Nat} {path : List Ref} (hnot : r ∉ path)
    (htable : ∀ t, m.object r = .dict t → t.Valid)
    (hpart : ∀ c ∈ (m.object r).children, ∀ x y : Unfolded, x.Restores y → m.Unfolds c x →
      m.packWithin fuel (r :: path) c = .ok x.packed)
    (hxy : x.Restores y) (hx : m.Unfolds r x) : m.packWithin (fuel + 1) path r = .ok x.packed := by
  have hoff : ¬ path.contains r := by rwa [contains_iff_mem]
  rw [packWithin]
  cases hx with
  | leaf hleaf =>
    cases hxy with
    | leaf hrestored hstorable =>
      rw [Unfolded.packed]
      cases ho : m.object r with
      | pair | list | dict | function | other => rw [ho] at hrestored; cases hrestored
      | _ => rfl
  | pair ho ha hb =>
    cases hxy with
    | pair hx hy =>
      rw [ho] at hpart ⊢
      dsimp only
      rw [if_neg hoff, Unfolded.packed, hpart _ (by simp [Object.children]) _ _ hx ha,
        hpart _ (by simp [Object.children]) _ _ hy hb]
      rfl
  | list ho hitems =>
    cases hxy with
    | list hlength hxs =>
      rw [ho] at hpart ⊢
      rw [forall_mem_map] at hxs
      dsimp only [Object.children] at hpart ⊢
      rw [if_neg hoff, Unfolded.packed, Unfolded.packedItems_eq, length_map, map_map,
        mapM_eq_ok fun c hc => hpart c hc _ _ (hxs c hc) (hitems c hc)]
      rfl
  | @dict _ t f ho hentries =>
    cases hxy with
    | dict hlength hkeys hxs =>
      -- the header counts the entries of the table, not those of its list
      have hcount := (htable t ho).length_toList
      rw [ho, ← Table.forall_mem_toList] at hpart
      rw [forall_mem_map] at hxs
      have hparts : t.toList.mapM (fun e => do
          return MessagePack.writeString e.1 ++ (← m.packWithin fuel (r :: path) e.2))
            = .ok (t.toList.map fun e => MessagePack.writeString e.1 ++ (f e.2).packed) := by
        refine mapM_eq_ok fun e he => ?_
        rw [hpart e he _ _ (hxs e he) (hentries e he)]
        rfl
      rw [ho]
      dsimp only
      rw [if_neg hoff, Unfolded.packed, Unfolded.packedEntries_eq, length_map, map_map, hcount, hparts]
      rfl

/-- **A value has the packed form of its tree.** -/
theorem pack_eq_of_unfolds {y : Unfolded} (hx : m.Unfolds r x) (hxy : x.Restores y)
    (htables : ∀ s t, m.heap.Reaches r s → m.object s = .dict t → t.Valid) : m.pack r = .ok x.packed := by
  refine m.heap.descend (Q := fun s => ∀ t, m.object s = .dict t → t.Valid) (P := fun fuel path r =>
      ∀ x y : Unfolded, x.Restores y → m.Unfolds r x → m.packWithin fuel path r = .ok x.packed)
    (fun htable hnot hparts x y hxy hx => ?_)
    (fun s hs => ⟨fun t ht => htables s t hs ht, hx.not_cyclic s hs⟩) x y hxy hx
  refine packWithin_succ hnot htable (fun c hc => ?_) hxy hx
  obtain ⟨o, ho, hc⟩ := mem_children_object_iff.mp hc
  exact hparts o ho c hc

end Machine

theorem Unfolded.Value.unfolds_of_heap {m : Machine} {r : Ref} {x : Unfolded} (hx : x.Value m.heap r) :
    m.Unfolds r x := hx.unfolds.stays fun _ _ => rfl

/-- The packed form is that of the tree. -/
theorem Unfolded.Value.pack_eq {m : Machine} {r : Ref} {x y : Unfolded} (hx : x.Value m.heap r) (hxy : x.Restores y) :
    m.pack r = .ok x.packed := by
  refine Machine.pack_eq_of_unfolds hx.unfolds_of_heap hxy fun s t hs ht => ?_
  obtain ⟨o, ho, htable⟩ := hx.intact s hs
  rw [Machine.object, ho] at ht
  exact htable t ht

end TinyScript
