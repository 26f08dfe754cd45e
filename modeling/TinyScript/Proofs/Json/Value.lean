import TinyScript.Proofs.Data.Json
import TinyScript.Proofs.Packed.Building

/-!
# Values as trees

`Value` is a value by its structure, apart from any heap. The entries of a dict are in the order of their keys.
`Heap.Denotes` says which tree a reference comes to: one only if nothing on the way is stale, is a function or lies
inside itself. `Value.erase` is what JSON leaves of a value. As plain data a value is told apart from its erasure only
by unsigned numbers, and those are lost when the data are read back (`Value.toValue_reread`).
-/

namespace TinyScript

open Data

/-- A value by its structure. -/
inductive Value where
  | unit
  | nil
  | bool (b : Bool)
  | u64 (w : UInt64)
  | i64 (w : UInt64)
  /-- A floating point number, given by its word. -/
  | f64 (w : UInt64)
  | string (t : Text)
  | error (t : Text)
  | pair (head tail : Value)
  | list (items : List Value)
  /-- A dict with its entries in the order of their keys. -/
  | dict (entries : List (Text × Value))

namespace Value

mutual

/-- What JSON leaves of a value. -/
def erase : Value → Value
  | unit | nil => nil
  | u64 w => i64 w
  | error t => dict [("error", string t)]
  | pair a b => list [a.erase, b.erase]
  | list items => list (eraseItems items)
  | dict entries => dict (eraseEntries entries)
  | bool b => bool b
  | i64 w => i64 w
  | f64 w => f64 w
  | string t => string t

/-- The items of a list, each erased. -/
def eraseItems : List Value → List Value
  | [] => []
  | v :: vs => v.erase :: eraseItems vs

/-- The entries of a dict, each value erased. -/
def eraseEntries : List (Text × Value) → List (Text × Value)
  | [] => []
  | (k, v) :: vs => (k, v.erase) :: eraseEntries vs

end

mutual

/-- How deep pairs, lists and dicts are nested in a value. -/
def depth : Value → Nat
  | pair a b => max a.depth b.depth + 1
  | list items => depthItems items + 1
  | dict entries => depthEntries entries + 1
  | _ => 0

/-- How deep the items of a list are nested at most. -/
def depthItems : List Value → Nat
  | [] => 0
  | v :: vs => max v.depth (depthItems vs)

/-- How deep the values of a dict are nested at most. -/
def depthEntries : List (Text × Value) → Nat
  | [] => 0
  | (_, v) :: vs => max v.depth (depthEntries vs)

end

mutual

/-- A value as plain data. -/
def toDatum : Value → Datum
  | unit | nil => .null
  | bool b => .bool b
  | u64 w => .uint w
  | i64 w => .int w.toInt64
  | f64 w => .float w
  | string t => .text t
  | error t => .map [("error", .text t)]
  | pair a b => .list [a.toDatum, b.toDatum]
  | list items => .list (itemsToDatum items)
  | dict entries => .map (entriesToDatum entries)

/-- Each item of a list as plain data. -/
def itemsToDatum : List Value → List Datum
  | [] => []
  | v :: vs => v.toDatum :: itemsToDatum vs

/-- Each value of a dict as plain data. -/
def entriesToDatum : List (Text × Value) → List (Text × Datum)
  | [] => []
  | (k, v) :: vs => (k, v.toDatum) :: entriesToDatum vs

end

end Value

mutual

/-- The value that plain data stand for. -/
def Data.Datum.toValue : Datum → Value
  | .null | .foreign _ => .nil
  | .bool b => .bool b
  | .int i => .i64 i.toUInt64
  | .uint n => .u64 n
  | .float w => .f64 w
  | .text t => .string t
  | .list items => .list (itemsToValue items)
  | .map entries => .dict (entriesToValue entries)

/-- The values that the items of a list stand for. -/
def Data.Datum.itemsToValue : List Datum → List Value
  | [] => []
  | d :: ds => d.toValue :: itemsToValue ds

/-- The values that the entries of a map stand for. -/
def Data.Datum.entriesToValue : List (Text × Datum) → List (Text × Value)
  | [] => []
  | (k, d) :: ds => (k, d.toValue) :: entriesToValue ds

end

namespace Data.Datum

theorem itemsToValue_eq (ds : List Datum) : itemsToValue ds = ds.map toValue :=
  eq_map_of_cons rfl (fun _ _ => rfl) ds

theorem entriesToValue_eq (ds : List (Text × Datum)) : entriesToValue ds = ds.map fun e => (e.1, e.2.toValue) :=
  eq_map_of_cons rfl (fun _ _ => rfl) ds

end Data.Datum

namespace Value

open Datum

mutual

/-- **What comes back is the erasure.** -/
theorem toValue_reread : (v : Value) → v.toDatum.reread.toValue = v.erase
  | unit | nil | bool _ | f64 _ | string _ | error _ => by
    simp [toDatum, reread, rereadEntries, Datum.toValue, entriesToValue, erase]
  | u64 w | i64 w => by simp [toDatum, reread, Datum.toValue, erase]
  | pair a b => by
    simp [toDatum, reread, rereadItems, Datum.toValue, itemsToValue, erase, toValue_reread a, toValue_reread b]
  | list items => by rw [toDatum, reread, Datum.toValue, toValue_rereadItems items, erase]
  | dict entries => by rw [toDatum, reread, Datum.toValue, toValue_rereadEntries entries, erase]

theorem toValue_rereadItems : (vs : List Value) → itemsToValue (rereadItems (itemsToDatum vs)) = eraseItems vs
  | [] => rfl
  | v :: vs => by
    rw [itemsToDatum, rereadItems, itemsToValue, toValue_reread v, toValue_rereadItems vs, eraseItems]

theorem toValue_rereadEntries : (vs : List (Text × Value)) →
    entriesToValue (rereadEntries (entriesToDatum vs)) = eraseEntries vs
  | [] => rfl
  | (k, v) :: vs => by
    rw [entriesToDatum, rereadEntries, entriesToValue, toValue_reread v, toValue_rereadEntries vs, eraseEntries]

end

mutual

theorem depth_toDatum : (v : Value) → v.toDatum.depth = v.erase.depth
  | unit | nil | bool _ | f64 _ | string _ | error _ | u64 _ | i64 _ => by
    simp [toDatum, Datum.depth, Datum.depthEntries, erase, depth, depthEntries]
  | pair a b => by
    simp [toDatum, Datum.depth, Datum.depthItems, erase, depth, depthItems, depth_toDatum a, depth_toDatum b]
  | list items => by rw [toDatum, Datum.depth, depth_itemsToDatum items, erase, depth]
  | dict entries => by rw [toDatum, Datum.depth, depth_entriesToDatum entries, erase, depth]

theorem depth_itemsToDatum : (vs : List Value) → Datum.depthItems (itemsToDatum vs) = depthItems (eraseItems vs)
  | [] => rfl
  | v :: vs => by
    rw [itemsToDatum, Datum.depthItems, depth_toDatum v, depth_itemsToDatum vs, eraseItems, depthItems]

theorem depth_entriesToDatum : (vs : List (Text × Value)) →
    Datum.depthEntries (entriesToDatum vs) = depthEntries (eraseEntries vs)
  | [] => rfl
  | (k, v) :: vs => by
    rw [entriesToDatum, Datum.depthEntries, depth_toDatum v, depth_entriesToDatum vs, eraseEntries, depthEntries]

end

theorem itemsToDatum_eq (vs : List Value) : itemsToDatum vs = vs.map toDatum :=
  eq_map_of_cons rfl (fun _ _ => rfl) vs

theorem entriesToDatum_eq (vs : List (Text × Value)) : entriesToDatum vs = vs.map fun e => (e.1, e.2.toDatum) :=
  eq_map_of_cons rfl (fun _ _ => rfl) vs

/-- The entries of a dict are in the order of their keys, each key once. -/
def Ordered (entries : List (Text × Value)) : Prop := entries.Pairwise fun e f => e.1.bytes < f.1.bytes

theorem Ordered.ext {es fs : List (Text × Value)} (hes : Ordered es) (hfs : Ordered fs) (h : ∀ e, e ∈ es ↔ e ∈ fs) :
    es = fs := by
  have hnodup {l : List (Text × Value)} (hl : Ordered l) : l.Nodup := by
    refine hl.imp fun hlt heq => ?_
    rw [heq] at hlt
    exact List.lt_irrefl _ hlt
  refine ((List.perm_ext_iff_of_nodup (hnodup hes) (hnodup hfs)).mpr h).eq_of_pairwise
    (fun e f _ _ hef hfe => ?_) hes hfs
  exact absurd (List.lt_trans hef hfe) (List.lt_irrefl _)

end Value

/-! ## The tree that a reference comes to -/

/-- An object without parts as a value. -/
def Object.leaf? : Object → Option Value
  | .unit => some .unit
  | .nil => some .nil
  | .bool w => some (.bool (w ≠ 0))
  | .u64 w => some (.u64 w)
  | .i64 w => some (.i64 w)
  | .f64 w => some (.f64 w)
  | .string t => some (.string t)
  | .error t => some (.error t)
  | .pair .. | .list _ | .dict _ | .function _ | .other .. => none

theorem Object.children_of_leaf? {o : Object} {v : Value} (h : o.leaf? = some v) : o.children = [] := by
  cases o <;> first | rfl | cases h

namespace Heap

/-- What a reference comes to. Truth values are told apart by their truth, not by their words. -/
inductive Denotes (h : Heap) : Ref → Value → Prop
  | leaf {r : Ref} {o : Object} {v : Value} : h.get? r = some o → o.leaf? = some v → Denotes h r v
  | pair {r a b : Ref} {v w : Value} : h.get? r = some (.pair a b) → Denotes h a v → Denotes h b w →
    Denotes h r (.pair v w)
  | list {r : Ref} {items : List Ref} {vs : List Value} : h.get? r = some (.list items) →
    items.length = vs.length → (∀ p ∈ items.zip vs, Denotes h p.1 p.2) → Denotes h r (.list vs)
  | dict {r : Ref} {t : Table Ref} {entries : List (Text × Value)} : h.get? r = some (.dict t) → t.Valid →
    Value.Ordered entries → (∀ key, (t.get? key).isSome ↔ key ∈ entries.map Prod.fst) →
    (∀ key c v, t.get? key = some c → (key, v) ∈ entries → Denotes h c v) → Denotes h r (.dict entries)

variable {h h' : Heap} {r s : Ref} {v : Value}

theorem Denotes.stays (hv : h.Denotes r v) (hstays : h.Stays h' r) : h'.Denotes r v := by
  induction hv with
  | leaf hr hleaf => exact .leaf (hstays.get?_eq hr) hleaf
  | pair hr _ _ iha ihb =>
    exact .pair (hstays.get?_eq hr) (iha (hstays.child hr (by simp [Object.children])))
      (ihb (hstays.child hr (by simp [Object.children])))
  | list hr hlength _ ih =>
    exact .list (hstays.get?_eq hr) hlength fun p hp => ih p hp (hstays.child hr (List.of_mem_zip hp).1)
  | dict hr hvalid hordered hkeys _ ih =>
    refine .dict (hstays.get?_eq hr) hvalid hordered hkeys fun key c v hc hv => ih key c v hc hv ?_
    exact hstays.child hr (mem_children_of_get? hvalid hc)

/-- Nothing of a value is stale. -/
theorem Denotes.valid (hv : h.Denotes r v) (hs : h.Reaches r s) : h.valid s := by
  induction hv with
  | leaf hr hleaf =>
    refine valid_of_parts hr (fun c hc => ?_) hs
    rw [Object.children_of_leaf? hleaf] at hc
    cases hc
  | pair hr _ _ iha ihb =>
    refine valid_of_parts hr (fun c hc => ?_) hs
    rcases List.mem_pair.mp hc with rfl | rfl
    · exact iha
    · exact ihb
  | list hr hlength _ ih =>
    refine valid_of_parts hr (fun c hc => ?_) hs
    -- the item stands across from one of the tree
    obtain ⟨p, hp, rfl⟩ : ∃ p ∈ List.zip _ _, p.1 = c :=
      List.mem_map.mp (List.map_fst_zip hlength.le ▸ hc)
    exact ih p hp
  | dict hr hvalid _ hkeys _ ih =>
    refine valid_of_parts hr (fun c hc => ?_) hs
    obtain ⟨key, hkey⟩ := get?_of_mem_children hvalid hc
    obtain ⟨e, he, rfl⟩ := List.mem_map.mp ((hkeys key).mp (by rw [hkey]; rfl))
    exact ih e.1 c e.2 hkey he

theorem eq_of_forall₂ {α β : Type} {R : α → β → Prop} {xs : List α} {ys zs : List β}
    (hys : List.Forall₂ (fun x y => ∀ z, R x z → y = z) xs ys) (hzs : List.Forall₂ R xs zs) : ys = zs := by
  induction hys generalizing zs with
  | nil =>
    cases hzs
    rfl
  | cons hy _ ih =>
    cases hzs with
    | cons hz hzs => rw [hy _ hz, ih hzs]

/-- There is one tree only. -/
theorem Denotes.unique (hv : h.Denotes r v) {w : Value} (hw : h.Denotes r w) : v = w := by
  induction hv generalizing w with
  | leaf hr hleaf =>
    cases hw with
    | leaf hr' hleaf' =>
      obtain rfl := Option.some.inj (hr.symm.trans hr')
      exact Option.some.inj (hleaf.symm.trans hleaf')
    | pair hr' | list hr' | dict hr' =>
      obtain rfl := Option.some.inj (hr.symm.trans hr')
      cases hleaf
  | pair hr _ _ iha ihb =>
    cases hw with
    | leaf hr' hleaf =>
      obtain rfl := Option.some.inj (hr.symm.trans hr')
      cases hleaf
    | pair hr' ha hb =>
      cases Option.some.inj (hr.symm.trans hr')
      rw [iha ha, ihb hb]
    | list hr' | dict hr' => cases Option.some.inj (hr.symm.trans hr')
  | list hr hlength _ ih =>
    cases hw with
    | leaf hr' hleaf =>
      obtain rfl := Option.some.inj (hr.symm.trans hr')
      cases hleaf
    | pair hr' | dict hr' => cases Option.some.inj (hr.symm.trans hr')
    | list hr' hlength' hitems =>
      cases Option.some.inj (hr.symm.trans hr')
      refine congrArg Value.list (eq_of_forall₂ ?_ (List.forall₂_iff_zip.mpr ⟨hlength', fun hp => hitems _ hp⟩))
      exact List.forall₂_iff_zip.mpr ⟨hlength, fun hp w hw => ih _ hp hw⟩
  | dict hr hvalid hordered hkeys hvalues ih =>
    cases hw with
    | leaf hr' hleaf =>
      obtain rfl := Option.some.inj (hr.symm.trans hr')
      cases hleaf
    | pair hr' | list hr' => cases Option.some.inj (hr.symm.trans hr')
    | dict hr' _ hordered' hkeys' hvalues' =>
      cases Option.some.inj (hr.symm.trans hr')
      -- a key of one of the trees is in the table and so in the other, with the same value
      refine congrArg Value.dict (hordered.ext hordered' fun e => ⟨fun he => ?_, fun he => ?_⟩)
      · have hkey := (hkeys e.1).mpr (List.mem_map_of_mem he)
        obtain ⟨c, hc⟩ := Option.isSome_iff_exists.mp hkey
        obtain ⟨e', he', heq⟩ := List.mem_map.mp ((hkeys' e.1).mp hkey)
        rwa [Prod.ext heq.symm (ih e.1 c e.2 hc he (hvalues' e.1 c e'.2 hc (heq ▸ he')))]
      · have hkey := (hkeys' e.1).mpr (List.mem_map_of_mem he)
        obtain ⟨c, hc⟩ := Option.isSome_iff_exists.mp hkey
        obtain ⟨e', he', heq⟩ := List.mem_map.mp ((hkeys e.1).mp hkey)
        rwa [← Prod.ext heq (ih e.1 c e'.2 hc (heq ▸ he') (hvalues' e.1 c e.2 hc he))]

theorem lasting_denotes (v : Value) : Lasting fun h r => h.Denotes r v := ⟨Denotes.stays, Denotes.valid⟩

end Heap

end TinyScript
