import Mathlib
import TinyScript.Proofs.Evolution.Balance
import TinyScript.Proofs.Json.Value
import TinyScript.Proofs.Graph.Descent
import TinyScript.Proofs.Host.Files

/-!
# JSON leaves the erasure of a value

A value that JSON can hold is written, and what is read back denotes its erasure (`Machine.toJson_erases`). On
the way out the value becomes the plain data of its tree (`Machine.toDatum_denotes`). These are written, read and
come back with all integers signed. On the way in they become a new value that denotes what they stand for
(`Act.ofDatum_denotes`), also while collections go on.
-/

namespace TinyScript

open Data Heap List

theorem exists_mapM_eq_map {ε α β γ : Type} {f : α → Except ε β} {g : γ → β} {R : α → γ → Prop} {xs : List α}
    (h : ∀ x ∈ xs, ∃ y, f x = .ok (g y) ∧ R x y) : ∃ ys, xs.mapM f = .ok (ys.map g) ∧ List.Forall₂ R xs ys := by
  induction xs with
  | nil => exact ⟨[], rfl, .nil⟩
  | cons x xs ih =>
    obtain ⟨hx, hxs⟩ := List.forall_mem_cons.mp h
    obtain ⟨y, hy, hR⟩ := hx
    obtain ⟨ys, hys, hRs⟩ := ih hxs
    refine ⟨y :: ys, ?_, .cons hR hRs⟩
    rw [mapM_cons, hy, hys]
    rfl

theorem exists_mapM_eq_ok {ε α β : Type} {f : α → Except ε β} {R : α → β → Prop} {xs : List α}
    (h : ∀ x ∈ xs, ∃ y, f x = .ok y ∧ R x y) : ∃ ys, xs.mapM f = .ok ys ∧ List.Forall₂ R xs ys := by
  obtain ⟨ys, hys, hR⟩ := exists_mapM_eq_map (g := id) h
  rw [map_id] at hys
  exact ⟨ys, hys, hR⟩

theorem mapM_eq_ok_iff {ε α β : Type} {f : α → Except ε β} {xs : List α} {ys : List β} :
    xs.mapM f = .ok ys ↔ List.Forall₂ (fun x y => f x = .ok y) xs ys := by
  constructor
  · intro h
    induction xs generalizing ys with
    | nil =>
      cases h
      exact .nil
    | cons x xs ih =>
      rw [mapM_cons] at h
      obtain ⟨y, hy, h⟩ := Host.bind_eq_ok h
      obtain ⟨ys', hys, h⟩ := Host.bind_eq_ok h
      cases h
      exact .cons hy (ih hys)
  · intro h
    induction h with
    | nil => rfl
    | cons hy _ ih =>
      rw [mapM_cons, hy, ih]
      rfl

/-- A walk through a value that keeps the containers it is inside of, in `path`. Where nothing lies inside itself
it comes to none of them again, so that there is fuel enough if there is as much as there are slots. -/
theorem Heap.walk_induction (h : Heap) {Q : Object → Prop} {P : Nat → List Ref → Ref → Prop}
    (hstep : ∀ {fuel path r o}, h.get? r = some o → Q o → r ∉ path → (∀ c ∈ o.children, P fuel (r :: path) c) →
      P (fuel + 1) path r)
    {r : Ref} (hr : ∀ s, h.Reaches r s → ∃ o, h.get? s = some o ∧ Q o ∧ ∀ c ∈ o.children, ¬ h.Reaches c s) :
    P (h.slots.size + 1) [] r := by
  refine h.descend (Q := fun s => ∃ o, h.get? s = some o ∧ Q o) ?_ fun s hs => ?_
  · rintro fuel path r ⟨o, ho, hQ⟩ hnot hparts
    exact hstep ho hQ hnot (hparts o ho)
  · obtain ⟨o, ho, hQ, hacyclic⟩ := hr s hs
    refine ⟨⟨o, ho, hQ⟩, ?_⟩
    rintro ⟨p, hp, c, hc, hreach⟩
    obtain rfl := Option.some.inj (ho.symm.trans hp)
    exact hacyclic c hc hreach

/-! ## Values to plain data -/

/-- An object that JSON can hold as far as it is concerned itself, its parts aside. -/
def Object.Plain : Object → Prop
  | .u64 w => w.toNat < 2 ^ 63
  | .string t | .error t => t.isUtf8
  | .dict t => t.Valid ∧ ∀ key ∈ t.keys, key.isUtf8
  | .f64 _ | .function _ | .other .. => False
  | _ => True

/-- A value that JSON can hold: nothing that its reference comes to is stale, lies inside itself or is no plain
object. -/
def Heap.Plain (h : Heap) (r : Ref) : Prop :=
  ∀ s, h.Reaches r s → ∃ o, h.get? s = some o ∧ o.Plain ∧ ∀ c ∈ o.children, ¬ h.Reaches c s

/-- The tree of a dict, given those of its values in the order of its table. -/
theorem Heap.exists_denotes_dict {h : Heap} {r : Ref} {t : Table Ref} (ho : h.get? r = some (.dict t)) (ht : t.Valid)
    {vs : List (Text × Value)} (hvs : List.Forall₂ (fun e e' => e'.1 = e.1 ∧ h.Denotes e.2 e'.2) t.toList vs) :
    ∃ sorted, sorted.Perm vs ∧ Value.Ordered sorted ∧ h.Denotes r (.dict sorted) := by
  have hkeys : vs.map Prod.fst = t.keys := by
    have hnames := map_eq_of_forall₂ hvs (f := Prod.fst) (g := Prod.fst) fun _ _ he => he.1.symm
    rw [← hnames, Table.toList, map_map]
    rfl
  obtain ⟨sorted, hperm, hordered⟩ := Datum.exists_ordered (hkeys ▸ ht.nodup_keys)
  refine ⟨sorted, hperm, hordered, .dict ho ht hordered (fun key => ?_) fun key c v hc hv => ?_⟩
  · rw [(hperm.map Prod.fst).mem_iff, hkeys, Table.mem_keys_iff ht]
  · obtain ⟨e, he, heq, hdenotes⟩ := exists_of_forall₂_of_mem hvs.flip (hperm.mem_iff.mp hv)
    obtain ⟨entry, hentry, rfl⟩ := List.mem_map.mp he
    have hget : t.get? key = some entry.value := ht.get?_eq_some_iff.mpr ⟨entry, hentry, heq.symm, rfl⟩
    obtain rfl := Option.some.inj (hc.symm.trans hget)
    exact hdenotes

namespace Machine

variable {m : Machine} {r : Ref}

/-- The plain data of a value are those of the tree that its reference comes to. -/
def Exports (m : Machine) (fuel : Nat) (path : List Ref) (r : Ref) : Prop :=
  ∃ v, m.heap.Denotes r v ∧ Json.Portable v.toDatum ∧ m.toDatumWithin fuel path r = .ok v.toDatum

/-- One step of the walk. -/
theorem exports_succ {fuel : Nat} {path : List Ref} {o : Object} (ho : m.heap.get? r = some o) (hplain : o.Plain)
    (hnot : r ∉ path) (hpart : ∀ c ∈ o.children, m.Exports fuel (r :: path) c) : m.Exports (fuel + 1) path r := by
  have hobject : m.object r = o := by rw [object, ho, Option.getD_some]
  -- the walk is not inside of `r`, so that it does not take it for a cycle
  have hoff : ¬ path.contains r := by rwa [contains_iff_mem]
  rw [Exports]
  simp only [toDatumWithin, hobject]
  cases o with
  | unit => exact ⟨.unit, .leaf ho rfl, .null, rfl⟩
  | nil => exact ⟨.nil, .leaf ho rfl, .null, rfl⟩
  | bool w => exact ⟨.bool (w ≠ 0), .leaf ho rfl, .bool _, rfl⟩
  | u64 w => exact ⟨.u64 w, .leaf ho rfl, .uint hplain, rfl⟩
  | i64 w => exact ⟨.i64 w, .leaf ho rfl, .int _, rfl⟩
  | f64 w => exact absurd hplain id
  | error t =>
    refine ⟨.error t, .leaf ho rfl, .map (pairwise_singleton _ _) ?_ ?_, rfl⟩
    · have hkey : ("error" : Text).isUtf8 = true := by decide
      exact List.forall_mem_singleton.mpr hkey
    · exact List.forall_mem_singleton.mpr (.text hplain)
  | string t => exact ⟨.string t, .leaf ho rfl, .text hplain, rfl⟩
  | pair a b =>
    obtain ⟨v, hv, hvp, hhead⟩ := hpart a (by simp [Object.children])
    obtain ⟨w, hw, hwp, htail⟩ := hpart b (by simp [Object.children])
    refine ⟨.pair v w, .pair ho hv hw, .list ?_, ?_⟩
    · simp [hvp, hwp]
    · dsimp only
      rw [if_neg hoff, hhead, htail]
      rfl
  | list items =>
    obtain ⟨vs, hvs, hitems⟩ := exists_mapM_eq_map (g := Value.toDatum)
      (R := fun c v => m.heap.Denotes c v ∧ Json.Portable v.toDatum) fun c hc => by
        obtain ⟨v, hv, hvp, hpart⟩ := hpart c hc
        exact ⟨v, hpart, hv, hvp⟩
    have hzip := List.forall₂_iff_zip.mp hitems
    refine ⟨.list vs, .list ho hzip.1 fun p hp => (hzip.2 hp).1, ?_, ?_⟩
    · rw [Value.toDatum, Value.itemsToDatum_eq]
      refine .list (List.forall_mem_map.mpr fun v hv => ?_)
      obtain ⟨c, -, -, hvp⟩ := exists_of_forall₂_of_mem hitems.flip hv
      exact hvp
    · dsimp only [Object.children] at hvs ⊢
      rw [if_neg hoff, hvs, Value.toDatum, Value.itemsToDatum_eq]
      rfl
  | dict t =>
    obtain ⟨hvalid, hkeys⟩ := hplain
    obtain ⟨vs, hvs, hentries⟩ : ∃ vs : List (Text × Value),
        t.toList.mapM (fun e => do return (e.1, ← m.toDatumWithin fuel (r :: path) e.2))
          = .ok (vs.map fun e => (e.1, e.2.toDatum)) ∧
        List.Forall₂ (fun e e' => e'.1 = e.1 ∧ m.heap.Denotes e.2 e'.2 ∧ Json.Portable e'.2.toDatum) t.toList vs := by
      refine exists_mapM_eq_map fun e he => ?_
      obtain ⟨entry, hentry, rfl⟩ := List.mem_map.mp he
      obtain ⟨v, hv, hvp, hpart⟩ := hpart entry.value (mem_map_of_mem hentry)
      refine ⟨(entry.key, v), ?_, rfl, hv, hvp⟩
      rw [hpart]
      rfl
    obtain ⟨sorted, hperm, hordered, hdenotes⟩ :=
      exists_denotes_dict ho hvalid (hentries.imp fun _ _ he => ⟨he.1, he.2.1⟩)
    have hmap : Datum.Ordered (sorted.map fun e => (e.1, e.2.toDatum)) := List.pairwise_map.mpr hordered
    refine ⟨.dict sorted, hdenotes, ?_, ?_⟩
    · rw [Value.toDatum, Value.entriesToDatum_eq]
      refine .map hmap (List.forall_mem_map.mpr fun e he => ?_) (List.forall_mem_map.mpr fun e he => ?_)
      all_goals obtain ⟨x, hx, heq, -, hvp⟩ := exists_of_forall₂_of_mem hentries.flip (hperm.mem_iff.mp he)
      · obtain ⟨entry, hentry, rfl⟩ := List.mem_map.mp hx
        show e.1.isUtf8 = true
        rw [heq]
        exact hkeys _ (mem_map_of_mem hentry)
      · exact hvp
    · -- the entries of a table are sorted when they become data, and those of a tree are sorted
      dsimp only
      rw [if_neg hoff, hvs, Value.toDatum, Value.entriesToDatum_eq, ← Datum.ofEntries_eq hmap (hperm.map _)]
      rfl
  | function f => exact absurd hplain id
  | other n w => exact absurd hplain id

theorem toDatum_denotes (hr : m.heap.Plain r) :
    ∃ v, m.heap.Denotes r v ∧ Json.Portable v.toDatum ∧ m.toDatum r = .ok v.toDatum :=
  m.heap.walk_induction (P := m.Exports) exports_succ hr

end Machine

/-! ## Plain data to values -/

namespace Machine

variable {m m₁ : Machine} {P : Heap → Ref → Prop} {r : Ref}

theorem SameStore.grows {m' : Machine} (h : m.SameStore m') (hm : m.Ready) : m.Grows m' where
  ready := by
    refine ⟨?_, ?_, ?_⟩
    · rw [h.heap]
      exact hm.wellFormed
    · rw [h.heap, h.nil]
      exact hm.nil_eq
    · rw [h.heap, h.nil]
      exact hm.nil_root
  nil_eq := h.nil
  pins p hp := h.pins ▸ hp
  kept s _ := by rw [h.heap]

/-- Dropping the pins that were made. -/
theorem Brings.unpin (hb : m.Brings P r m₁) (hpins : (m₁.pins.shrink m.pins.size) = m.pins) :
    m.Brings P r { m₁ with pins := m₁.pins.shrink m.pins.size } where
  grows :=
    { ready := ⟨hb.grows.ready.wellFormed, hb.grows.ready.nil_eq, hb.grows.ready.nil_root⟩
      nil_eq := hb.grows.nil_eq
      pins := fun p hp => by
        show p ∈ m₁.pins.shrink m.pins.size
        rwa [hpins]
      kept := hb.grows.kept }
  made := hb.made
  fresh := hb.fresh

end Machine

namespace Act

variable {α β ε : Type} {m m₁ m₂ : Machine}

/-- Run on a machine, an action that may fail goes well. -/
def Gives (x : ExceptT ε Act α) (m : Machine) (a : α) (m' : Machine) : Prop := x.run.run m = (.ok a, m')

theorem Gives.bind {x : ExceptT ε Act α} {f : α → ExceptT ε Act β} {a : α} {b : β} (hx : Gives x m a m₁)
    (hf : Gives (f a) m₁ b m₂) : Gives (x >>= f) m b m₂ := by
  rw [Gives, ExceptT.run_bind, StateT.run_bind, hx]
  exact hf

theorem gives_act {x : Act α} {a : α} (hx : x.run m = (a, m₁)) : Gives (liftM x : ExceptT ε Act α) m a m₁ := by
  have hrun : (liftM x : ExceptT ε Act α).run.run m = (.ok (x.run m).1, (x.run m).2) := rfl
  rw [Gives, hrun, hx]

theorem gives_pure (a : α) : Gives (pure a : ExceptT ε Act α) m a m := rfl

/-- Objects of data are made, wherever these are found. -/
def Imports (d : Datum) : Prop :=
  ∀ (depth : Nat) {m : Machine}, m.Ready → ∃ r m', Gives (ofDatumAt depth d) m r m' ∧
    m.Brings (fun h r => h.Denotes r d.toValue) r m'

/-- A note is taken first. -/
theorem imports_of_note {d : Datum} {x : Nat → ExceptT ConvertError Act Ref}
    (hd : ∀ depth, ofDatumAt depth d = ofDatumAt.noteType depth d >>= fun _ => x depth)
    (hx : ∀ depth {m : Machine}, m.Ready → ∃ r m', Gives (x depth) m r m' ∧
      m.Brings (fun h r => h.Denotes r d.toValue) r m') : Imports d := by
  intro depth m hm
  have hnote :=
    Machine.SameStore.note m ("fromGo() at depth " ++ Text.ofNat depth ++ ", decoded type is " ++ d.typeName)
  obtain ⟨r, m', hgives, hbrings⟩ := hx depth (hnote.grows hm).ready
  refine ⟨r, m', ?_, hbrings.earlier (hnote.grows hm)⟩
  rw [hd]
  exact (gives_act rfl).bind hgives

theorem imports_scalar {d : Datum} {o : Object}
    (hd : ∀ depth, ofDatumAt depth d = ofDatumAt.noteType depth d >>= fun _ => liftM (alloc o))
    (ho : o.leaf? = some d.toValue) : Imports d := by
  refine imports_of_note hd fun _ {m} hm => ?_
  rcases hrun : (alloc o).run m with ⟨r, m'⟩
  have hadds := adds_of_alloc hm hrun
  exact ⟨r, m', gives_act hrun, .of_leaf hadds (.leaf hadds.get?_eq ho) (Object.children_of_leaf? ho)⟩

theorem imports_null : Imports .null := by
  refine imports_of_note (x := fun _ => do return (← get).nil) (fun _ => rfl) fun _ {m} hm => ?_
  refine ⟨m.nil, m, rfl, Machine.brings_nil hm (.leaf hm.nil_eq rfl)⟩

/-- Objects are made one after the other. -/
theorem gives_ofItemsAt {ds : List Datum} (hds : ∀ d ∈ ds, Imports d) (depth : Nat) {m : Machine} (hm : m.Ready) :
    ∃ rs m', Gives (ofItemsAt depth ds) m rs m' ∧ m.Grows m' ∧
      List.Forall₂ (fun d r => m.Retains (fun h r => h.Denotes r d.toValue) r m') ds rs := by
  induction ds generalizing m with
  | nil => exact ⟨[], m, rfl, .refl hm, .nil⟩
  | cons d ds ih =>
    obtain ⟨hd, hds⟩ := List.forall_mem_cons.mp hds
    obtain ⟨r, m₁, hfirst, hbrings⟩ := hd depth hm
    -- the first object is pinned while the others are made, and `Retains` carries it over
    have hpinned := hbrings.pin
    obtain ⟨rs, m₂, hothers, hgrows, hretains⟩ := ih hds hpinned.grows.ready
    refine ⟨r :: rs, m₂, ?_, hpinned.grows.trans hgrows,
      .cons (hpinned.later (lasting_denotes _) hgrows) (hretains.imp fun _ _ h => h.earlier hpinned.grows)⟩
    rw [ofItemsAt]
    exact hfirst.bind ((gives_act rfl).bind (hothers.bind (gives_pure _)))

/-- Making the objects of a list adds pins behind those that there are. -/
theorem evolves_ofItemsAt {ds : List Datum} {depth : Nat} {m m₁ : Machine} {rs : List Ref}
    (h : Gives (ofItemsAt depth ds) m rs m₁) {r : Ref} {m₂ : Machine} (hlist : (newList rs).run m₁ = (r, m₂)) :
    m.Evolves m.pins.size [] m₂ := by
  have hitems : m.Evolves m.pins.size [] ((ofItemsAt depth ds).run.run m).2 :=
    obeys_ofItemsAt (D := evolution m.pins.size []) depth ds m le_rfl
  rw [h] at hitems
  have hnew : m₁.Evolves m.pins.size [] ((newList rs).run m₁).2 :=
    obeys_allocHolding (D := evolution m.pins.size []) rfl rs m₁ (hitems.floor_le le_rfl)
  rw [hlist] at hnew
  exact hitems.trans hnew

theorem imports_list {ds : List Datum} (hds : ∀ d ∈ ds, Imports d) : Imports (.list ds) := by
  refine imports_of_note (fun depth => by rw [ofDatumAt]) fun depth {m} hm => ?_
  obtain ⟨rs, m₁, hitems, hgrows, hretains⟩ := gives_ofItemsAt hds (depth + 1) hm
  rcases hrun : (allocHolding (.list rs) rs).run m₁ with ⟨r, m₂⟩
  have hadds := adds_of_allocHolding hgrows.ready hrun
  have hdenotes : List.Forall₂ m₂.heap.Denotes rs (ds.map Datum.toValue) := by
    refine List.forall₂_map_right_iff.mpr (hretains.flip.imp fun r d h => ?_)
    exact (h.later (lasting_denotes _) hadds.grows).made
  have hzip := List.forall₂_iff_zip.mp hdenotes
  have hbrings : m.Brings (fun h r => h.Denotes r (Datum.list ds).toValue) r m₂ := by
    refine .of_adds hgrows hadds ?_ fun c hc => ?_
    · rw [Datum.toValue, Datum.itemsToValue_eq]
      exact .list hadds.get?_eq hzip.1 fun p hp => hzip.2 hp
    · obtain ⟨d, -, h⟩ := exists_of_forall₂_of_mem hretains.flip hc
      exact ⟨_, lasting_denotes d.toValue, h⟩
  -- the list holds its items now, and the pins that did are dropped
  have hpins : m₂.pins.shrink m.pins.size = m.pins := (evolves_ofItemsAt hitems hrun).settle.pins_eq
  refine ⟨r, _, ?_, hbrings.unpin hpins⟩
  exact (gives_act rfl).bind (hitems.bind ((gives_act hrun).bind ((gives_act rfl).bind (gives_pure r))))

/-- A value of data that stand under a key. -/
def ImportOf (ds : List (Text × Datum)) (key : Text) : Heap → Ref → Prop :=
  fun h r => ∃ d, (key, d) ∈ ds ∧ h.Denotes r d.toValue

theorem lasting_importOf (ds : List (Text × Datum)) (key : Text) : Lasting (ImportOf ds key) where
  stays := fun ⟨d, hd, hdenotes⟩ hstays => ⟨d, hd, hdenotes.stays hstays⟩
  valid := fun ⟨_, _, hdenotes⟩ hs => hdenotes.valid hs

/-- Entries are put into the dict one after the other. -/
theorem gives_ofEntriesAt {es ds : List (Text × Datum)} (hds : ∀ e ∈ ds, e ∈ es ∧ Imports e.2) (depth : Nat)
    {m₀ m : Machine} {d : Ref} {done : List Text} {t : Table Ref} (hf : m₀.Filling (ImportOf es) d done t m) :
    ∃ t' m', Gives (ofEntriesAt depth d ds) m () m' ∧
      m₀.Filling (ImportOf es) d ((ds.map Prod.fst).reverse ++ done) t' m' := by
  induction ds generalizing m done t with
  | nil => exact ⟨t, m, rfl, hf⟩
  | cons e ds ih =>
    obtain ⟨⟨hmem, he⟩, hds⟩ := List.forall_mem_cons.mp hds
    obtain ⟨r, m₁, hvalue, hbrings⟩ := he depth hf.grows.ready
    -- which entry a value is from is forgotten: only one has its key
    have hentry : m.Brings (ImportOf es e.1) r m₁ := ⟨hbrings.grows, ⟨e.2, hmem, hbrings.made⟩, hbrings.fresh⟩
    obtain ⟨m₂, hput, hf₂⟩ := hf.put (lasting_importOf es) hentry
    obtain ⟨t', m₃, hothers, hf₃⟩ := ih hds hf₂
    refine ⟨t', m₃, ?_, ?_⟩
    · rw [ofEntriesAt]
      exact hvalue.bind ((gives_act hput).bind hothers)
    · rwa [map_cons, reverse_cons, append_assoc]

theorem imports_map {es : List (Text × Datum)} (hordered : Datum.Ordered es) (hes : ∀ e ∈ es, Imports e.2) :
    Imports (.map es) := by
  refine imports_of_note (fun depth => by rw [ofDatumAt]) fun depth {m} hm => ?_
  rcases hrun : (alloc (.dict .empty)).run m with ⟨d, m₁⟩
  have hadds := adds_of_alloc hm hrun
  obtain ⟨t, m₂, hentries, hend⟩ := gives_ofEntriesAt (fun e he => ⟨he, hes e he⟩) (depth + 1) (.start hadds)
  have hbrings : m.Brings (fun h r => h.Denotes r (Datum.map es).toValue) d m₂ := by
    refine hend.brings ?_
    rw [Datum.toValue, Datum.entriesToValue_eq]
    refine .dict hend.get?_eq hend.valid (List.pairwise_map.mpr hordered) (fun key => ?_) fun key c v hc hv => ?_
    · rw [hend.keys, append_nil, mem_reverse, map_map]
      rfl
    · obtain ⟨x, hx, hdenotes⟩ := (hend.values hc).1.made
      obtain ⟨e, he, heq⟩ := List.mem_map.mp hv
      obtain ⟨rfl, rfl⟩ := Prod.mk.inj heq
      -- a key has one value
      obtain rfl : x = e.2 := congrArg Prod.snd (inj_on_of_nodup_map hordered.nodup hx he rfl)
      exact hdenotes
  refine ⟨d, m₂, ?_, hbrings⟩
  exact (gives_act hrun).bind ((gives_act rfl).bind (hentries.bind (gives_pure d)))

theorem imports_of_portable {d : Datum} (hd : Json.Portable d) : Imports d := by
  induction hd with
  | null => exact imports_null
  | bool b => exact imports_scalar (fun _ => rfl) (by cases b <;> rfl)
  | int i => exact imports_scalar (fun _ => rfl) rfl
  | uint _ => exact imports_scalar (fun _ => rfl) rfl
  | text _ => exact imports_scalar (fun _ => rfl) rfl
  | list _ ih => exact imports_list ih
  | map hordered _ _ ih => exact imports_map hordered ih

theorem ofDatum_denotes {d : Datum} (hd : Json.Portable d) (hm : m.Ready) :
    ∃ r m', (ofDatum d).run m = (.ok r, m') ∧ m'.heap.Denotes r d.toValue := by
  obtain ⟨r, m₁, hgives, hbrings⟩ := imports_of_portable hd 0 hm
  refine ⟨r, { m₁ with pins := m₁.pins.shrink m.pins.size }, ?_, hbrings.made⟩
  have hmark : pinMark.run m = (m.pins.size, m) := rfl
  rw [ofDatum, run_bind_of hmark, run_bind_of hgives]
  rfl

theorem ofJson_denotes {t : Text} {d : Datum} (ht : Json.read? t = some d) (hd : Json.Portable d) (hm : m.Ready) :
    ∃ r m', (ofJson t).run m = (.ok r, m') ∧ m'.heap.Denotes r d.toValue := by
  have hnote := Machine.SameStore.note m (" decoded type : " ++ d.typeName)
  obtain ⟨r, m', hrun, hdenotes⟩ := ofDatum_denotes hd (hnote.grows hm).ready
  refine ⟨r, m', ?_, hdenotes⟩
  have hread : (readJson t).run m = (some d, ((note (" decoded type : " ++ d.typeName)).run m).2) := by
    rw [readJson, ht]
    rfl
  rw [ofJson, run_bind_of hread]
  dsimp only
  rw [run_bind_of hrun]
  rfl

end Act

/-- **JSON leaves the erasure.** A value that JSON can hold is a tree. If the reader can follow how deep its erasure
is nested, the value is written, and on any machine that is ready a value is read back that denotes the
erasure. -/
theorem Machine.toJson_erases {m : Machine} {r : Ref} (hr : m.heap.Plain r) :
    (∃ v, m.heap.Denotes r v) ∧
    ∀ v, m.heap.Denotes r v → v.erase.depth < Json.maxDepth → ∃ t, m.toJson r = .ok t ∧
      ∀ m', m'.Ready → ∃ r' m'', (Act.ofJson t).run m' = (.ok r', m'') ∧ m''.heap.Denotes r' v.erase := by
  obtain ⟨v, hv, hportable, hdatum⟩ := toDatum_denotes hr
  refine ⟨⟨v, hv⟩, fun w hw hdepth => ?_⟩
  obtain rfl := hv.unique hw
  refine ⟨Json.write v.toDatum, ?_, fun m' hm' => ?_⟩
  · rw [toJson, hdatum]
    rfl
  · rw [← v.depth_toDatum] at hdepth
    have hread := Json.read_portable hportable hdepth
    obtain ⟨r', m'', hrun, hdenotes⟩ := Act.ofJson_denotes hread hportable.reread hm'
    rw [v.toValue_reread] at hdenotes
    exact ⟨r', m'', hrun, hdenotes⟩

/-! ## A pair of a number and an error -/

namespace Machine

/-- The shared `nil`, an unsigned number, an error, `unit`, a pair of the number and the error, and a list of the
pair and `unit`. -/
def motley : Machine where
  heap :=
    let (h, _) := Heap.empty.alloc .nil true
    let (h, _) := h.alloc (.u64 7) false
    let (h, _) := h.alloc (.error "no") false
    let (h, _) := h.alloc .unit false
    let (h, _) := h.alloc (.pair ⟨1, 1⟩ ⟨2, 1⟩) false
    let (h, _) := h.alloc (.list [⟨4, 1⟩, ⟨3, 1⟩]) false
    h
  nil := ⟨0, 1⟩

theorem ready_motley : motley.Ready where
  wellFormed :=
    ((((((Heap.threaded_empty.alloc _ _).alloc _ _).alloc _ _).alloc _ _).alloc _ _).alloc _ _).wellFormed
  nil_eq := rfl
  nil_root := rfl

theorem plain_motley {r : Ref} (hr : motley.heap.valid r) : motley.heap.Plain r := by
  refine acyclic_of_lower (fun s o ho => ?_) hr
  have h₁ := Heap.threaded_empty.alloc .nil true
  have h₂ := h₁.alloc (.u64 7) false
  have h₃ := h₂.alloc (.error "no") false
  have h₄ := h₃.alloc .unit false
  have h₅ := h₄.alloc (.pair ⟨1, 1⟩ ⟨2, 1⟩) false
  rcases h₅.get?_alloc_iff.mp ho with ⟨rfl, rfl⟩ | ho
  · exact ⟨trivial, by decide⟩
  rcases h₄.get?_alloc_iff.mp ho with ⟨rfl, rfl⟩ | ho
  · exact ⟨trivial, by decide⟩
  rcases h₃.get?_alloc_iff.mp ho with ⟨rfl, rfl⟩ | ho
  · exact ⟨trivial, by simp [Object.children]⟩
  rcases h₂.get?_alloc_iff.mp ho with ⟨rfl, rfl⟩ | ho
  · have htext : ("no" : Text).isUtf8 = true := by decide
    exact ⟨htext, by simp [Object.children]⟩
  rcases h₁.get?_alloc_iff.mp ho with ⟨rfl, rfl⟩ | ho
  · have hsmall : (7 : UInt64).toNat < 2 ^ 63 := by decide
    exact ⟨hsmall, by simp [Object.children]⟩
  rcases Heap.threaded_empty.get?_alloc_iff.mp ho with ⟨rfl, rfl⟩ | ho
  · exact ⟨trivial, by simp [Object.children]⟩
  · simp [Heap.get?, Heap.slot?, Heap.empty] at ho

theorem denotes_motley : motley.heap.Denotes ⟨5, 1⟩ (.list [.pair (.u64 7) (.error "no"), .unit]) := by
  have hpair : motley.heap.Denotes ⟨4, 1⟩ (.pair (.u64 7) (.error "no")) :=
    .pair (a := ⟨1, 1⟩) (b := ⟨2, 1⟩) rfl (.leaf rfl rfl) (.leaf rfl rfl)
  have hunit : motley.heap.Denotes ⟨3, 1⟩ .unit := .leaf rfl rfl
  have hlist : motley.heap.get? ⟨5, 1⟩ = some (.list [⟨4, 1⟩, ⟨3, 1⟩]) := rfl
  refine .list hlist rfl fun p hp => ?_
  simp only [zip_cons_cons, zip_nil_right, mem_cons, not_mem_nil, or_false] at hp
  rcases hp with rfl | rfl
  · exact hpair
  · exact hunit

/-- The pair comes back as a list, with a signed number and a dict, and `unit` as `nil`. -/
theorem toJson_erases_motley :
    motley.Ready ∧ motley.heap.Plain ⟨5, 1⟩ ∧ ∃ t, motley.toJson ⟨5, 1⟩ = .ok t ∧
      ∃ r m', (Act.ofJson t).run motley = (.ok r, m') ∧
        m'.heap.Denotes r (.list [.list [.i64 7, .dict [("error", .string "no")]], .nil]) := by
  have hplain : motley.heap.Plain ⟨5, 1⟩ := plain_motley rfl
  obtain ⟨t, ht, hback⟩ := (toJson_erases hplain).2 _ denotes_motley (by decide)
  exact ⟨ready_motley, hplain, t, ht, hback motley ready_motley⟩

end Machine

end TinyScript
