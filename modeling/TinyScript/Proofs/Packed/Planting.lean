import TinyScript.Proofs.Packed.Values

/-!
# Unpacking makes values of trees

Unpacking does what reading a tree does (`Act.Unpack.follows_value`). It fails where no tree is read, and otherwise
makes a value of the tree if the machine is ready.
-/

namespace TinyScript

open Data Heap

/-! ## Actions that do what reading does -/

namespace Act.Unpack

open Unfolded (Reading)

variable {α β γ : Type} {bs rest : List UInt8} {m m' m₁ : Machine} {P : α → β → Machine → Prop}

/-- Run on a machine, an action does what reading does, besides what it does to the machine. It reads as much and fails
with the same error, and `P` is true of its result, of what is read and of the machine it ends with. -/
structure Follows (x : Unpack α) (m : Machine) (y : Reading β) (P : α → β → Machine → Prop) : Prop where
  ok : ∀ {bs b rest}, y.run bs = .ok (b, rest) → ∃ a m', Yields x bs m a rest m' ∧ P a b m'
  error : ∀ {bs e}, y.run bs = .error e → ∃ m', Fails x bs m e m'

namespace Follows

theorem bind {δ : Type} {x : Unpack α} {y : Reading β} {f : α → Unpack γ} {g : β → Reading δ}
    {Q : γ → δ → Machine → Prop} (hx : Follows x m y P) (hf : ∀ a b m', P a b m' → Follows (f a) m' (g b) Q) :
    Follows (x >>= f) m (y >>= g) Q where
  ok := by
    intro bs d rest h
    rw [StateT.run_bind] at h
    cases hy : y.run bs with
    | error e =>
      rw [hy] at h
      cases h
    | ok p =>
      rw [hy] at h
      obtain ⟨a, m', hyields, hP⟩ := hx.ok hy
      obtain ⟨c, m'', hnext, hQ⟩ := (hf a p.1 m' hP).ok h
      exact ⟨c, m'', hyields.bind hnext, hQ⟩
  error := by
    intro bs e h
    rw [StateT.run_bind] at h
    cases hy : y.run bs with
    | error e' =>
      rw [hy] at h
      cases h
      obtain ⟨m', hfails⟩ := hx.error hy
      exact ⟨m', hfails.bind⟩
    | ok p =>
      rw [hy] at h
      obtain ⟨a, m', hyields, hP⟩ := hx.ok hy
      obtain ⟨m'', hfails⟩ := (hf a p.1 m' hP).error h
      exact ⟨m'', hyields.run_bind.trans hfails⟩

theorem pure {a : α} {b : β} (hP : P a b m) : Follows (Pure.pure a) m (Pure.pure b) P where
  ok h := by
    cases h
    exact ⟨a, m, rfl, hP⟩
  error h := nomatch h

theorem throw (e : UnpackError) : Follows (throw e : Unpack α) m (throw e : Reading β) P where
  ok h := nomatch h
  error h := by
    cases h
    exact ⟨m, rfl⟩

/-- Nothing is done after a failure. -/
theorem throw_bind (e : UnpackError) {γ δ : Type} {f : α → Unpack γ} {g : β → Reading δ}
    {Q : γ → δ → Machine → Prop} : Follows (MonadExcept.throw e >>= f) m (MonadExcept.throw e >>= g) Q :=
  (Follows.throw (P := fun _ _ _ => False) e).bind fun _ _ _ h => h.elim

/-- First something happens to the machine. -/
theorem act_bind {x : Act α} {f : α → Unpack β} {y : Reading γ} {Q : β → γ → Machine → Prop}
    (hf : ∀ a m', x.run m = (a, m') → Follows (f a) m' y Q) : Follows ((liftM x : Unpack α) >>= f) m y Q where
  ok h := by
    obtain ⟨b, m'', hyields, hQ⟩ := (hf _ _ rfl).ok h
    exact ⟨b, m'', (yields_act rfl).bind hyields, hQ⟩
  error h := by
    obtain ⟨m'', hfails⟩ := (hf _ _ rfl).error h
    exact ⟨m'', (yields_act rfl).run_bind.trans hfails⟩

/-- An action that reads nothing. -/
theorem act {x : Act α} {b : β} (hP : ∀ a m', x.run m = (a, m') → P a b m') :
    Follows (liftM x : Unpack α) m (Pure.pure b) P := by
  rw [← bind_pure (liftM x : Unpack α)]
  exact .act_bind fun a m' hx => .pure (hP a m' hx)

/-- First an item is read. -/
theorem item_bind {read : MessagePack.Read α} {f : α → Unpack β} {g : α → Reading γ} {Q : β → γ → Machine → Prop}
    (hf : ∀ a, Follows (f a) m (g a) Q) : Follows (Unpack.item read >>= f) m (Reading.item read >>= g) Q := by
  refine bind (P := fun a b m' => a = b ∧ m' = m) ⟨?_, ?_⟩ fun a b m' hab => ?_
  · intro bs a rest h
    rw [Reading.item_run] at h
    cases hrun : read.run bs with
    | error e =>
      rw [hrun] at h
      cases h
    | ok =>
      rw [hrun] at h
      cases h
      exact ⟨a, m, yields_item hrun, rfl, rfl⟩
  · intro bs e h
    rw [Reading.item_run] at h
    cases hrun : read.run bs with
    | error e' =>
      rw [hrun] at h
      cases h
      exact ⟨m, fails_item hrun⟩
    | ok =>
      rw [hrun] at h
      cases h
  · obtain ⟨rfl, rfl⟩ := hab
    exact hf a

/-- Reading that goes on without the machine. -/
theorem map {x : Unpack α} {y : Reading β} (hx : Follows x m y P) {g : β → γ} {Q : α → γ → Machine → Prop}
    (hPQ : ∀ a b m', P a b m' → Q a (g b) m') : Follows x m (do return g (← y)) Q := by
  have hbind := hx.bind (f := Pure.pure) (g := fun b => Pure.pure (g b)) fun a b m' hP => .pure (hPQ a b m' hP)
  rwa [bind_pure] at hbind

theorem scalar [Inhabited α] {read : MessagePack.Read α} {make : α → Object} {Q : Ref → Unfolded → Machine → Prop}
    (hmake : ∀ a r m', (alloc (make a)).run m = (r, m') → Q r (.leaf (make a)) m') :
    Follows (scalar read make) m (Reading.leaf read make) Q where
  ok := by
    intro bs x rest h
    cases hrun : read.run bs with
    | error e =>
      rw [Reading.leaf, StateT.run_bind, Reading.item_run, hrun] at h
      cases h
    | ok p =>
      rw [Reading.run_leaf hrun] at h
      cases h
      exact ⟨_, _, yields_scalar hrun, hmake _ _ _ rfl⟩
  error := by
    intro bs e h
    cases hrun : read.run bs with
    | error e' =>
      rw [Reading.leaf, StateT.run_bind, Reading.item_run, hrun] at h
      cases h
      exact ⟨_, fails_scalar hrun⟩
    | ok p =>
      rw [Reading.run_leaf hrun] at h
      cases h

end Follows

/-! ## Values -/

/-- An action that reads as a reader of trees does, and that makes and pins a value of the tree on a machine that is
ready. -/
def Plants (x : Unpack Ref) (y : Reading Unfolded) : Prop :=
  ∀ m, Follows x m y fun r t m' => m.Ready → m.Retains t.Value r m'

variable {x : Unpack Ref} {y : Reading Unfolded}

theorem follows_values (hxy : Plants x y) (n : Nat) (acc : List Ref) (m : Machine) :
    Follows (values x n acc) m (Reading.many y n) fun rs ts m' => m.Ready →
      m.Grows m' ∧ ∃ items, rs = acc.reverse ++ items ∧ List.Forall₂ (fun c t => m.Retains t.Value c m') items ts := by
  -- by induction on the number of values, with those that were made before in `acc`, the latest first
  induction n generalizing acc m with
  | zero => exact .pure fun hm => ⟨.refl hm, [], (List.append_nil _).symm, .nil⟩
  | succ n ih =>
    refine (hxy m).bind fun r t m₁ hmade => (ih (r :: acc) m₁).map fun rs ts m₂ hothers hm => ?_
    have hfirst := hmade hm
    obtain ⟨hgrows, items, rfl, hitems⟩ := hothers hfirst.grows.ready
    refine ⟨hfirst.grows.trans hgrows, r :: items, ?_, .cons (hfirst.later t.lasting_value hgrows) ?_⟩
    · rw [List.reverse_cons, List.append_assoc]
      rfl
    · exact hitems.imp fun _ _ hitem => hitem.earlier hfirst.grows

/-- A value of some tree. -/
def AnyValue (_ : Text) (h : Heap) (r : Ref) : Prop := ∃ x : Unfolded, x.Value h r

theorem lasting_anyValue (key : Text) : Lasting (AnyValue key) where
  stays := fun ⟨x, hx⟩ hstays => ⟨x, x.lasting_value.stays hx hstays⟩
  valid := fun ⟨x, hx⟩ hs => x.lasting_value.valid hx hs

/-- A dict is being filled, so far with values of the trees that a table holds. -/
def Planting (m₀ : Machine) (d : Ref) (u : Table Unfolded) (m : Machine) : Prop :=
  ∃ done t, m₀.Filling AnyValue d done t m ∧ Table.Paired (fun c x => x.Value m.heap c) t u

namespace Planting

variable {m₀ m₂ : Machine} {d : Ref} {u : Table Unfolded}

theorem ready (hp : Planting m₀ d u m) : m.Ready := by
  obtain ⟨done, t, hf, -⟩ := hp
  exact hf.grows.ready

/-- One more value goes into the dict, and its tree into the table. -/
theorem put (hp : Planting m₀ d u m) {key : Text} {c : Ref} {x : Unfolded} (hx : m.Brings x.Value c m₁)
    (hrun : (dictPut d key c).run m₁ = ((), m₂)) : Planting m₀ d (u.put key x).1 m₂ := by
  obtain ⟨done, t, hf, hpaired⟩ := hp
  have hget : m₁.heap.get? d = some (.dict t) := (hx.grows.kept d hf.guarded).trans hf.get?_eq
  have hvalid := valid_iff_get?.mpr ⟨_, hget⟩
  obtain ⟨notes, hdict⟩ := dictPut_of_dict hget key c
  have hany : m.Brings (AnyValue key) c m₁ := ⟨hx.grows, ⟨x, hx.made⟩, hx.fresh⟩
  obtain ⟨m₃, hput, hf₂⟩ := hf.put lasting_anyValue hany
  obtain rfl := (Prod.mk.inj (hput.symm.trans hrun)).2
  obtain rfl := (Prod.mk.inj (hput.symm.trans hdict)).2
  refine ⟨_, _, hf₂, (hpaired.mono fun v hv w _ hw => ?_).put key ?_⟩
  · -- a value from before is held by the dict, and does not come to it
    obtain ⟨k, hk⟩ := get?_of_mem_children hf.valid hv
    have hstays := hx.grows.stays (hf.holds lasting_anyValue hk)
    refine w.lasting_value.stays (w.lasting_value.stays hw hstays) (stays_set hvalid (fun hreach => ?_) _)
    exact (hf.values hk).2 (hstays.reaches hreach)
  · exact x.lasting_value.stays hx.made (stays_set hvalid (hf.apart hx) _)

/-- The dict as a value. -/
theorem brings (hp : Planting m₀ d u m) : m₀.Brings (Unfolded.dict u.toList).Value d m := by
  obtain ⟨done, t, hf, hpaired⟩ := hp
  exact hf.brings (.dict hf.get?_eq hf.valid hpaired.toList)

end Planting

theorem follows_entries (source : MessagePack.Source) (hxy : Plants x y) (n : Nat) (m₀ : Machine) {d : Ref}
    {u : Table Unfolded} (hp : m₀.Ready → Planting m₀ d u m) :
    Follows (entries source x d n) m (Reading.many (Reading.entry source y) n) fun _ es m' =>
      m₀.Ready → Planting m₀ d (u.putAll es) m' := by
  -- by induction on the number of entries, with the table as it has become so far
  induction n generalizing m u with
  | zero => exact .pure hp
  | succ n ih =>
    rw [Reading.many, Reading.entry]
    simp only [bind_assoc, pure_bind]
    refine .item_bind fun key => (hxy m).bind fun c t m₁ hmade => .act_bind fun _ m₂ hrun => ?_
    refine (ih fun hm => ?_).map fun _ _ _ hp₃ => hp₃
    exact (hp hm).put (hmade (hp hm).ready).toBrings hrun

theorem follows_scalar [Inhabited α] (m : Machine) (read : MessagePack.Read α) {make : α → Object}
    (hmake : ∀ a, (make a).isContainer = false) :
    Follows (scalar read make) m (Reading.leaf read make) fun r t m' => m.Ready → m.Brings t.Value r m' := by
  refine .scalar fun a r m' hrun hm => ?_
  have hadds := adds_of_alloc hm hrun
  exact .of_leaf hadds (.leaf hadds.get?_eq (hmake a)) (Object.children_eq_nil (hmake a))

theorem follows_pair (hxy : Plants x y) (m : Machine) :
    Follows (do let h ← x; let t ← x; newPair h t : Unpack Ref) m
      (do let h ← y; let t ← y; return .pair h t : Reading Unfolded) fun r t m' => m.Ready → m.Brings t.Value r m' := by
  refine (hxy m).bind fun a s m₁ ha => (hxy m₁).bind fun b t m₂ hb => .act fun r m₃ hrun hm => ?_
  have ha := ha hm
  have hb := hb ha.grows.ready
  have hadds := adds_of_allocHolding hb.grows.ready hrun
  -- the first member is pinned, so it is still there when the second has been made
  have hleft := ha.later s.lasting_value hb.grows
  have hright := hb.earlier ha.grows
  have hvalue : (Unfolded.pair s t).Value m₃.heap r :=
    .pair hadds.get?_eq (hleft.later s.lasting_value hadds.grows).made (hright.later t.lasting_value hadds.grows).made
  refine .of_adds hleft.grows hadds hvalue fun c hc => ?_
  rcases List.mem_pair.mp hc with rfl | rfl
  · exact ⟨_, s.lasting_value, hleft⟩
  · exact ⟨_, t.lasting_value, hright⟩

theorem follows_payload (source : MessagePack.Source) (hxy : Plants x y) (kind : Nat) (m : Machine) :
    Follows (payload source x kind) m (Reading.payload source y kind)
      fun r t m' => m.Ready → m.Brings t.Value r m' := by
  rw [payload, Reading.payload]
  cases Kind.ofCode kind with
  | nil =>
    -- there is one already
    refine .item_bind fun _ => .act_bind (x := get) (f := fun m => pure m.nil) fun _ _ hrun => .pure fun hm => ?_
    cases hrun
    exact Machine.brings_nil hm (.leaf hm.nil_eq rfl)
  | pair =>
    refine .item_bind fun n => ?_
    split
    · exact .throw_bind _
    · exact follows_pair hxy m
  | list =>
    refine .item_bind fun n => (follows_values hxy n [] m).bind fun items ts m₁ hrs => .act fun r m₂ hrun hm => ?_
    obtain ⟨hgrows, _, rfl, hitems⟩ := hrs hm
    have hadds := adds_of_allocHolding hgrows.ready hrun
    refine .of_adds hgrows hadds (.list hadds.get?_eq ?_) fun c hc => ?_
    · exact hitems.imp fun c t hc => (hc.later t.lasting_value hadds.grows).made
    · obtain ⟨t, -, ht⟩ := exists_of_forall₂_of_mem hitems hc
      exact ⟨_, t.lasting_value, ht⟩
  | dict =>
    -- the dict is there, and pinned, before any of its values
    refine .item_bind fun n => .act_bind fun d m₁ hrun => .act_bind fun _ m₂ hpin => ?_
    cases hpin
    refine (follows_entries source hxy n m (u := .empty) fun hm => ?_).bind fun _ es m₂ hp => .pure fun hm => ?_
    · exact ⟨_, _, .start (adds_of_alloc hm hrun), Table.paired_empty⟩
    · exact (hp hm).brings
  | function | other => exact .throw _
  | _ => exact follows_scalar m _ fun _ => rfl

/-- **Unpacking makes a value of the tree that is read**, and fails where none is read. -/
theorem follows_value (source : MessagePack.Source) (fuel : Nat) :
    Plants (value source fuel) (Reading.value source fuel) := by
  induction fuel with
  | zero => exact fun _ => .throw _
  | succ fuel ih =>
    intro m
    refine .item_bind fun n => ?_
    have hcontent : Follows (do
          let r ← payload source (value source fuel) (← Unpack.item source.tag)
          pin r
          return r) m (do Reading.payload source (Reading.value source fuel) (← Reading.item source.tag))
        fun r t m' => m.Ready → m.Retains t.Value r m' := by
      refine .item_bind fun kind => ?_
      rw [← bind_pure (Reading.payload _ _ _)]
      refine (follows_payload source ih kind m).bind fun r t m₁ hr => .act_bind fun _ m₂ hpin => .pure fun hm => ?_
      cases hpin
      exact (hr hm).pin
    split
    · exact .throw_bind _
    · exact hcontent

end Act.Unpack

/-! ## Unpacking -/

namespace Act

open Unpack Unfolded

variable {source : MessagePack.Source} {t : Text}

theorem unpackFrom_of_reads {x : Unfolded} {rest : List UInt8}
    (hx : (Reading.value source (t.size + 1)).run t.bytes = .ok (x, rest)) (m : Machine) :
    ∃ r m', (unpackFrom source t).run m = (.ok (r, rest), m') ∧ (m.Ready → x.Value m'.heap r ∧ m'.Ready) := by
  obtain ⟨r, m', hyields, hr⟩ := (follows_value source (t.size + 1) m).ok hx
  refine ⟨r, _, unpackFrom_run hyields, fun hm => ?_⟩
  have hready := (hr hm).grows.ready
  exact ⟨(hr hm).made, hready.wellFormed, hready.nil_eq, hready.nil_root⟩

/-- From a text in memory that a tree is read from, a value of the tree is unpacked. -/
theorem unpack_of_reads {x : Unfolded} (hx : (Reading.value .memory (t.size + 1)).run t.bytes = .ok (x, []))
    (m : Machine) : ∃ r m', (unpack t).run m = (.ok r, m') ∧ (m.Ready → x.Value m'.heap r ∧ m'.Ready) := by
  obtain ⟨r, m', hrun, hr⟩ := unpackFrom_of_reads hx m
  refine ⟨r, m', ?_, hr⟩
  rw [unpack, run_bind_of hrun]
  rfl

/-- What is unpacked is a value of the tree that is read. -/
theorem reads_of_unpack {m m' : Machine} {r : Ref} (h : (unpack t).run m = (.ok r, m')) :
    ∃ x, (Reading.value .memory (t.size + 1)).run t.bytes = .ok (x, []) ∧
      (m.Ready → x.Value m'.heap r ∧ m'.Ready) := by
  cases hread : (Reading.value .memory (t.size + 1)).run t.bytes with
  | error e =>
    obtain ⟨m₁, hfails⟩ := (follows_value .memory (t.size + 1) m).error hread
    rw [unpack, run_bind_of (unpackFrom_run hfails)] at h
    cases h
  | ok p =>
    obtain ⟨x, rest⟩ := p
    obtain ⟨r', m₁, hrun, hr⟩ := unpackFrom_of_reads hread m
    rw [unpack, run_bind_of hrun] at h
    cases rest with
    | nil =>
      cases h
      exact ⟨x, rfl, hr⟩
    | cons b bs => cases h

end Act

end TinyScript
