import TinyScript.Proofs.Packed.Growth

/-!
# Building values

A value is built of new objects and of the shared `nil` (`Machine.Brings`). What is said of it stays true while nothing
of it changes (`Heap.Lasting`), and that is so as long as it is held. Only dicts are there before their values and
change while these are made: no value that was made before can come to the dict (`Machine.Filling`).
-/

namespace TinyScript

open Heap

/-- A predicate of values that have no stale parts, true as long as all of the value stays. -/
structure Heap.Lasting (P : Heap → Ref → Prop) : Prop where
  stays : ∀ {h h' : Heap} {r : Ref}, P h r → h.Stays h' r → P h' r
  valid : ∀ {h : Heap} {r s : Ref}, P h r → h.Reaches r s → h.valid s

namespace Machine

variable {m₀ m m₁ m₂ : Machine} {P : Heap → Ref → Prop} {r : Ref}

/-- Going on from `m` to `m'` a value was made that `P` is true of. Nothing of it was held before, the shared
`nil` aside. -/
structure Brings (m : Machine) (P : Heap → Ref → Prop) (r : Ref) (m' : Machine) : Prop where
  grows : m.Grows m'
  made : P m'.heap r
  fresh : ∀ s, m'.heap.Reaches r s → s = m.nil ∨ ¬ m.Guarded s

namespace Brings

/-- A value stays while it is held and the machine goes on. -/
theorem later (hb : m.Brings P r m₁) (hP : Lasting P) (hheld : m₁.Holds r) (hg : m₁.Grows m₂) : m.Brings P r m₂ where
  grows := hb.grows.trans hg
  made := hP.stays hb.made (hg.stays hheld)
  fresh s hs := hb.fresh s ((hg.stays hheld).reaches hs)

theorem earlier (hb : m.Brings P r m₁) (hg : m₀.Grows m) : m₀.Brings P r m₁ where
  grows := hg.trans hb.grows
  made := hb.made
  fresh s hs := (hb.fresh s hs).imp (fun heq => heq.trans hg.nil_eq) fun hnew hs => hnew (hg.guarded hs)

/-- A value stays when a new dict changes that is no part of it. -/
theorem setDict (hb : m.Brings P r m₁) (hP : Lasting P) {d : Ref} {t : Table Ref} (hd : m₁.heap.get? d = some (.dict t))
    (hnew : ¬ m.Guarded d) (hapart : ¬ m₁.heap.Reaches r d) (t' : Table Ref) (notes : List Text) :
    m.Brings P r { m₁ with heap := m₁.heap.set d (.dict t'), notes := notes } := by
  have hstays := stays_set (valid_iff_get?.mpr ⟨_, hd⟩) hapart (.dict t')
  exact
    { grows := hb.grows.setDict hd hnew t' notes
      made := hP.stays hb.made hstays
      fresh := fun s hs => hb.fresh s (hstays.reaches hs) }

/-- An object without parts. -/
theorem of_leaf {o : Object} (ha : m.Adds o r m₁) (hmade : P m₁.heap r) (ho : o.children = []) :
    m.Brings P r m₁ where
  grows := ha.grows
  made := hmade
  fresh s hs := by
    rcases hs.eq_or_child ha.get?_eq with rfl | ⟨c, hc, -⟩
    · exact Or.inr ha.new
    · rw [ho] at hc
      exact absurd hc List.not_mem_nil

end Brings

/-- A value that was pinned. -/
structure Retains (m : Machine) (P : Heap → Ref → Prop) (r : Ref) (m' : Machine) : Prop
    extends Brings m P r m' where
  pinned : r ∈ m'.pins

theorem Brings.pin (hb : m.Brings P r m₁) : m.Retains P r { m₁ with pins := m₁.pins.push r } where
  grows := hb.grows.pin r
  made := hb.made
  fresh := hb.fresh
  pinned := Array.mem_push_self

namespace Retains

theorem holds (hr : m.Retains P r m₁) (hP : Lasting P) : m₁.Holds r :=
  holds_of_mem_pins hr.pinned fun _ hs => hP.valid hr.made hs

theorem later (hr : m.Retains P r m₁) (hP : Lasting P) (hg : m₁.Grows m₂) : m.Retains P r m₂ where
  toBrings := hr.toBrings.later hP (hr.holds hP) hg
  pinned := hg.pins r hr.pinned

theorem earlier (hr : m.Retains P r m₁) (hg : m₀.Grows m) : m₀.Retains P r m₁ where
  toBrings := hr.toBrings.earlier hg
  pinned := hr.pinned

end Retains

/-- A new object, made of parts that are pinned. -/
theorem Brings.of_adds {o : Object} (hg : m.Grows m₁) (ha : m₁.Adds o r m₂) (hmade : P m₂.heap r)
    (hparts : ∀ c ∈ o.children, ∃ Q, Lasting Q ∧ m.Retains Q c m₁) : m.Brings P r m₂ where
  grows := hg.trans ha.grows
  made := hmade
  fresh s hs := by
    rcases hs.eq_or_child ha.get?_eq with rfl | ⟨c, hc, hreach⟩
    · exact Or.inr fun hs => ha.new (hg.guarded hs)
    · obtain ⟨Q, hQ, hretains⟩ := hparts c hc
      exact (hretains.later hQ ha.grows).fresh s hreach

/-- The shared `nil` is there already. -/
theorem brings_nil (hm : m.Ready) (hmade : P m.heap m.nil) : m.Brings P m.nil m where
  grows := .refl hm
  made := hmade
  fresh s hs := by
    rcases hs.eq_or_child hm.nil_eq with rfl | ⟨c, hc, -⟩
    · exact Or.inl rfl
    · exact absurd hc List.not_mem_nil

/-! ## Dicts -/

/-- A dict `d` is pinned, was not held in `m₀`, and has come to have values for the keys `done`, each with what
`P` says of its key. None of the values comes to the dict itself, which will change again. -/
structure Filling (m₀ : Machine) (P : Text → Heap → Ref → Prop) (d : Ref) (done : List Text) (t : Table Ref)
    (m : Machine) : Prop where
  grows : m₀.Grows m
  new : ¬ m₀.Guarded d
  pinned : d ∈ m.pins
  get?_eq : m.heap.get? d = some (.dict t)
  valid : t.Valid
  keys : ∀ key, (t.get? key).isSome ↔ key ∈ done
  values : ∀ {key c}, t.get? key = some c → m₀.Brings (P key) c m ∧ ¬ m.heap.Reaches c d

namespace Filling

variable {P : Text → Heap → Ref → Prop} {t : Table Ref} {d : Ref} {done : List Text}

/-- A new dict, pinned before any of its values is made. -/
theorem start (ha : m.Adds (.dict .empty) d m₁) :
    m.Filling P d [] .empty { m₁ with pins := m₁.pins.push d } where
  grows := ha.grows.pin d
  new := ha.new
  pinned := Array.mem_push_self
  get?_eq := ha.get?_eq
  valid := Table.valid_empty
  keys key := by simp [Table.get?_empty]
  values hc := by simp [Table.get?_empty] at hc

theorem guarded (hf : m₀.Filling P d done t m) : m.Guarded d :=
  ⟨valid_iff_get?.mpr ⟨_, hf.get?_eq⟩, d, hf.pinned, .refl⟩

/-- What is made while a dict is filled does not come to the dict. -/
theorem apart (hf : m₀.Filling P d done t m) {Q : Heap → Ref → Prop} {c : Ref} (hb : m.Brings Q c m₁) :
    ¬ m₁.heap.Reaches c d := by
  intro hreach
  rcases hb.fresh d hreach with heq | hnew
  · have hnil := hf.grows.ready.nil_eq
    rw [← heq, hf.get?_eq] at hnil
    cases hnil
  · exact hnew hf.guarded

/-- The dict is pinned, and so its values are held. -/
theorem holds (hf : m₀.Filling P d done t m) (hP : ∀ key, Lasting (P key)) {key : Text} {c : Ref}
    (hc : t.get? key = some c) : m.Holds c := by
  intro s hs
  refine ⟨(hP key).valid (hf.values hc).1.made hs, d, hf.pinned, ?_⟩
  exact .of_child hf.get?_eq (mem_children_of_get? hf.valid hc) hs

/-- One more value goes into the dict. -/
theorem put (hf : m₀.Filling P d done t m) (hP : ∀ key, Lasting (P key)) {key : Text} {c : Ref}
    (hb : m.Brings (P key) c m₁) :
    ∃ m₂, (Act.dictPut d key c).run m₁ = ((), m₂) ∧ m₀.Filling P d (key :: done) (t.put key c).1 m₂ := by
  have hget : m₁.heap.get? d = some (.dict t) := (hb.grows.kept d hf.guarded).trans hf.get?_eq
  obtain ⟨notes, hrun⟩ := Act.dictPut_of_dict hget key c
  let m₂ : Machine := { m₁ with heap := m₁.heap.set d (.dict (t.put key c).1), notes := notes }
  have hvalid : m₁.heap.valid d := valid_iff_get?.mpr ⟨_, hget⟩
  have hkeep {k : Text} {x : Ref} (hx : m₀.Brings (P k) x m₁) (hapart : ¬ m₁.heap.Reaches x d) :
      m₀.Brings (P k) x m₂ ∧ ¬ m₂.heap.Reaches x d :=
    ⟨hx.setDict (hP k) hget hf.new hapart _ notes, fun hreach => hapart ((stays_set hvalid hapart _).reaches hreach)⟩
  refine ⟨m₂, hrun, (hf.grows.trans hb.grows).setDict hget hf.new _ notes, hf.new,
    hb.grows.pins d hf.pinned, (get?_set hvalid _ _).trans (if_pos rfl), hf.valid.put key c, fun k => ?_,
    fun {k x} hx => ?_⟩
  · rw [hf.valid.get?_put, List.mem_cons, ← hf.keys k]
    split
    · next heq => exact iff_of_true rfl (Or.inl heq.symm)
    · next hne => exact (or_iff_right fun heq => hne heq.symm).symm
  · rw [hf.valid.get?_put] at hx
    split at hx
    · next heq =>
      -- the value that was made last
      subst heq
      obtain rfl := Option.some.inj hx
      exact hkeep (hb.earlier hf.grows) (hf.apart hb)
    · -- one from before, which the dict holds
      obtain ⟨hold, hnot⟩ := hf.values hx
      have hheld := hf.holds hP hx
      exact hkeep (hold.later (hP k) hheld hb.grows) fun hreach => hnot ((hb.grows.stays hheld).reaches hreach)

/-- The dict as a value. -/
theorem brings (hf : m₀.Filling P d done t m) {Q : Heap → Ref → Prop} (hmade : Q m.heap d) : m₀.Brings Q d m where
  grows := hf.grows
  made := hmade
  fresh s hs := by
    rcases hs.eq_or_child hf.get?_eq with rfl | ⟨c, hc, hreach⟩
    · exact Or.inr hf.new
    · obtain ⟨key, hkey⟩ := get?_of_mem_children hf.valid hc
      exact (hf.values hkey).1.fresh s hreach

end Filling

end Machine

end TinyScript
