import TinyScript.Proofs.Dict.FiniteMap
import TinyScript.Proofs.Heap.Reference

/-!
# The structure of values

A value is what its reference comes to through parts of parts (`Heap.Reaches`). `Heap.Packable` says that
nothing on the way is stale, is a function or lies inside itself, and that every size fits in 32 bits.
`Heap.Same` compares two values, each in a heap of its own: same kinds, same words and texts, same parts in
the same places. A heap may change elsewhere while all of a value stays (`Heap.Stays`).
-/

namespace TinyScript

/-- What an object without parts is when it comes back from its packed form. Of a truth value only the
truth is kept; functions and things of no kind do not come back. -/
def Object.restored? : Object → Option Object
  | .bool w => some (.ofBool (w ≠ 0))
  | .pair .. | .list _ | .dict _ | .function _ | .other .. => none
  | o => some o

/-- An object that has a packed form as far as it is concerned itself, its parts aside. -/
def Object.Storable : Object → Prop
  | .error t | .string t => t.size < 2 ^ 32
  | .list items => items.length < 2 ^ 32
  | .dict t => t.Valid ∧ t.count < 2 ^ 32 ∧ ∀ key ∈ t.keys, key.size < 2 ^ 32
  | .function _ | .other .. => False
  | _ => True

/-- The number of the kind fits in a byte. -/
theorem Object.code_lt_of_storable {o : Object} (h : o.Storable) : o.kind.code < 256 := by
  cases o with
  | other => exact h.elim
  | _ => simp [Object.kind, Kind.code]

namespace Heap

variable {h h' : Heap} {r s t : Ref} {o : Object}

/-! ## What a value consists of -/

/-- The references that are come to from `r` through the parts of objects. -/
inductive Reaches (h : Heap) (r : Ref) : Ref → Prop
  | refl : Reaches h r r
  | part {s t : Ref} {o : Object} : Reaches h r s → h.get? s = some o → t ∈ o.children → Reaches h r t

theorem Reaches.trans (hrs : h.Reaches r s) (hst : h.Reaches s t) : h.Reaches r t := by
  induction hst with
  | refl => exact hrs
  | part _ ho hmem ih => exact .part ih ho hmem

/-- What a part comes to, the whole comes to. -/
theorem Reaches.of_child (ho : h.get? r = some o) (hs : s ∈ o.children) (hst : h.Reaches s t) : h.Reaches r t :=
  .trans (.part .refl ho hs) hst

theorem Reaches.eq_or_child (hrs : h.Reaches r s) (ho : h.get? r = some o) :
    s = r ∨ ∃ c ∈ o.children, h.Reaches c s := by
  induction hrs with
  | refl => exact Or.inl rfl
  | part _ hp hmem ih =>
    rcases ih with rfl | ⟨c, hc, hcs⟩
    · obtain rfl := Option.some.inj (ho.symm.trans hp)
      exact Or.inr ⟨_, hmem, .refl⟩
    · exact Or.inr ⟨c, hc, .part hcs hp hmem⟩

/-- A value that a packed form is promised for. -/
def Packable (h : Heap) (r : Ref) : Prop :=
  ∀ s, h.Reaches r s → ∃ o, h.get? s = some o ∧ o.Storable ∧ ∀ c ∈ o.children, ¬ h.Reaches c s

/-- Where objects refer to lower slots only, no value lies inside itself. -/
theorem acyclic_of_lower {Q : Object → Prop} (hlower : ∀ s o, h.get? s = some o →
    Q o ∧ ∀ c ∈ o.children, h.valid c ∧ c.index < s.index) (hr : h.valid r) :
    ∀ s, h.Reaches r s → ∃ o, h.get? s = some o ∧ Q o ∧ ∀ c ∈ o.children, ¬ h.Reaches c s := by
  have hle {c s : Ref} (hcs : h.Reaches c s) : s.index ≤ c.index := by
    induction hcs with
    | refl => exact le_refl _
    | part _ ho hmem ih => exact le_trans ((hlower _ _ ho).2 _ hmem).2.le ih
  intro s hs
  have hvalid : h.valid s := by
    cases hs with
    | refl => exact hr
    | part _ ho hmem => exact ((hlower _ _ ho).2 _ hmem).1
  obtain ⟨o, ho⟩ := valid_iff_get?.mp hvalid
  obtain ⟨hQ, hchildren⟩ := hlower s o ho
  refine ⟨o, ho, hQ, fun c hc hreach => ?_⟩
  have hback := hle hreach
  have hdown := (hchildren c hc).2
  omega

/-! ## Heaps that differ elsewhere -/

/-- All that `r` comes to is the same in another heap. -/
def Stays (h h' : Heap) (r : Ref) : Prop := ∀ s, h.Reaches r s → h'.get? s = h.get? s

theorem Stays.child (hr : h.Stays h' r) (ho : h.get? r = some o) (hs : s ∈ o.children) : h.Stays h' s :=
  fun _ ht => hr _ (.of_child ho hs ht)

theorem Stays.get?_eq (hr : h.Stays h' r) (ho : h.get? r = some o) : h'.get? r = some o :=
  (hr r .refl).trans ho

/-- Nothing more is come to in the other heap. -/
theorem Stays.reaches (hr : h.Stays h' r) (hrs : h'.Reaches r s) : h.Reaches r s := by
  induction hrs with
  | refl => exact .refl
  | part _ hp hmem ih => exact .part ih ((hr _ ih).symm.trans hp) hmem

/-- A value stays when an object changes that it does not come to. -/
theorem stays_set {d : Ref} (hd : h.valid d) (hr : ¬ h.Reaches r d) (o : Object) : h.Stays (h.set d o) r := by
  intro s hs
  have hne : s ≠ d := by
    rintro rfl
    exact hr hs
  rw [get?_set hd, if_neg hne]

/-! ## Values of the same structure -/

/-- A value of `h` and one of `h'` that is the same but for the words of truth values, which are one or zero
there. Dicts have the same keys with the same values, in whatever order. -/
inductive Same (h h' : Heap) : Ref → Ref → Prop
  | leaf {r r' : Ref} {o o' : Object} : h.get? r = some o → h'.get? r' = some o' → o.restored? = some o' →
    Same h h' r r'
  | pair {r r' a a' b b' : Ref} : h.get? r = some (.pair a b) → h'.get? r' = some (.pair a' b') →
    Same h h' a a' → Same h h' b b' → Same h h' r r'
  | list {r r' : Ref} {items items' : List Ref} : h.get? r = some (.list items) →
    h'.get? r' = some (.list items') → items.length = items'.length →
    (∀ p ∈ items.zip items', Same h h' p.1 p.2) → Same h h' r r'
  | dict {r r' : Ref} {t t' : Table Ref} : h.get? r = some (.dict t) → h'.get? r' = some (.dict t') →
    t'.Valid → (∀ key, (t.get? key).isSome = (t'.get? key).isSome) →
    (∀ key s s', t.get? key = some s → t'.get? key = some s' → Same h h' s s') → Same h h' r r'

/-- A value that a table holds is a part of its dict. -/
theorem mem_children_of_get? {t : Table Ref} (ht : t.Valid) {key : Text} (hs : t.get? key = some s) :
    s ∈ (Object.dict t).children := by
  obtain ⟨e, he, -, rfl⟩ := ht.get?_eq_some_iff.mp hs
  exact List.mem_map_of_mem he

theorem get?_of_mem_children {t : Table Ref} (ht : t.Valid) (hs : s ∈ (Object.dict t).children) :
    ∃ key, t.get? key = some s := by
  obtain ⟨e, he, rfl⟩ := List.mem_map.mp hs
  exact ⟨e.key, ht.get?_eq_some_iff.mpr ⟨e, he, rfl, rfl⟩⟩

theorem valid_of_parts {r : Ref} {o : Object} (hr : h.get? r = some o)
    (hparts : ∀ c ∈ o.children, h.Reaches c s → h.valid s) (hs : h.Reaches r s) : h.valid s := by
  rcases hs.eq_or_child hr with rfl | ⟨c, hc, hcs⟩
  · exact valid_iff_get?.mpr ⟨o, hr⟩
  · exact hparts c hc hcs

end Heap

end TinyScript
