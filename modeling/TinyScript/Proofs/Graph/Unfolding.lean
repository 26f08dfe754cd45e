import Mathlib.Tactic.Choose
import TinyScript.Proofs.Data.Datum
import TinyScript.Proofs.Graph.Descent

/-!
# What walks give

A value in which nothing lies inside itself unfolds to a finite tree (`Machine.Unfolds`), in which a shared part stands
once for every place where it is met. Its text is the text of that tree, and it becomes plain data and has a packed
form unless a function is met. These two succeed in the same way (`Machine.Converts`): at an object that can be
converted, that is not inside of itself, and whose parts are converted.
-/

namespace TinyScript

variable {α ε β : Type} {path : List Ref}

/-- Whether an object has parts of its own. -/
def Object.isContainer : Object → Bool
  | .pair .. | .list _ | .dict _ => true
  | _ => false

/-- An object of a declared kind that is no function. -/
def Object.Convertible : Object → Prop
  | .function _ | .other .. => False
  | _ => True

theorem Object.children_eq_nil {o : Object} (h : o.isContainer = false) : o.children = [] := by
  cases o <;> first | rfl | cases h

theorem Table.forall_mem_toList {t : Table Ref} {P : Ref → Prop} :
    (∀ e ∈ t.toList, P e.2) ↔ ∀ c ∈ (Object.dict t).children, P c := by
  simp [Table.toList, Object.children]

/-! ## Trees -/

/-- A finite value by its structure. -/
inductive Unfolded where
  | leaf (o : Object)
  | pair (head tail : Unfolded)
  | list (items : List Unfolded)
  /-- A dict with its entries in the order of its table. -/
  | dict (entries : List (Text × Unfolded))
  deriving Inhabited

namespace Unfolded

mutual

/-- A tree as text. -/
def render (style : Style) : Unfolded → Text
  | leaf o => o.renderLeaf style
  | pair h t => "pair(" ++ h.render style ++ "," ++ t.render style ++ ")"
  | list items => "list[" ++ Text.join "," (renderItems style items) ++ "]"
  | dict entries => "dict\x7b" ++ Text.concat (renderEntries style entries) ++ "\x7d"

/-- Each item of a list as text. -/
def renderItems (style : Style) : List Unfolded → List Text
  | [] => []
  | x :: xs => x.render style :: renderItems style xs

/-- Each entry of a dict as text. -/
def renderEntries (style : Style) : List (Text × Unfolded) → List Text
  | [] => []
  | (k, x) :: xs => (k ++ ": " ++ x.render style ++ ", ") :: renderEntries style xs

end

theorem renderItems_eq (style : Style) (xs : List Unfolded) : renderItems style xs = xs.map (render style) :=
  eq_map_of_cons rfl (fun _ _ => rfl) xs

theorem renderEntries_eq (style : Style) (xs : List (Text × Unfolded)) :
    renderEntries style xs = xs.map fun e => (e.1 ++ ": " ++ e.2.render style ++ ", " : Text) :=
  eq_map_of_cons rfl (fun _ _ => rfl) xs

end Unfolded

namespace Machine

/-- The tree that a reference unfolds to. A part has one tree, in whatever places it is met. -/
inductive Unfolds (m : Machine) : Ref → Unfolded → Prop
  | leaf {r} : (m.object r).isContainer = false → Unfolds m r (.leaf (m.object r))
  | pair {r a b x y} : m.object r = .pair a b → Unfolds m a x → Unfolds m b y → Unfolds m r (.pair x y)
  | list {r items} {f : Ref → Unfolded} : m.object r = .list items → (∀ c ∈ items, Unfolds m c (f c)) →
    Unfolds m r (.list (items.map f))
  | dict {r t} {f : Ref → Unfolded} : m.object r = .dict t → (∀ e ∈ t.toList, Unfolds m e.2 (f e.2)) →
    Unfolds m r (.dict (t.toList.map fun e => (e.1, f e.2)))

variable {m : Machine} {r : Ref} {x y : Unfolded}

theorem Unfolds.unique (hx : m.Unfolds r x) (hy : m.Unfolds r y) : y = x := by
  induction hx generalizing y with
  | leaf hleaf =>
    cases hy with
    | leaf => rfl
    | pair ho | list ho | dict ho => rw [ho] at hleaf; cases hleaf
  | pair ho _ _ iha ihb =>
    cases hy with
    | leaf hleaf => rw [ho] at hleaf; cases hleaf
    | pair ho' ha hb =>
      obtain ⟨rfl, rfl⟩ := Object.pair.inj (ho.symm.trans ho')
      rw [iha ha, ihb hb]
    | list ho' | dict ho' => cases ho.symm.trans ho'
  | list ho _ ih =>
    cases hy with
    | leaf hleaf => rw [ho] at hleaf; cases hleaf
    | list ho' hitems =>
      obtain rfl := Object.list.inj (ho.symm.trans ho')
      rw [List.map_congr_left fun c hc => ih c hc (hitems c hc)]
    | pair ho' | dict ho' => cases ho.symm.trans ho'
  | dict ho _ ih =>
    cases hy with
    | leaf hleaf => rw [ho] at hleaf; cases hleaf
    | dict ho' hentries =>
      obtain rfl := Object.dict.inj (ho.symm.trans ho')
      rw [List.map_congr_left fun e he => by rw [ih e he (hentries e he)]]
    | pair ho' | list ho' => cases ho.symm.trans ho'

/-- The trees of values are a function of these. -/
theorem exists_tree (m : Machine) : ∃ f : Ref → Unfolded, ∀ {c x}, m.Unfolds c x → x = f c := by
  have htree (c : Ref) : ∃ y, ∀ x, m.Unfolds c x → x = y := by
    by_cases hc : ∃ x, m.Unfolds c x
    · obtain ⟨y, hy⟩ := hc
      exact ⟨y, fun x hx => hy.unique hx⟩
    · exact ⟨default, fun x hx => absurd ⟨x, hx⟩ hc⟩
  choose f hf using htree
  exact ⟨f, fun hx => hf _ _ hx⟩

/-- Whatever unfolds to a tree does not lie inside itself, nor does anything in it. -/
theorem Unfolds.not_cyclic (hx : m.Unfolds r x) : ∀ s, m.heap.Reaches r s → ¬ m.heap.Cyclic s := by
  -- the parts of an object in the machine are those of the object in the heap
  have hparts {r : Ref} (h : ∀ c ∈ (m.object r).children, ∀ s, m.heap.Reaches c s → ¬ m.heap.Cyclic s) :
      ∀ s, m.heap.Reaches r s → ¬ m.heap.Cyclic s :=
    Heap.not_cyclic_of_parts fun o ho c hc => h c (mem_children_object_iff.mpr ⟨o, ho, hc⟩)
  induction hx with
  | leaf hleaf =>
    refine hparts fun c hc => ?_
    rw [Object.children_eq_nil hleaf] at hc
    cases hc
  | pair ho _ _ iha ihb =>
    refine hparts fun c hc => ?_
    rw [ho] at hc
    rcases List.mem_pair.mp hc with rfl | rfl
    · exact iha
    · exact ihb
  | list ho _ ih =>
    refine hparts fun c hc => ?_
    rw [ho] at hc
    exact ih c hc
  | dict ho _ ih =>
    refine hparts ?_
    rw [ho]
    exact Table.forall_mem_toList.mp ih

/-- An object whose parts unfold to trees unfolds to a tree. -/
theorem exists_unfolds_of_parts (h : ∀ c ∈ (m.object r).children, ∃ x, m.Unfolds c x) : ∃ x, m.Unfolds r x := by
  cases ho : m.object r with
  | pair a b =>
    rw [ho] at h
    obtain ⟨x, hx⟩ := h a (by simp [Object.children])
    obtain ⟨y, hy⟩ := h b (by simp [Object.children])
    exact ⟨_, .pair ho hx hy⟩
  | list items =>
    rw [ho] at h
    choose! f hf using h
    exact ⟨_, .list ho hf⟩
  | dict t =>
    rw [ho] at h
    choose! f hf using h
    exact ⟨_, .dict ho (Table.forall_mem_toList.mpr hf)⟩
  | _ => exact ⟨_, .leaf (by rw [ho]; rfl)⟩

/-- **A value unfolds to a tree exactly if nothing in it lies inside itself.** -/
theorem exists_unfolds_iff : (∃ x, m.Unfolds r x) ↔ ∀ s, m.heap.Reaches r s → ¬ m.heap.Cyclic s := by
  constructor
  · rintro ⟨x, hx⟩
    exact hx.not_cyclic
  · intro h
    refine m.heap.descend (Q := fun _ => True) (P := fun _ _ r => ∃ x, m.Unfolds r x) (fun _ _ hparts => ?_)
      fun s hs => ⟨trivial, h s hs⟩
    refine exists_unfolds_of_parts fun c hc => ?_
    obtain ⟨o, ho, hc⟩ := mem_children_object_iff.mp hc
    exact hparts o ho c hc

/-! ## Texts -/

/-- A walk that comes from what it gives for the trees of the parts to what it gives for the tree of the whole. -/
theorem Unfolds.walk_eq {f : Nat → List Ref → Ref → α} {g : Unfolded → α}
    (hsucc : ∀ {fuel path r x}, r ∉ path →
      (∀ c ∈ (m.object r).children, ∀ x, m.Unfolds c x → f fuel (r :: path) c = g x) →
      m.Unfolds r x → f (fuel + 1) path r = g x)
    (hx : m.Unfolds r x) : f (m.heap.slots.size + 1) [] r = g x := by
  refine m.heap.descend (Q := fun _ => True) (P := fun fuel path r => ∀ x, m.Unfolds r x → f fuel path r = g x)
    (fun _ hnot hparts x hx => ?_) (fun s hs => ⟨trivial, hx.not_cyclic s hs⟩) x hx
  refine hsucc hnot (fun c hc => ?_) hx
  obtain ⟨o, ho, hc⟩ := mem_children_object_iff.mp hc
  exact hparts o ho c hc

/-- One step of the walk: if the walk is not inside of a container, and the parts have the texts of their trees, so
has the container. -/
theorem renderWithin_succ {style : Style} {fuel : Nat} (hnot : r ∉ path)
    (hpart : ∀ c ∈ (m.object r).children, ∀ x, m.Unfolds c x → m.renderWithin style fuel (r :: path) c = x.render style)
    (hx : m.Unfolds r x) : m.renderWithin style (fuel + 1) path r = x.render style := by
  have hoff : ¬ path.contains r := by rwa [List.contains_iff_mem]
  rw [renderWithin]
  cases hx with
  | leaf hleaf =>
    rw [Unfolded.render]
    cases ho : m.object r with
    | pair | list | dict => rw [ho] at hleaf; cases hleaf
    | _ => rfl
  | pair ho ha hb =>
    rw [ho] at hpart ⊢
    dsimp only
    rw [if_neg hoff, Unfolded.render, hpart _ (by simp [Object.children]) _ ha,
      hpart _ (by simp [Object.children]) _ hb]
  | list ho hitems =>
    rw [ho] at hpart ⊢
    dsimp only [Object.children] at hpart ⊢
    rw [if_neg hoff, Unfolded.render, Unfolded.renderItems_eq, List.map_map,
      List.map_congr_left fun c hc => hpart c hc _ (hitems c hc)]
    rfl
  | dict ho hentries =>
    rw [ho, ← Table.forall_mem_toList] at hpart
    rw [ho]
    dsimp only
    rw [if_neg hoff, Unfolded.render, Unfolded.renderEntries_eq, List.map_map,
      List.map_congr_left fun e he => by rw [hpart e he _ (hentries e he)]]
    rfl

/-- **The text of a value is the text of its tree.** -/
theorem render_eq_of_unfolds (hx : m.Unfolds r x) (style : Style) : m.render style r = x.render style :=
  hx.walk_eq renderWithin_succ

/-! ## Plain data and packed forms -/

theorem mapM_congr_left {f g : α → Except ε β} {xs : List α} (h : ∀ x ∈ xs, f x = g x) :
    xs.mapM f = xs.mapM g :=
  mapM_eq_of_forall₂ (List.forall₂_same.mpr h) fun _ _ hxy => hxy

/-- Where a first result is only passed on, it is there if the second is. -/
theorem exists_bind_pure_ok_iff {x : Except ε α} {f : α → β} :
    (∃ b, (do return f (← x)) = Except.ok (ε := ε) b) ↔ ∃ a, x = .ok a := by
  cases x with
  | error e => exact ⟨fun ⟨b, hb⟩ => (nomatch hb), fun ⟨a, ha⟩ => (nomatch ha)⟩
  | ok a => exact ⟨fun _ => ⟨a, rfl⟩, fun _ => ⟨f a, rfl⟩⟩

theorem exists_mapM_ok_iff {f : α → Except ε β} {xs : List α} :
    (∃ ys, xs.mapM f = .ok ys) ↔ ∀ x ∈ xs, ∃ y, f x = .ok y := by
  induction xs with
  | nil => exact ⟨fun _ => List.forall_mem_nil _, fun _ => ⟨[], rfl⟩⟩
  | cons x xs ih =>
    rw [List.forall_mem_cons, ← ih, List.mapM_cons]
    cases f x with
    | error e => exact ⟨fun ⟨ys, hys⟩ => (nomatch hys), fun ⟨⟨y, hy⟩, _⟩ => (nomatch hy)⟩
    | ok y =>
      refine Iff.trans ?_ (and_iff_right ⟨y, rfl⟩).symm
      exact exists_bind_pure_ok_iff

theorem exists_pair_ok_iff {x y : Except ε α} {f : α → α → β} :
    (∃ b, (do let a ← x; let b ← y; return f a b) = Except.ok (ε := ε) b) ↔ (∃ a, x = .ok a) ∧ ∃ b, y = .ok b := by
  cases x with
  | error e => exact ⟨fun ⟨b, hb⟩ => (nomatch hb), fun ⟨⟨a, ha⟩, _⟩ => (nomatch ha)⟩
  | ok a =>
    refine Iff.trans ?_ (and_iff_right ⟨a, rfl⟩).symm
    exact exists_bind_pure_ok_iff

theorem exists_guarded_ok_iff {e : ε} {x : Except ε α} :
    (∃ a, (if path.contains r then .error e else x) = .ok a) ↔ r ∉ path ∧ ∃ a, x = .ok a := by
  by_cases hmem : r ∈ path
  · rw [if_pos (List.contains_iff_mem.mpr hmem)]
    exact ⟨fun ⟨a, ha⟩ => (nomatch ha), fun h => absurd hmem h.1⟩
  · rw [if_neg (by rwa [List.contains_iff_mem])]
    exact (and_iff_right hmem).symm

/-- A bounded walk that succeeds exactly at objects that can be converted, that it is not inside of, and in whose
parts it succeeds. -/
structure Converts (m : Machine) (ok : Nat → List Ref → Ref → Prop) : Prop where
  zero : ∀ path r, ¬ ok 0 path r
  succ : ∀ fuel path r, ok (fuel + 1) path r ↔ (m.object r).Convertible ∧
    ((m.object r).isContainer = true → r ∉ path) ∧ ∀ c ∈ (m.object r).children, ok fuel (r :: path) c

/-- Where a walk succeeds it has met everything: there is no function, and nothing that lies inside itself. -/
theorem Converts.sound {ok : Nat → List Ref → Ref → Prop} (hok : m.Converts ok) {fuel : Nat}
    (h : ok fuel path r) : ∀ s, m.heap.Reaches r s → (m.object s).Convertible ∧ ¬ m.heap.Cyclic s := by
  induction fuel generalizing path r with
  | zero => exact absurd h (hok.zero path r)
  | succ fuel ih =>
    obtain ⟨hconvertible, -, hparts⟩ := (hok.succ fuel path r).mp h
    replace hparts : ∀ o, m.heap.get? r = some o → ∀ c ∈ o.children, ok fuel (r :: path) c :=
      fun o ho c hc => hparts c (mem_children_object_iff.mpr ⟨o, ho, hc⟩)
    refine fun s hs => ⟨?_, Heap.not_cyclic_of_parts (fun o ho c hc s hs => (ih (hparts o ho c hc) s hs).2) s hs⟩
    rcases hs.eq_or_part with rfl | ⟨o, ho, c, hc, hcs⟩
    · exact hconvertible
    · exact (ih (hparts o ho c hc) s hcs).1

/-- **A value is converted exactly if no function is in it and nothing lies inside itself.** -/
theorem Converts.iff {ok : Nat → List Ref → Ref → Prop} (hok : m.Converts ok) :
    ok (m.heap.slots.size + 1) [] r ↔ ∀ s, m.heap.Reaches r s → (m.object s).Convertible ∧ ¬ m.heap.Cyclic s := by
  refine ⟨hok.sound, fun h => m.heap.descend ?_ h⟩
  intro fuel path r hconvertible hnot hparts
  refine (hok.succ fuel path r).mpr ⟨hconvertible, fun _ => hnot, fun c hc => ?_⟩
  obtain ⟨o, ho, hc⟩ := mem_children_object_iff.mp hc
  exact hparts o ho c hc

theorem converts_toDatumWithin (m : Machine) :
    m.Converts fun fuel path r => ∃ d, m.toDatumWithin fuel path r = .ok d where
  zero := fun path r ⟨d, hd⟩ => nomatch hd
  succ := by
    intro fuel path r
    rw [toDatumWithin]
    cases m.object r with
    | pair a b =>
      dsimp only
      rw [exists_guarded_ok_iff, exists_pair_ok_iff]
      simp [Object.Convertible, Object.isContainer, Object.children]
    | list items =>
      dsimp only
      rw [exists_guarded_ok_iff, exists_bind_pure_ok_iff, exists_mapM_ok_iff]
      simp [Object.Convertible, Object.isContainer, Object.children]
    | dict t =>
      dsimp only
      rw [exists_guarded_ok_iff, exists_bind_pure_ok_iff, exists_mapM_ok_iff,
        ← Table.forall_mem_toList (P := fun c => ∃ d, m.toDatumWithin fuel (r :: path) c = .ok d)]
      simp only [exists_bind_pure_ok_iff]
      simp [Object.Convertible, Object.isContainer]
    | _ => simp [Object.Convertible, Object.isContainer, Object.children]

theorem converts_packWithin (m : Machine) :
    m.Converts fun fuel path r => ∃ t, m.packWithin fuel path r = .ok t where
  zero := fun path r ⟨t, ht⟩ => nomatch ht
  succ := by
    intro fuel path r
    rw [packWithin]
    cases m.object r with
    | pair a b =>
      dsimp only
      rw [exists_guarded_ok_iff, exists_bind_pure_ok_iff, exists_pair_ok_iff]
      simp [Object.Convertible, Object.isContainer, Object.children]
    | list items =>
      dsimp only
      rw [exists_guarded_ok_iff, exists_bind_pure_ok_iff, exists_bind_pure_ok_iff, exists_mapM_ok_iff]
      simp [Object.Convertible, Object.isContainer, Object.children]
    | dict t =>
      dsimp only
      rw [exists_guarded_ok_iff, exists_bind_pure_ok_iff, exists_bind_pure_ok_iff, exists_mapM_ok_iff,
        ← Table.forall_mem_toList (P := fun c => ∃ t, m.packWithin fuel (r :: path) c = .ok t)]
      simp only [exists_bind_pure_ok_iff]
      simp [Object.Convertible, Object.isContainer]
    | _ => simp [Object.Convertible, Object.isContainer, Object.children]

/-- **Walks cope with sharing and cycles.** Whatever a reference comes to, a walk that turns back at the containers
it is inside of ends, and no bound on it makes a difference that exceeds the number of slots. A value becomes plain
data, and has a packed form, exactly if everything it comes to is of a declared kind and no function, and nothing
lies inside itself. It unfolds to a finite tree exactly if nothing lies inside itself, there is one such tree, and
its text is the text of that tree. -/
theorem walks_cope (m : Machine) (r : Ref) :
    m.Descent [] r
      ∧ (∀ bound, m.heap.slots.size < bound → m.toDatumWithin bound [] r = m.toDatum r
          ∧ m.packWithin bound [] r = m.pack r ∧ ∀ style, m.renderWithin style bound [] r = m.render style r)
      ∧ ((∃ d, m.toDatum r = .ok d) ↔
          ∀ s, m.heap.Reaches r s → (m.object s).Convertible ∧ ¬ m.heap.Cyclic s)
      ∧ ((∃ t, m.pack r = .ok t) ↔
          ∀ s, m.heap.Reaches r s → (m.object s).Convertible ∧ ¬ m.heap.Cyclic s)
      ∧ ((∃ x, m.Unfolds r x) ↔ ∀ s, m.heap.Reaches r s → ¬ m.heap.Cyclic s)
      ∧ ∀ x, m.Unfolds r x → (∀ y, m.Unfolds r y → y = x) ∧ ∀ style, m.render style r = x.render style := by
  refine ⟨m.descent r, fun bound hbound => ?_, m.converts_toDatumWithin.iff, m.converts_packWithin.iff,
    exists_unfolds_iff, fun x hx => ⟨fun y hy => hx.unique hy, render_eq_of_unfolds hx⟩⟩
  have hwithin := Heap.within_nil hbound
  have hslots := m.heap.within_nil (Nat.lt_succ_self m.heap.slots.size)
  exact ⟨m.local_toDatumWithin.eq_of_within hwithin hslots r, m.local_packWithin.eq_of_within hwithin hslots r,
    fun style => (m.local_renderWithin style).eq_of_within hwithin hslots r⟩

/-- A number, a pair that holds it twice, a list that holds the pair twice, and a list that holds itself, the list
before it and a stale reference. -/
def tangled : Machine where
  heap :=
    let (h, _) := Heap.empty.alloc (.i64 5) false
    let (h, _) := h.alloc (.pair ⟨0, 1⟩ ⟨0, 1⟩) false
    let (h, _) := h.alloc (.list [⟨1, 1⟩, ⟨1, 1⟩]) false
    let (h, _) := h.alloc (.list [⟨3, 1⟩, ⟨2, 1⟩, ⟨0, 7⟩]) false
    h

theorem unfolds_tangled : tangled.Unfolds ⟨2, 1⟩
    (.list [.pair (.leaf (.i64 5)) (.leaf (.i64 5)), .pair (.leaf (.i64 5)) (.leaf (.i64 5))]) := by
  have hnumber : tangled.Unfolds ⟨0, 1⟩ (.leaf (.i64 5)) := .leaf rfl
  have hpair : tangled.Unfolds ⟨1, 1⟩ (.pair (.leaf (.i64 5)) (.leaf (.i64 5))) := .pair rfl hnumber hnumber
  have hlist : tangled.object ⟨2, 1⟩ = .list [⟨1, 1⟩, ⟨1, 1⟩] := rfl
  refine .list (f := fun _ => .pair (.leaf (.i64 5)) (.leaf (.i64 5))) hlist fun c hc => ?_
  rcases List.mem_pair.mp hc with rfl | rfl <;> exact hpair

theorem cyclic_tangled : tangled.heap.Cyclic ⟨3, 1⟩ := ⟨_, rfl, ⟨3, 1⟩, List.mem_cons_self, .refl⟩

theorem walks_cope_tangled :
    tangled.heap.slots.size < 9
      ∧ tangled.renderWithin .plain 9 [] ⟨3, 1⟩ = tangled.render .plain ⟨3, 1⟩
      ∧ tangled.render .plain ⟨3, 1⟩
        = "list[...,list[pair(5,5),pair(5,5)],stale or invalid object reference]"
      ∧ tangled.render .plain ⟨2, 1⟩ = "list[pair(5,5),pair(5,5)]"
      ∧ tangled.heap.Cyclic ⟨3, 1⟩
      ∧ (¬ ∃ d, tangled.toDatum ⟨3, 1⟩ = .ok d) ∧ ¬ ∃ t, tangled.pack ⟨3, 1⟩ = .ok t := by
  obtain ⟨-, hbound, hdatum, hpack, -, -⟩ := walks_cope tangled ⟨3, 1⟩
  obtain ⟨-, -, -, -, -, htext⟩ := walks_cope tangled ⟨2, 1⟩
  have hcyclic := cyclic_tangled
  have hsize : tangled.heap.slots.size < 9 := by decide
  refine ⟨hsize, (hbound 9 hsize).2.2 .plain, by decide, ((htext _ unfolds_tangled).2 .plain).trans (by decide),
    hcyclic, fun h => ?_, fun h => ?_⟩
  · exact (hdatum.mp h _ .refl).2 hcyclic
  · exact (hpack.mp h _ .refl).2 hcyclic

end Machine

end TinyScript
