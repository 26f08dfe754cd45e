import TinyScript.Machine.Builtin
import TinyScript.Proofs.Graph.Unfolding
import TinyScript.Proofs.Json.Value

/-!
# The tagged form tells values apart

A basic value is made of units, nils, truth values and integers by pairs and lists. Its tagged text is read in one way
only, whatever follows it (`Value.Basic.readable`). So basic values with the same tagged text are the same tree, and
`blake2` takes the digest of a text that no other basic value has.
-/

namespace TinyScript

open Data

/-- A value of units, nils, truth values, integers, pairs and lists, to any depth. -/
inductive Value.Basic : Value → Prop
  | unit : Basic .unit
  | nil : Basic .nil
  | bool (b : Bool) : Basic (.bool b)
  | u64 (w : UInt64) : Basic (.u64 w)
  | i64 (w : UInt64) : Basic (.i64 w)
  | pair {v w : Value} : Basic v → Basic w → Basic (.pair v w)
  | list {vs : List Value} : (∀ v ∈ vs, Basic v) → Basic (.list vs)

/-! ## Integers -/

namespace Text

theorem bytes_ofString (s : String) : (ofString s).bytes = s.toList.flatMap String.utf8EncodeChar := rfl

theorem ofInt_injective : Function.Injective ofInt := by
  have hdigits {m n : Nat} (h : (ofNat m).bytes = (ofNat n).bytes) : m = n := by
    rw [← Json.digitsValue_ofNat m, h, Json.digitsValue_ofNat]
  have hsign (m n : Nat) : ofNat m ≠ ⟨[45]⟩ ++ ofNat n := by
    intro h
    have hminus := Json.all_isDigit_ofNat m 45 (by rw [h]; exact List.mem_cons_self)
    cases hminus
  rintro (m | m) (n | n) h
  · rw [hdigits (congrArg bytes h)]
  · exact absurd h (hsign m (n + 1))
  · exact absurd h.symm (hsign n (m + 1))
  · rw [Nat.succ.inj (hdigits (List.cons.inj (congrArg bytes h)).2)]

/-- An integer ends at a parenthesis. -/
theorem ofInt_append_inj {i j : Int} {a b : List UInt8}
    (h : (ofInt i).bytes ++ 41 :: a = (ofInt j).bytes ++ 41 :: b) : i = j ∧ a = b := by
  have htake (i : Int) (a : List UInt8) :
      ((ofInt i).bytes ++ 41 :: a).takeWhile Json.isNumberByte = (ofInt i).bytes := by
    obtain ⟨c, cs, hbytes, -, hall⟩ := Json.ofInt_spec i
    rw [hbytes]
    exact (Json.takeWhile_number hall (Json.ends_cons rfl a)).1
  have hbytes : (ofInt i).bytes = (ofInt j).bytes := by rw [← htake i a, h, htake]
  obtain rfl := ofInt_injective (congrArg mk hbytes)
  exact ⟨rfl, (List.cons.inj (List.append_cancel_left h)).2⟩

end Text

/-! ## Unique readability -/

namespace Value

mutual

/-- The tagged text of a basic value. -/
def tagged : Value → Text
  | unit => "unit"
  | nil => "nil"
  | bool b => "bool(" ++ Text.ofBool b ++ ")"
  | u64 w => "u64(" ++ Text.ofInt w.toNat ++ ")"
  | i64 w => "i64(" ++ Text.ofInt w.toInt64.toInt ++ ")"
  | pair a b => "pair(" ++ a.tagged ++ "," ++ b.tagged ++ ")"
  | list items => "list[" ++ Text.join "," (taggedItems items) ++ "]"
  | _ => Text.empty

/-- The tagged text of each item of a list. -/
def taggedItems : List Value → List Text
  | [] => []
  | v :: vs => v.tagged :: taggedItems vs

end

theorem taggedItems_eq (vs : List Value) : taggedItems vs = vs.map tagged :=
  eq_map_of_cons rfl (fun _ _ => rfl) vs

/-- Where the text of the value stands no other basic value can be read, whatever follows. -/
def Readable (v : Value) : Prop :=
  ∀ ⦃w : Value⦄ ⦃a b : List UInt8⦄, w.Basic → v.tagged.bytes ++ a = w.tagged.bytes ++ b → v = w ∧ a = b

variable {v : Value} {vs ws : List Value} {a b : List UInt8}

/-- The bracket at the end of a list is not the beginning of an item. -/
theorem Basic.bracket_ne (hv : v.Basic) : 93 :: a ≠ v.tagged.bytes ++ b := by
  intro h
  cases hv <;> cases h

/-- Items with a comma before each, and the end of their list. -/
def furtherItems (vs : List Value) (rest : List UInt8) : List UInt8 :=
  vs.flatMap (fun v => 44 :: v.tagged.bytes) ++ 93 :: rest

theorem furtherItems_cons (v : Value) (vs : List Value) (rest : List UInt8) :
    furtherItems (v :: vs) rest = 44 :: (v.tagged.bytes ++ furtherItems vs rest) := by
  simp [furtherItems]

theorem bytes_join_cons (v : Value) (vs : List Value) (rest : List UInt8) :
    (Text.join "," (taggedItems (v :: vs))).bytes ++ 93 :: rest = v.tagged.bytes ++ furtherItems vs rest := by
  simp [taggedItems_eq, furtherItems, Text.join, Text.concat, List.flatMap_map, Text.bytes_ofString,
    String.utf8EncodeChar]

theorem furtherItems_inj (hvs : ∀ v ∈ vs, v.Readable) (hws : ∀ w ∈ ws, w.Basic)
    (h : furtherItems vs a = furtherItems ws b) : vs = ws ∧ a = b := by
  induction vs generalizing ws with
  | nil =>
    cases ws with
    | nil => exact ⟨rfl, (List.cons.inj h).2⟩
    | cons w ws => cases h
  | cons v vs ih =>
    cases ws with
    | nil => cases h
    | cons w ws =>
      rw [List.forall_mem_cons] at hvs hws
      rw [furtherItems_cons, furtherItems_cons] at h
      obtain ⟨rfl, hrest⟩ := hvs.1 hws.1 (List.cons.inj h).2
      obtain ⟨rfl, rfl⟩ := ih hvs.2 hws.2 hrest
      exact ⟨rfl, rfl⟩

theorem items_inj (hvs : ∀ v ∈ vs, v.Basic) (hreadable : ∀ v ∈ vs, v.Readable) (hws : ∀ w ∈ ws, w.Basic)
    (h : (Text.join "," (taggedItems vs)).bytes ++ 93 :: a = (Text.join "," (taggedItems ws)).bytes ++ 93 :: b) :
    vs = ws ∧ a = b := by
  cases vs with
  | nil =>
    cases ws with
    | nil => exact ⟨rfl, (List.cons.inj h).2⟩
    | cons w ws =>
      rw [bytes_join_cons] at h
      exact absurd h (hws w List.mem_cons_self).bracket_ne
  | cons v vs =>
    rw [bytes_join_cons] at h
    cases ws with
    | nil => exact absurd h.symm (hvs v List.mem_cons_self).bracket_ne
    | cons w ws =>
      -- a comma before the first items as well makes them further items
      rw [bytes_join_cons] at h
      exact furtherItems_inj hreadable hws (by rw [furtherItems_cons, furtherItems_cons, h])

/-- **Unique readability.** By induction on the value; the tags rule out all values of other kinds. -/
theorem Basic.readable (hv : v.Basic) : v.Readable := by
  induction hv with
  | unit | nil =>
    intro w a b hw h
    cases hw <;> cases h
    exact ⟨rfl, rfl⟩
  | bool x =>
    intro w a b hw h
    cases hw with
    | bool y => cases x <;> cases y <;> cases h <;> exact ⟨rfl, rfl⟩
    | _ => cases h
  | u64 x =>
    intro w a b hw h
    cases hw with
    | u64 y =>
      obtain ⟨hnumber, rfl⟩ := Text.ofInt_append_inj (i := x.toNat) (j := y.toNat) (a := a) (b := b) (by
        simpa [tagged, Text.bytes_ofString, String.utf8EncodeChar] using h)
      exact ⟨congrArg _ (UInt64.toNat_inj.mp (Int.ofNat.inj hnumber)), rfl⟩
    | _ => cases h
  | i64 x =>
    intro w a b hw h
    cases hw with
    | i64 y =>
      obtain ⟨hnumber, rfl⟩ := Text.ofInt_append_inj (a := a) (b := b) (by
        simpa [tagged, Text.bytes_ofString, String.utf8EncodeChar] using h)
      exact ⟨congrArg (fun i => Value.i64 i.toUInt64) (Int64.toInt_inj.mp hnumber), rfl⟩
    | _ => cases h
  | @pair v w _ _ ihv ihw =>
    intro z a b hz h
    cases hz with
    | @pair x y hx hy =>
      have hhead : v.tagged.bytes ++ 44 :: (w.tagged.bytes ++ 41 :: a)
          = x.tagged.bytes ++ 44 :: (y.tagged.bytes ++ 41 :: b) := by
        simpa [tagged, Text.bytes_ofString, String.utf8EncodeChar] using h
      obtain ⟨rfl, htail⟩ := ihv hx hhead
      obtain ⟨rfl, hrest⟩ := ihw hy (List.cons.inj htail).2
      exact ⟨rfl, (List.cons.inj hrest).2⟩
    | _ => cases h
  | list hvs ih =>
    intro w a b hw h
    cases hw with
    | list hws =>
      obtain ⟨rfl, rfl⟩ := items_inj hvs ih hws (a := a) (b := b) (by
        simpa [tagged, Text.bytes_ofString, String.utf8EncodeChar] using h)
      exact ⟨rfl, rfl⟩
    | _ => cases h

end Value

/-! ## Texts of basic values -/

theorem Object.renderLeaf_eq_tagged {o : Object} {v : Value} (h : o.leaf? = some v) (hv : v.Basic) :
    o.isContainer = false ∧ o.renderLeaf .tagged = v.tagged := by
  cases o with
  | f64 | string | error => cases h; cases hv
  | pair | list | dict | function | other => cases h
  | _ => cases h; exact ⟨rfl, rfl⟩

namespace Machine

variable {m n : Machine} {r s : Ref} {v w : Value}

/-- The text of a basic value is that of what it denotes: of the tree that it unfolds to, part by part. -/
theorem render_eq_tagged (hr : m.heap.Denotes r v) (hv : v.Basic) : m.render .tagged r = v.tagged := by
  suffices htree : ∃ x, m.Unfolds r x ∧ x.render .tagged = v.tagged by
    obtain ⟨x, hx, htext⟩ := htree
    rw [render_eq_of_unfolds hx, htext]
  have hobject {r : Ref} {o : Object} (ho : m.heap.get? r = some o) : m.object r = o := by
    rw [object, ho, Option.getD_some]
  induction hr with
  | @leaf r o v ho hleaf =>
    have hrest := Object.renderLeaf_eq_tagged hleaf hv
    rw [← hobject ho] at hrest
    exact ⟨.leaf (m.object r), .leaf hrest.1, hrest.2⟩
  | pair ho _ _ iha ihb =>
    cases hv with
    | pair ha hb =>
      obtain ⟨x, hx, hxtext⟩ := iha ha
      obtain ⟨y, hy, hytext⟩ := ihb hb
      exact ⟨.pair x y, .pair (hobject ho) hx hy, by rw [Unfolded.render, Value.tagged, hxtext, hytext]⟩
  | @list r items vs ho hlength _ ih =>
    cases hv with
    | list hvs =>
      obtain ⟨f, hf⟩ := m.exists_tree
      have hitems : List.Forall₂ (fun c v => m.Unfolds c (f c) ∧ (f c).render .tagged = v.tagged) items vs := by
        refine List.forall₂_iff_zip.mpr ⟨hlength, fun hp => ?_⟩
        obtain ⟨x, hx, htext⟩ := ih _ hp (hvs _ (List.of_mem_zip hp).2)
        rw [← hf hx]
        exact ⟨hx, htext⟩
      have htexts : items.map (Unfolded.render .tagged ∘ f) = vs.map Value.tagged :=
        map_eq_of_forall₂ hitems fun _ _ h => h.2
      refine ⟨.list (items.map f), .list (hobject ho) fun c hc => ?_, ?_⟩
      · obtain ⟨v, -, hv⟩ := exists_of_forall₂_of_mem hitems hc
        exact hv.1
      · rw [Unfolded.render, Unfolded.renderItems_eq, List.map_map, htexts, Value.tagged, Value.taggedItems_eq]
  | dict => cases hv

/-- **The tagged form tells values apart.** Two basic values, of one machine or of two, have the same tagged text
exactly if they are the same tree, and that text is what `blake2` takes the digest of. -/
theorem render_tagged_eq_iff (hr : m.heap.Denotes r v) (hs : n.heap.Denotes s w) (hv : v.Basic) (hw : w.Basic) :
    (m.render .tagged r = n.render .tagged s ↔ v = w)
      ∧ ∀ name, (Act.settle name (Act.primitive .blake2 name [r])).run m
        = (Act.newU64 (Blake2b.digest (m.render .tagged r))).run m := by
  constructor
  · rw [render_eq_tagged hr hv, render_eq_tagged hs hw]
    refine ⟨fun h => ?_, congrArg _⟩
    exact (hv.readable (a := []) (b := []) hw (by rw [h])).1
  · intro name
    rw [Act.settle, StateT.run_bind]
    rfl

theorem render_tagged_eq_iff_tangled :
    tangled.heap.Denotes ⟨2, 1⟩ (.list [.pair (.i64 5) (.i64 5), .pair (.i64 5) (.i64 5)])
      ∧ tangled.heap.Denotes ⟨1, 1⟩ (.pair (.i64 5) (.i64 5))
      ∧ tangled.render .tagged ⟨2, 1⟩ ≠ tangled.render .tagged ⟨1, 1⟩ := by
  have hnumber : tangled.heap.Denotes ⟨0, 1⟩ (.i64 5) := .leaf (o := .i64 5) rfl rfl
  have hpair : tangled.heap.Denotes ⟨1, 1⟩ (.pair (.i64 5) (.i64 5)) := .pair rfl hnumber hnumber
  have hlist : tangled.heap.Denotes ⟨2, 1⟩ (.list [.pair (.i64 5) (.i64 5), .pair (.i64 5) (.i64 5)]) := by
    have hobject : tangled.heap.get? ⟨2, 1⟩ = some (.list [⟨1, 1⟩, ⟨1, 1⟩]) := rfl
    refine .list hobject rfl fun p hp => ?_
    rcases List.mem_pair.mp hp with rfl | rfl <;> exact hpair
  have hbasic : (Value.pair (.i64 5) (.i64 5)).Basic := .pair (.i64 5) (.i64 5)
  have hbasics : ∀ v ∈ [Value.pair (.i64 5) (.i64 5), .pair (.i64 5) (.i64 5)], v.Basic := by
    intro v hv
    rcases List.mem_pair.mp hv with rfl | rfl <;> exact hbasic
  have hiff := (render_tagged_eq_iff hlist hpair (.list hbasics) hbasic).1
  exact ⟨hlist, hpair, fun h => by cases hiff.mp h⟩

end Machine

end TinyScript
