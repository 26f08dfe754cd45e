import TinyScript.Proofs.Dict.Refill
import TinyScript.Proofs.Graph.Unfolding
import TinyScript.Proofs.Packed.Unpacking

/-!
# Packed trees

What bytes say, without a machine to make it on. `Unfolded.Reading.value` reads a tree, and `Unfolded.packed` is the
packed form of one. `Unfolded.Restores` says as what a tree comes back from its packed form: truth values lose their
words, and a dict lists its entries as a new dict does into which they are put. The trees that are read come back as
they are (`Unfolded.Canonical`).
-/

namespace TinyScript

open Data List

/-! ## Reading -/

/-- Actions that consume bytes and do nothing else. -/
abbrev Unfolded.Reading := StateT (List UInt8) (Except UnpackError)

namespace Unfolded.Reading

variable {α β : Type}

/-- Read an item. -/
def item (read : MessagePack.Read α) : Reading α := fun bs => (read.run bs).mapError .item

/-- Read an item that an object without parts is made from. -/
def leaf (read : MessagePack.Read α) (make : α → Object) : Reading Unfolded := do
  return .leaf (make (← item read))

/-- The same again and again. -/
def many (x : Reading α) : Nat → Reading (List α)
  | 0 => return []
  | n + 1 => do
    let a ← x
    let as ← many x n
    return a :: as

/-- A key with a value. -/
def entry (source : MessagePack.Source) (value : Reading Unfolded) : Reading (Text × Unfolded) := do
  let key ← item source.string
  let x ← value
  return (key, x)

/-- The payload of a value of a kind. -/
def payload (source : MessagePack.Source) (value : Reading Unfolded) (kind : Nat) : Reading Unfolded :=
  match Kind.ofCode kind with
  | .unit => leaf source.nothing fun _ => .unit
  | .nil => leaf source.nothing fun _ => .nil
  | .bool => leaf source.bool .ofBool
  | .u64 => leaf source.uint fun n => .u64 n.toUInt64
  | .i64 => leaf source.int .ofInt
  | .f64 => leaf source.float .f64
  | .error => leaf source.string .error
  | .string => leaf source.string .string
  | .pair => do
    let n ← item source.array
    if n ≠ 2 then throw (.pairSize n)
    let head ← value
    let tail ← value
    return .pair head tail
  | .list => do
    let n ← item source.array
    let items ← many value n
    return .list items
  | .dict => do
    let n ← item source.map
    let entries ← many (entry source value) n
    return .dict (Table.empty.putAll entries).toList
  | .function | .other _ => throw (.unknownKind kind)

/-- The next value, nested less than `fuel` deep. -/
def value (source : MessagePack.Source) : Nat → Reading Unfolded
  | 0 => throw (.item source.ended)
  | fuel + 1 => do
    let n ← item source.array
    if n ≠ 2 then throw (.size n)
    let kind ← item source.tag
    payload source (value source fuel) kind

end Unfolded.Reading

/-! ## Packed forms -/

/-- The payload of an object without parts. -/
def Object.packedBody : Object → Text
  | .bool w => MessagePack.writeBool (w ≠ 0)
  | .u64 w => MessagePack.writeUint w
  | .i64 w => MessagePack.writeInt w
  | .f64 w => MessagePack.writeFloat w
  | .error t | .string t => MessagePack.writeString t
  | _ => MessagePack.writeNil

namespace Unfolded

mutual

/-- The packed form of a tree. -/
def packed : Unfolded → Text
  | leaf o => o.kind.front ++ o.packedBody
  | pair h t => Kind.pair.front ++ (MessagePack.arrayHeader 2 ++ h.packed ++ t.packed)
  | list items => Kind.list.front ++ (MessagePack.arrayHeader items.length ++ Text.concat (packedItems items))
  | dict entries => Kind.dict.front ++ (MessagePack.mapHeader entries.length ++ Text.concat (packedEntries entries))

/-- The packed form of each item of a list. -/
def packedItems : List Unfolded → List Text
  | [] => []
  | x :: xs => x.packed :: packedItems xs

/-- The packed form of each entry of a dict. -/
def packedEntries : List (Text × Unfolded) → List Text
  | [] => []
  | (k, x) :: xs => (MessagePack.writeString k ++ x.packed) :: packedEntries xs

end

theorem packedItems_eq (xs : List Unfolded) : packedItems xs = xs.map packed :=
  eq_map_of_cons rfl (fun _ _ => rfl) xs

theorem packedEntries_eq (xs : List (Text × Unfolded)) :
    packedEntries xs = xs.map fun e => MessagePack.writeString e.1 ++ e.2.packed :=
  eq_map_of_cons rfl (fun _ _ => rfl) xs

/-- The tree that is read from the packed form of a tree. All sizes have to fit in 32 bits. -/
inductive Restores : Unfolded → Unfolded → Prop
  | leaf {o o'} : o.restored? = some o' → o.Storable → Restores (.leaf o) (.leaf o')
  | pair {x x' y y'} : Restores x x' → Restores y y' → Restores (.pair x y) (.pair x' y')
  | list {xs} {f : Unfolded → Unfolded} : xs.length < 2 ^ 32 → (∀ x ∈ xs, Restores x (f x)) →
    Restores (.list xs) (.list (xs.map f))
  | dict {es} {f : Unfolded → Unfolded} : es.length < 2 ^ 32 → (∀ e ∈ es, e.1.size < 2 ^ 32) →
    (∀ e ∈ es, Restores e.2 (f e.2)) →
    Restores (.dict es) (.dict (Table.empty.putAll (es.map fun e => (e.1, f e.2))).toList)

/-- A tree that comes back as it is. -/
def Canonical (x : Unfolded) : Prop := x.Restores x

namespace Canonical

theorem list {xs : List Unfolded} (hlength : xs.length < 2 ^ 32) (hxs : ∀ x ∈ xs, x.Canonical) :
    (Unfolded.list xs).Canonical := by
  have h := Restores.list (f := id) hlength hxs
  rwa [map_id] at h

/-- A dict comes back as it is if it lists its entries as a new one does. -/
theorem dict {es : List (Text × Unfolded)} (hlength : es.length < 2 ^ 32) (hkeys : ∀ e ∈ es, e.1.size < 2 ^ 32)
    (hes : ∀ e ∈ es, e.2.Canonical) (hrefill : (Table.empty.putAll es).toList = es) : (Unfolded.dict es).Canonical := by
  have h := Restores.dict (f := id) hlength hkeys hes
  have hid : (fun e : Text × Unfolded => (e.1, id e.2)) = id := rfl
  rwa [hid, map_id, hrefill] at h

end Canonical

end Unfolded

/-! ## Trees that are read are canonical -/

namespace Unfolded.Reading

variable {α β γ : Type} {P : α → Prop}

theorem item_run (read : MessagePack.Read α) (bs : List UInt8) :
    (item read).run bs = (read.run bs).mapError .item := rfl

theorem gives_item {read : MessagePack.Read α} (hread : Gives P read) : Gives P (item read) := by
  intro bs a rest h
  rw [item_run] at h
  cases hrun : read.run bs with
  | error e =>
    rw [hrun] at h
    cases h
  | ok p =>
    rw [hrun] at h
    cases h
    exact hread _ _ _ hrun

theorem gives_leaf {read : MessagePack.Read α} (hread : Gives P read) {make : α → Object}
    (hmake : ∀ a, P a → (make a).restored? = some (make a) ∧ (make a).Storable) :
    Gives Canonical (leaf read make) :=
  (gives_item hread).bind fun a ha => .pure (Restores.leaf (hmake a ha).1 (hmake a ha).2)

theorem gives_many {x : Reading α} (hx : Gives P x) (n : Nat) :
    Gives (fun as => as.length = n ∧ ∀ a ∈ as, P a) (many x n) := by
  induction n with
  | zero => exact .pure ⟨rfl, forall_mem_nil _⟩
  | succ n ih =>
    refine hx.bind fun a ha => ih.bind fun as has => .pure ⟨?_, List.forall_mem_cons.mpr ⟨ha, has.2⟩⟩
    rw [length_cons, has.1]

theorem gives_entry (source : MessagePack.Source) {x : Reading Unfolded} (hx : Gives Canonical x) :
    Gives (fun e => e.1.size < 2 ^ 32 ∧ e.2.Canonical) (entry source x) :=
  (gives_item source.gives_string).bind fun _ hkey => hx.bind fun _ hvalue => .pure ⟨hkey, hvalue⟩

theorem gives_payload (source : MessagePack.Source) {x : Reading Unfolded} (hx : Gives Canonical x) (kind : Nat) :
    Gives Canonical (payload source x kind) := by
  rw [payload]
  split
  · exact gives_leaf (.any _) fun _ _ => ⟨rfl, trivial⟩
  · exact gives_leaf (.any _) fun _ _ => ⟨rfl, trivial⟩
  · refine gives_leaf (.any _) fun b _ => ⟨?_, trivial⟩
    cases b <;> rfl
  · exact gives_leaf (.any _) fun _ _ => ⟨rfl, trivial⟩
  · exact gives_leaf (.any _) fun _ _ => ⟨rfl, trivial⟩
  · exact gives_leaf (.any _) fun _ _ => ⟨rfl, trivial⟩
  · exact gives_leaf source.gives_string fun _ hsize => ⟨rfl, hsize⟩
  · exact gives_leaf source.gives_string fun _ hsize => ⟨rfl, hsize⟩
  · refine (Gives.any _).bind fun n _ => ?_
    have hmembers : Gives Canonical (do let h ← x; let t ← x; return .pair h t : Reading Unfolded) :=
      hx.bind fun _ hhead => hx.bind fun _ htail => .pure (Restores.pair hhead htail)
    split
    · -- nothing is read after a failure
      exact (Gives.throw (P := fun _ => True) _).bind fun _ _ => hmembers
    · exact hmembers
  · refine (gives_item (source.gives_count .array)).bind fun n hn => (gives_many hx n).bind fun xs hxs => .pure ?_
    exact Canonical.list (hxs.1 ▸ hn) hxs.2
  · refine (gives_item (source.gives_count .map)).bind fun n hn =>
      (gives_many (gives_entry source hx) n).bind fun es hes => ?_
    obtain ⟨hlength, hes⟩ := hes
    -- what the dict lists is among what was read
    refine .pure (Canonical.dict ?_ (fun e he => ?_) (fun e he => ?_) (Table.toList_refill es))
    · exact lt_of_le_of_lt (Table.length_toList_putAll_le es) (hlength ▸ hn)
    · exact (hes e (Table.mem_of_mem_toList_putAll he)).1
    · exact (hes e (Table.mem_of_mem_toList_putAll he)).2
  · exact .throw _
  · exact .throw _

theorem gives_value (source : MessagePack.Source) (fuel : Nat) : Gives Canonical (value source fuel) := by
  induction fuel with
  | zero => exact .throw _
  | succ fuel ih =>
    refine (Gives.any _).bind fun n _ => ?_
    have hcontent : Gives Canonical (do payload source (value source fuel) (← item source.tag)) :=
      (Gives.any _).bind fun kind _ => gives_payload source ih kind
    split
    · exact (Gives.throw (P := fun _ => True) _).bind fun _ _ => hcontent
    · exact hcontent

/-! ## Trees come back from their packed forms -/

theorem run_bind_of {x : Reading α} {f : α → Reading β} {a : α} {bs bs₁ : List UInt8}
    (hx : x.run bs = .ok (a, bs₁)) : (x >>= f).run bs = (f a).run bs₁ := by
  rw [StateT.run_bind, hx]
  rfl

theorem run_item {read : MessagePack.Read α} {a : α} {bs rest : List UInt8} (hread : read.run bs = .ok (a, rest)) :
    (item read).run bs = .ok (a, rest) := by
  rw [item_run, hread]
  rfl

theorem run_leaf {read : MessagePack.Read α} {make : α → Object} {a : α} {bs rest : List UInt8}
    (hread : read.run bs = .ok (a, rest)) : (leaf read make).run bs = .ok (.leaf (make a), rest) := by
  rw [leaf, run_bind_of (run_item hread)]
  rfl

/-- Texts one after the other, from each of which something is read. -/
theorem run_many {x : Reading α} {p : γ → Text} {g : γ → α} {cs : List γ}
    (h : ∀ c ∈ cs, ∀ rest, x.run ((p c).bytes ++ rest) = .ok (g c, rest)) (rest : List UInt8) :
    (many x cs.length).run ((Text.concat (cs.map p)).bytes ++ rest) = .ok (cs.map g, rest) := by
  induction cs with
  | nil => rfl
  | cons c cs ih =>
    obtain ⟨hc, hcs⟩ := List.forall_mem_cons.mp h
    rw [map_cons, Text.concat_cons, Text.bytes_append, append_assoc, length_cons, many,
      run_bind_of (hc _), run_bind_of (ih hcs)]
    rfl

/-- A value is read if its payload is read, with less fuel. -/
theorem run_value_front {source : MessagePack.Source} {kind : Kind} (hkind : kind.code < 256) {body : Text}
    {rest : List UInt8} {x : Unfolded} {fuel : Nat} (hfuel : (kind.front ++ body).size < fuel)
    (hbody : ∀ n, body.size < n →
      (payload source (value source n) kind.code).run (body.bytes ++ rest) = .ok (x, rest)) :
    (value source fuel).run ((kind.front ++ body).bytes ++ rest) = .ok (x, rest) := by
  have hfront : kind.front.size = 1 + (MessagePack.writeUint kind.code.toUInt64).size := by
    rw [Kind.front, Text.size_append]
    rfl
  have htag : kind.code.toUInt64.toNat = kind.code := by
    rw [UInt64.toNat_ofNat']
    omega
  have hcode := source.run_tag (body.bytes ++ rest) (w := kind.code.toUInt64) (by omega)
  rw [htag] at hcode
  rw [Text.size_append] at hfuel
  obtain ⟨fuel, rfl⟩ : ∃ n, fuel = n + 1 := ⟨fuel - 1, by omega⟩
  rw [Kind.front, Text.bytes_append, Text.bytes_append, append_assoc, append_assoc, value,
    run_bind_of (run_item (source.run_count _ .array (by decide)))]
  exact (run_bind_of (run_item hcode)).trans (hbody fuel (by omega))

/-- An object without parts is read from its payload. -/
theorem run_payload_leaf (source : MessagePack.Source) (next : Reading Unfolded) {o o' : Object}
    (hrestored : o.restored? = some o') (hstorable : o.Storable) (rest : List UInt8) :
    (payload source next o.kind.code).run (o.packedBody.bytes ++ rest) = .ok (.leaf o', rest) := by
  cases o with
  | unit | nil =>
    obtain rfl := Option.some.inj hrestored
    exact run_leaf (source.run_nothing rest)
  | bool =>
    obtain rfl := Option.some.inj hrestored
    exact run_leaf (source.run_bool rest _)
  | u64 =>
    obtain rfl := Option.some.inj hrestored
    refine (run_leaf (source.run_uint rest _)).trans ?_
    simp
  | i64 =>
    obtain rfl := Option.some.inj hrestored
    refine (run_leaf (source.run_int rest _)).trans ?_
    simp [Object.ofInt]
  | f64 =>
    obtain rfl := Option.some.inj hrestored
    exact run_leaf (source.run_float rest _)
  | error | string =>
    obtain rfl := Option.some.inj hrestored
    exact run_leaf (source.run_string rest hstorable)
  | pair | list | dict | function | other => cases hrestored

/-- **A tree is read from its packed form as what it comes back as.** -/
theorem run_value (source : MessagePack.Source) {x y : Unfolded} (h : x.Restores y) {fuel : Nat}
    (hfuel : x.packed.size < fuel) (rest : List UInt8) :
    (value source fuel).run (x.packed.bytes ++ rest) = .ok (y, rest) := by
  -- by induction on the tree; what follows a part is the rest of the whole
  induction h generalizing fuel rest with
  | leaf hrestored hstorable =>
    rw [packed] at hfuel ⊢
    refine run_value_front (Object.code_lt_of_storable hstorable) hfuel fun n _ => ?_
    exact run_payload_leaf source _ hrestored hstorable rest
  | pair _ _ ihx ihy =>
    rw [packed] at hfuel ⊢
    refine run_value_front (by decide) hfuel fun n hn => ?_
    rw [Text.size_append, Text.size_append] at hn
    rw [Text.bytes_append, Text.bytes_append, append_assoc, append_assoc]
    refine (run_bind_of (run_item (source.run_count _ .array (by decide)))).trans ?_
    exact (run_bind_of (ihx (by omega) _)).trans (run_bind_of (ihy (by omega) rest))
  | @list xs f hlength _ ih =>
    rw [packed, packedItems_eq] at hfuel ⊢
    refine run_value_front (by decide) hfuel fun n hn => ?_
    rw [Text.size_append] at hn
    have hitems : ∀ x ∈ xs, ∀ rest, (value source n).run (x.packed.bytes ++ rest) = .ok (f x, rest) := by
      intro x hx rest
      have hsize := Text.size_le_concat (mem_map_of_mem (f := packed) hx)
      exact ih x hx (by omega) rest
    rw [Text.bytes_append, append_assoc]
    refine (run_bind_of (run_item (source.run_count _ .array hlength))).trans ?_
    exact run_bind_of (run_many hitems rest)
  | @dict es f hlength hkeys _ ih =>
    rw [packed, packedEntries_eq] at hfuel ⊢
    refine run_value_front (by decide) hfuel fun n hn => ?_
    rw [Text.size_append] at hn
    have hentries : ∀ e ∈ es, ∀ rest,
        (entry source (value source n)).run ((MessagePack.writeString e.1 ++ e.2.packed).bytes ++ rest)
          = .ok ((e.1, f e.2), rest) := by
      intro e he rest
      have hsize := Text.size_le_concat
        (mem_map_of_mem (f := fun e => MessagePack.writeString e.1 ++ e.2.packed) he)
      rw [Text.size_append] at hsize
      rw [Text.bytes_append, append_assoc, entry, run_bind_of (run_item (source.run_string _ (hkeys e he))),
        run_bind_of (ih e he (by omega) rest)]
      rfl
    rw [Text.bytes_append, append_assoc]
    refine (run_bind_of (run_item (source.run_count _ .map hlength))).trans ?_
    exact run_bind_of (run_many hentries rest)

end Unfolded.Reading

end TinyScript
