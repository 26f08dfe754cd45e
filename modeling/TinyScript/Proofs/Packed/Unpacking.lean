import TinyScript.Machine.Packed
import TinyScript.Proofs.Data.Reading
import TinyScript.Proofs.Twin.Logic

/-!
# Actions that read

What an action that reads ends with: `Yields` and `Fails` say how it ends on a machine and on bytes. Two readers of
values that differ in the reader of the parts only are compared part by part. `Act.Unpack.Rules` says what a relation
has to be closed under for this, and `Act.Unpack.Rules.payload` makes the comparison, for all kinds of payload at once.
-/

namespace TinyScript

open Data

theorem Text.size_append (a b : Text) : (a ++ b).size = a.size + b.size := List.length_append

theorem Text.concat_cons (t : Text) (ts : List Text) : Text.concat (t :: ts) = t ++ Text.concat ts := rfl

theorem Text.size_le_concat {t : Text} {ts : List Text} (h : t ∈ ts) : t.size ≤ (Text.concat ts).size := by
  induction ts with
  | nil => cases h
  | cons u ts ih =>
    rw [Text.concat_cons, Text.size_append]
    rcases List.mem_cons.mp h with rfl | h
    · omega
    · have := ih h
      omega

/-- What the packed form of an object of a kind begins with. -/
def Kind.front (k : Kind) : Text := MessagePack.arrayHeader 2 ++ MessagePack.writeUint k.code.toUInt64

namespace Act.Unpack

variable {α β : Type} {bs bs₁ rest : List UInt8} {m m₁ m' : Machine} {x : Unpack α} {f : α → Unpack β} {a : α} {b : β}
  {e : UnpackError} {read : MessagePack.Read α} {make : α → Object}

/-! ## How actions end -/

/-- Run on a machine and on bytes, an action goes well. It ends with a result, the bytes left over and
another machine. -/
def Yields (x : Unpack α) (bs : List UInt8) (m : Machine) (a : α) (rest : List UInt8) (m' : Machine) : Prop :=
  ((x.run bs).run).run m = (.ok (a, rest), m')

/-- Run on a machine and on bytes, an action fails. It ends with an error and another machine. -/
def Fails (x : Unpack α) (bs : List UInt8) (m : Machine) (e : UnpackError) (m' : Machine) : Prop :=
  ((x.run bs).run).run m = (.error e, m')

/-- Where the first action goes well, the second goes on from there. -/
theorem Yields.run_bind (hx : Yields x bs m a bs₁ m₁) :
    (((x >>= f).run bs).run).run m = (((f a).run bs₁).run).run m₁ := by
  rw [StateT.run_bind, ExceptT.run_bind, StateT.run_bind, hx]
  rfl

/-- Two parts that go well. -/
theorem Yields.bind (hx : Yields x bs m a bs₁ m₁) (hf : Yields (f a) bs₁ m₁ b rest m') :
    Yields (x >>= f) bs m b rest m' :=
  hx.run_bind.trans hf

/-- Where the first action fails, there is no second. -/
theorem Fails.bind (hx : Fails x bs m e m') : Fails (x >>= f) bs m e m' := by
  rw [Fails, StateT.run_bind, ExceptT.run_bind, StateT.run_bind, hx]
  rfl

/-- If the whole goes well, both parts do. -/
theorem Yields.of_bind (h : Yields (x >>= f) bs m b rest m') :
    ∃ a bs₁ m₁, Yields x bs m a bs₁ m₁ ∧ Yields (f a) bs₁ m₁ b rest m' := by
  rcases hx : ((x.run bs).run).run m with ⟨e | ⟨a, bs₁⟩, m₁⟩
  · cases (Fails.bind hx).symm.trans h
  · exact ⟨a, bs₁, m₁, hx, (Yields.run_bind hx).symm.trans h⟩

/-- If the whole fails, one of the parts does. -/
theorem Fails.of_bind (h : Fails (x >>= f) bs m e m') :
    Fails x bs m e m' ∨ ∃ a bs₁ m₁, Yields x bs m a bs₁ m₁ ∧ Fails (f a) bs₁ m₁ e m' := by
  rcases hx : ((x.run bs).run).run m with ⟨e' | ⟨a, bs₁⟩, m₁⟩
  · cases (Fails.bind (f := f) hx).symm.trans h
    exact Or.inl hx
  · exact Or.inr ⟨a, bs₁, m₁, hx, (Yields.run_bind hx).symm.trans h⟩

/-- An action that reads nothing. -/
theorem yields_act {x : Act α} (hx : x.run m = (a, m')) : Yields (liftM x) bs m a bs m' := by
  have hrun : (((liftM x : Unpack α).run bs).run).run m = (.ok ((x.run m).1, bs), (x.run m).2) := rfl
  rw [Yields, hrun, hx]

theorem run_get {f : List UInt8 → Unpack α} :
    (((get >>= f : Unpack α).run bs).run).run m = (((f bs).run bs).run).run m := rfl

/-- Reading an item leaves the machine as it is. -/
theorem yields_item (hread : read.run bs = .ok (a, rest)) : Yields (item read) bs m a rest m := by
  rw [Yields, item, run_get, hread]
  rfl

theorem fails_item {e : MessagePack.ReadError} (hread : read.run bs = .error e) :
    Fails (item read) bs m (.item e) m := by
  rw [Fails, item, run_get, hread]
  rfl

theorem yields_scalar [Inhabited α] (hread : read.run bs = .ok (a, rest)) :
    Yields (scalar read make) bs m ((alloc (make a)).run m).1 rest ((alloc (make a)).run m).2 := by
  rw [Yields, scalar, run_get, hread]
  rfl

/-- An object is made even if the item cannot be read. -/
theorem fails_scalar [Inhabited α] {e : MessagePack.ReadError} (hread : read.run bs = .error e) :
    Fails (scalar read make) bs m (.item e) ((alloc (make default)).run m).2 := by
  rw [Fails, scalar, run_get, hread]
  rfl

theorem read_of_yields_item (h : Yields (item read) bs m a rest m') : read.run bs = .ok (a, rest) ∧ m' = m := by
  cases hrun : read.run bs with
  | error e => cases (fails_item hrun).symm.trans h
  | ok p =>
    cases (yields_item hrun).symm.trans h
    exact ⟨rfl, rfl⟩

theorem read_of_yields_scalar [Inhabited α] {r : Ref} (h : Yields (scalar read make) bs m r rest m') :
    ∃ a, read.run bs = .ok (a, rest) ∧ (alloc (make a)).run m = (r, m') := by
  cases hrun : read.run bs with
  | error e => cases (fails_scalar hrun).symm.trans h
  | ok p =>
    cases (yields_scalar hrun).symm.trans h
    exact ⟨p.1, rfl, rfl⟩

/-! ## Two readers side by side -/

/-- What a relation between actions that read is closed under. -/
structure Rules (R : {α : Type} → Unpack α → Unpack α → Prop) : Prop where
  pure {α : Type} (a : α) : R (Pure.pure a) (Pure.pure a)
  throw {α : Type} (e : UnpackError) : R (throw e : Unpack α) (throw e)
  act {α : Type} (x : Act α) : R (liftM x : Unpack α) (liftM x)
  item {α : Type} {read : MessagePack.Read α} : read.Takes 1 → R (item read) (item read)
  scalar {α : Type} [Inhabited α] {read : MessagePack.Read α} (make : α → Object) :
    read.Takes 1 → R (scalar read make) (scalar read make)
  bind {α β : Type} {x y : Unpack α} {f g : α → Unpack β} : R x y → (∀ a, R (f a) (g a)) → R (x >>= f) (y >>= g)

namespace Rules

variable {R : {α : Type} → Unpack α → Unpack α → Prop} {x y : Unpack Ref}

theorem values (hR : Rules R) (hxy : R x y) (n : Nat) (acc : List Ref) : R (values x n acc) (values y n acc) := by
  induction n generalizing acc with
  | zero => exact hR.pure _
  | succ n ih => exact hR.bind hxy fun r => ih (r :: acc)

theorem entries (hR : Rules R) (source : MessagePack.Source) (hxy : R x y) (dict : Ref) (n : Nat) :
    R (entries source x dict n) (entries source y dict n) := by
  induction n with
  | zero => exact hR.pure _
  | succ n ih =>
    exact hR.bind (hR.item source.takes_string) fun key => hR.bind hxy fun r => hR.bind (hR.act _) fun _ => ih

/-- The payload of every kind, for relations that go through sequences. -/
theorem payload (hR : Rules R) (source : MessagePack.Source) (hxy : R x y) (kind : Nat) :
    R (payload source x kind) (payload source y kind) := by
  rw [Unpack.payload, Unpack.payload]
  split
  · exact hR.scalar _ source.takes_nothing
  · exact hR.bind (hR.item source.takes_nothing) fun _ => hR.bind (hR.act _) fun m => hR.pure m.nil
  · exact hR.scalar _ source.takes_bool
  · exact hR.scalar _ source.takes_uint
  · exact hR.scalar _ source.takes_int
  · exact hR.scalar _ source.takes_float
  · exact hR.scalar _ source.takes_string
  · exact hR.scalar _ source.takes_string
  · refine hR.bind (hR.item (source.takes_count .array)) fun n => ?_
    have hmembers := hR.bind hxy fun head => hR.bind hxy fun tail => hR.act (newPair head tail)
    split
    · -- a pair of another length fails before its members are read
      exact hR.bind (hR.throw _) fun _ => hmembers
    · exact hmembers
  · exact hR.bind (hR.item (source.takes_count .array)) fun n => hR.bind (hR.values hxy n []) fun _ => hR.act _
  · refine hR.bind (hR.item (source.takes_count .map)) fun n =>
      hR.bind (hR.act _) fun d => hR.bind (hR.act _) fun _ => ?_
    exact hR.bind (hR.entries source hxy d n) fun _ => hR.pure d
  · exact hR.throw _
  · exact hR.throw _

end Rules

end Act.Unpack

theorem Act.unpackFrom_run {source : MessagePack.Source} {t : Text} {a : Except UnpackError (Ref × List UInt8)}
    {m m' : Machine} (h : (((Unpack.value source (t.size + 1)).run t.bytes).run).run m = (a, m')) :
    (unpackFrom source t).run m = (a, { m' with pins := m'.pins.shrink m.pins.size }) := by
  have hmark : pinMark.run m = (m.pins.size, m) := rfl
  rw [unpackFrom, run_bind_of hmark, run_bind_of h]
  rfl

end TinyScript
