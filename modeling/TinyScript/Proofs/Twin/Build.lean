import TinyScript.Machine.Packed
import TinyScript.Machine.Convert
import TinyScript.Proofs.Twin.Walk

/-!
# Making values on twins

Values are made of plain data and of packed bytes with everything pinned that was made before. So a
collection on either side in the midst of it frees nothing that is still needed, and twins make paired
values. Where the data or the bytes are bad, both fail for the same reason, with some pins left that are
dropped at the end.
-/

namespace TinyScript

open Data (Datum)

/-- Twins in a scope, under whatever pairing. -/
def Alike (Γ : Scope) (m n : Machine) : Prop := ∃ ρ, Twins Γ ρ m n

/-- Twins in a scope with further pins, under whatever pairing. -/
def Grown (Γ : Scope) (m n : Machine) : Prop := ∃ Γ' ρ, Γ.Below Γ' ∧ Twins Γ' ρ m n

namespace Act

variable {Γ Γ' : Scope} {ρ : Pairing} {m n : Machine}

/-- What holds from a larger scope on holds from the smaller one. -/
theorem Tries.widen {ε α β : Type} {V : Scope → Pairing → α → β → Prop} {x : ExceptT ε Act α}
    {y : ExceptT ε Act β} (hbelow : Γ.Below Γ') (hx : Tries (Grown Γ') (Grows Γ' V) x m y n) :
    Tries (Grown Γ) (Grows Γ V) x m y n := by
  refine hx.mono ?_ ?_
  · rintro m' n' ⟨Γ'', σ, hbelow', h⟩
    exact ⟨Γ'', σ, hbelow.trans hbelow', h⟩
  · rintro a m' b n' ⟨Γ'', σ, hbelow', h, hab⟩
    exact ⟨Γ'', σ, hbelow.trans hbelow', h, hab⟩

theorem grows_of_keeps {α β : Type} {V : Pairing → α → β → Prop} {a : α} {b : β} (h : Keeps Γ V a m b n) :
    Grows Γ (fun _ => V) a m b n := by
  obtain ⟨σ, h, hab⟩ := h
  exact ⟨Γ, σ, .refl Γ, h, hab⟩

/-- The pins of an action that can fail are dropped at its end. -/
theorem meets_dropping {ε α β : Type} {V : Pairing → α → β → Prop} {x : ExceptT ε Act α} {y : ExceptT ε Act β}
    (h : Twins Γ ρ m n) (hx : Tries (Grown Γ) (Grows Γ fun _ => V) x m y n) :
    Meets (Ends (Alike Γ) (Keeps Γ V)) (do let mark ← pinMark; let a ← x.run; unpinTo mark; return a) m
      (do let mark ← pinMark; let b ← y.run; unpinTo mark; return b) n := by
  refine Meets.mark h ?_
  refine Meets.bind hx ?_
  rintro (e | a) m₁ (e' | b) n₁ hend
  · obtain ⟨he, Γ', σ, hbelow, h₁⟩ := hend
    exact (meets_unpinTo h₁ hbelow h.closed).stays fun _ _ _ h₂ => ⟨he, σ, h₂⟩
  · exact hend.elim
  · exact hend.elim
  · obtain ⟨Γ', σ, hbelow, h₁, hab⟩ := hend
    exact (meets_unpinTo h₁ hbelow h.closed).stays fun _ _ _ h₂ => ⟨σ, h₂, hab⟩

/-! ## Plain data -/

theorem tries_noteType {E : Machine → Machine → Prop} (h : Twins Γ ρ m n) (depth : Nat) (d : Datum) :
    Tries E (Stays Γ ρ) (ofDatumAt.noteType depth d) m (ofDatumAt.noteType depth d) n :=
  Tries.last (meets_note h _)

mutual

/-- What is made of plain data; a dict stays pinned. -/
theorem tries_ofDatumAt (depth : Nat) (d : Datum) {Γ : Scope} {ρ : Pairing} {m n : Machine}
    (h : Twins Γ ρ m n) :
    Tries (Grown Γ) (Grows Γ fun _ σ => σ) (ofDatumAt depth d) m (ofDatumAt depth d) n := by
  have hleaf {o : Object} (ho : o.isLeaf) :
      Tries (Grown Γ) (Grows Γ fun _ σ => σ) (do ofDatumAt.noteType depth d; alloc o) m
        (do ofDatumAt.noteType depth d; alloc o) n := by
    refine (tries_noteType h depth d).bind ?_
    rintro _ m' _ n' ⟨-, h⟩
    exact Tries.last ((meets_leaf h ho).mono fun _ _ _ _ => grows_of_keeps)
  match d with
  | .list items =>
    rw [ofDatumAt]
    refine (tries_noteType h depth _).bind ?_
    rintro _ m₁ _ n₁ ⟨-, h₁⟩
    refine Tries.mark h₁ ?_
    refine (tries_ofItemsAt (depth + 1) items h₁).bind ?_
    rintro rs m₂ ss n₂ ⟨Γ', σ, hbelow, h₂, hrs⟩
    refine Tries.lift (meets_newList h₂ (hrs.imp fun _ _ => h₂.holds)) ?_
    rintro r m₃ s n₃ ⟨τ, h₃, hr⟩
    -- the items are parts of the list now and need no pins
    refine Tries.lift (meets_unpinTo h₃ hbelow h.closed) ?_
    rintro _ m₄ _ n₄ ⟨-, h₄⟩
    exact .pure ⟨Γ, τ, .refl Γ, h₄, hr⟩
  | .map entries =>
    rw [ofDatumAt]
    refine (tries_noteType h depth _).bind ?_
    rintro _ m₁ _ n₁ ⟨-, h₁⟩
    refine Tries.lift (meets_newDict h₁) ?_
    rintro r m₂ s n₂ ⟨σ, h₂, hr⟩
    refine Tries.lift (meets_pin h₂ hr) ?_
    rintro _ m₃ _ n₃ ⟨e, rfl, rfl, -, -, h₃⟩
    refine Tries.widen (Scope.Below.push Γ e) ?_
    refine (tries_ofEntriesAt (depth + 1) entries h₃ (Scope.holds_push Γ e)).bind ?_
    rintro _ m₄ _ n₄ ⟨Γ', τ, hbelow, h₄, -⟩
    exact .pure ⟨Γ', τ, hbelow, h₄, h₄.holds (hbelow.holds (Scope.holds_push Γ e))⟩
  | .null =>
    rw [ofDatumAt]
    refine (tries_noteType h depth _).bind ?_
    rintro _ m₁ _ n₁ ⟨-, h₁⟩
    exact Tries.get (.pure ⟨Γ, ρ, .refl Γ, h₁, h₁.nil⟩)
  | .bool b => rw [ofDatumAt]; exact hleaf (o := .ofBool b) rfl
  | .int i => rw [ofDatumAt]; exact hleaf (o := .i64 _) rfl
  | .uint w => rw [ofDatumAt]; exact hleaf (o := .u64 _) rfl
  | .float w => rw [ofDatumAt]; exact hleaf (o := .f64 _) rfl
  | .text t => rw [ofDatumAt]; exact hleaf (o := .string t) rfl
  | .foreign type =>
    rw [ofDatumAt.eq_def]
    refine (tries_noteType h depth _).bind ?_
    rintro _ m₁ _ n₁ ⟨-, h₁⟩
    exact .throw rfl ⟨Γ, ρ, .refl Γ, h₁⟩

theorem tries_ofItemsAt (depth : Nat) (ds : List Datum) {Γ : Scope} {ρ : Pairing} {m n : Machine}
    (h : Twins Γ ρ m n) :
    Tries (Grown Γ) (Grows Γ fun Γ' _ => List.Forall₂ Γ'.Holds) (ofItemsAt depth ds) m
      (ofItemsAt depth ds) n := by
  match ds with
  | [] =>
    rw [ofItemsAt]
    exact .pure ⟨Γ, ρ, .refl Γ, h, .nil⟩
  | d :: ds =>
    rw [ofItemsAt]
    refine (tries_ofDatumAt depth d h).bind ?_
    rintro r m₁ s n₁ ⟨Γ₁, σ, hbelow, h₁, hr⟩
    refine Tries.lift (meets_pin h₁ hr) ?_
    rintro _ m₂ _ n₂ ⟨e, rfl, rfl, -, -, h₂⟩
    refine Tries.widen (hbelow.trans (Scope.Below.push Γ₁ e)) ?_
    refine (tries_ofItemsAt depth ds h₂).bind ?_
    rintro rs m₃ ss n₃ ⟨Γ₃, τ, hbelow', h₃, hrs⟩
    exact .pure ⟨Γ₃, τ, hbelow', h₃, .cons (hbelow'.holds (Scope.holds_push Γ₁ e)) hrs⟩

theorem tries_ofEntriesAt (depth : Nat) (ds : List (Text × Datum)) {Γ : Scope} {ρ : Pairing} {m n : Machine}
    (h : Twins Γ ρ m n) {d e : Ref} (hd : Γ.Holds d e) :
    Tries (Grown Γ) (Grows Γ fun _ _ _ _ => True) (ofEntriesAt depth d ds) m (ofEntriesAt depth e ds) n := by
  match ds with
  | [] =>
    rw [ofEntriesAt, ofEntriesAt]
    exact .pure ⟨Γ, ρ, .refl Γ, h, trivial⟩
  | (key, x) :: ds =>
    rw [ofEntriesAt, ofEntriesAt]
    refine (tries_ofDatumAt depth x h).bind ?_
    rintro r m₁ s n₁ ⟨Γ₁, σ, hbelow, h₁, hr⟩
    refine Tries.lift (meets_dictPut h₁ (h₁.holds (hbelow.holds hd)) key hr) ?_
    rintro _ m₂ _ n₂ ⟨-, h₂⟩
    exact Tries.widen hbelow (tries_ofEntriesAt depth ds h₂ (hbelow.holds hd))

end

theorem meets_ofDatum (h : Twins Γ ρ m n) (d : Datum) :
    Meets (Ends (Alike Γ) (Keeps Γ fun σ => σ)) (ofDatum d) m (ofDatum d) n :=
  meets_dropping h (tries_ofDatumAt 0 d h)

/-! ## Packed values -/

/-- Two actions that consume the same bytes end as a postcondition says, with the same bytes left, or fail
for the same reason. -/
def Reads {α β : Type} (E : Machine → Machine → Prop) (Q : Post α β) (x : Unpack α) (m : Machine)
    (y : Unpack β) (n : Machine) : Prop :=
  ∀ bs, Tries E (fun a m' b n' => a.2 = b.2 ∧ Q a.1 m' b.1 n') (x.run bs) m (y.run bs) n

namespace Reads

variable {α β γ δ : Type} {E : Machine → Machine → Prop} {Q : Post γ δ} {R : Post α β} {x : Unpack α}
  {y : Unpack β} {f : α → Unpack γ} {g : β → Unpack δ}

theorem bind (hx : Reads E R x m y n) (hf : ∀ a m' b n', R a m' b n' → Reads E Q (f a) m' (g b) n') :
    Reads E Q (x >>= f) m (y >>= g) n := by
  intro bs
  rw [StateT.run_bind, StateT.run_bind]
  refine (hx bs).bind ?_
  rintro ⟨a, bs'⟩ m' ⟨b, _⟩ n' ⟨rfl, hab⟩
  exact hf a m' b n' hab bs'

theorem pure {a : α} {b : β} (h : R a m b n) : Reads E R (Pure.pure a) m (Pure.pure b) n :=
  fun _ => ⟨rfl, h⟩

theorem throw {e e' : UnpackError} (he : e = e') (h : E m n) :
    Reads E R (MonadExcept.throw e) m (MonadExcept.throw e') n :=
  fun _ => ⟨he, h⟩

/-- Nothing follows a failure. -/
theorem throw_bind {e : UnpackError} (h : E m n) :
    Reads E Q (MonadExcept.throw e >>= f) m (MonadExcept.throw e >>= g) n :=
  bind (R := fun _ _ _ _ => False) (throw rfl h) fun _ _ _ _ => False.elim

theorem lift {x : Act α} {y : Act β} (hx : Meets R x m y n) : Reads E R (liftM x) m (liftM y) n :=
  fun _ => ⟨rfl, hx⟩

/-- What holds from a larger scope on holds from the smaller one. -/
theorem widen {V : Scope → Pairing → α → β → Prop} (hbelow : Γ.Below Γ')
    (hx : Reads (Grown Γ') (Grows Γ' V) x m y n) : Reads (Grown Γ) (Grows Γ V) x m y n := by
  intro bs
  refine (hx bs).mono ?_ ?_
  · rintro m' n' ⟨Γ'', σ, hbelow', h⟩
    exact ⟨Γ'', σ, hbelow.trans hbelow', h⟩
  · rintro a m' b n' ⟨hbs, Γ'', σ, hbelow', h, hab⟩
    exact ⟨hbs, Γ'', σ, hbelow.trans hbelow', h, hab⟩

end Reads

theorem reads_item {α : Type} (h : Twins Γ ρ m n) (read : Data.MessagePack.Read α) :
    Reads (Grown Γ) (Stays Γ ρ) (Unpack.item read) m (Unpack.item read) n := by
  intro bs
  simp only [Unpack.item, StateT.run_bind, StateT.run_get, pure_bind]
  rcases read.run bs with e | ⟨a, bs'⟩
  · exact .throw rfl ⟨Γ, ρ, .refl Γ, h⟩
  · exact .pure ⟨rfl, rfl, h⟩

/-- An object is allocated even if the item cannot be read. -/
theorem reads_scalar {α : Type} [Inhabited α] (h : Twins Γ ρ m n) (read : Data.MessagePack.Read α)
    {make : α → Object} (hmake : ∀ a, (make a).isLeaf) :
    Reads (Grown Γ) (Grows Γ fun _ σ => σ) (Unpack.scalar read make) m (Unpack.scalar read make) n := by
  intro bs
  simp only [Unpack.scalar, StateT.run_bind, StateT.run_get, pure_bind]
  rcases read.run bs with e | ⟨a, bs'⟩
  · refine Reads.bind (Reads.lift (meets_leaf h (hmake default))) ?_ bs
    rintro r m' s n' ⟨σ, h', -⟩
    exact .throw rfl ⟨Γ, σ, .refl Γ, h'⟩
  · have hleaf := (meets_leaf h (hmake a)).mono fun _ _ _ _ => grows_of_keeps
    exact ⟨rfl, hleaf⟩

section Nested

variable {value : Unpack Ref}
  (hvalue : ∀ {Γ ρ m n}, Twins Γ ρ m n → Reads (Grown Γ) (Grows Γ fun Γ' _ => Γ'.Holds) value m value n)

include hvalue

/-- Values are pinned as they are read. -/
theorem reads_values (k : Nat) (h : Twins Γ ρ m n) {acc acc' : List Ref}
    (hacc : List.Forall₂ Γ.Holds acc acc') :
    Reads (Grown Γ) (Grows Γ fun Γ' _ => List.Forall₂ Γ'.Holds) (Unpack.values value k acc) m
      (Unpack.values value k acc') n := by
  induction k generalizing Γ ρ m n acc acc' with
  | zero => exact .pure ⟨Γ, ρ, .refl Γ, h, List.rel_reverse hacc⟩
  | succ k ih =>
    refine (hvalue h).bind ?_
    rintro r m₁ s n₁ ⟨Γ₁, σ, hbelow, h₁, hr⟩
    exact Reads.widen hbelow (ih h₁ (.cons hr (hacc.imp fun _ _ => hbelow.holds)))

theorem reads_entries (source : Data.MessagePack.Source) (k : Nat) (h : Twins Γ ρ m n) {d e : Ref}
    (hd : Γ.Holds d e) :
    Reads (Grown Γ) (Grows Γ fun _ _ _ _ => True) (Unpack.entries source value d k) m
      (Unpack.entries source value e k) n := by
  induction k generalizing Γ ρ m n with
  | zero => exact .pure ⟨Γ, ρ, .refl Γ, h, trivial⟩
  | succ k ih =>
    refine (reads_item h _).bind ?_
    rintro key m₁ _ n₁ ⟨rfl, h₁⟩
    refine (hvalue h₁).bind ?_
    rintro r m₂ s n₂ ⟨Γ₂, σ, hbelow, h₂, hr⟩
    refine Reads.bind (.lift (meets_dictPut h₂ (h₂.holds (hbelow.holds hd)) key (h₂.holds hr))) ?_
    rintro _ m₃ _ n₃ ⟨-, h₃⟩
    exact Reads.widen hbelow (ih h₃ (hbelow.holds hd))

/-- Both read the same kind, and build agreeing objects. -/
theorem reads_payload (source : Data.MessagePack.Source) (kind : Nat) (h : Twins Γ ρ m n) :
    Reads (Grown Γ) (Grows Γ fun _ σ => σ) (Unpack.payload source value kind) m
      (Unpack.payload source value kind) n := by
  rw [Unpack.payload]
  cases Kind.ofCode kind with
  | unit => exact reads_scalar h _ fun _ => rfl
  | nil =>
    refine (reads_item h _).bind ?_
    rintro _ m₁ _ n₁ ⟨-, h₁⟩
    exact fun bs => ⟨rfl, Γ, ρ, .refl Γ, h₁, h₁.nil⟩
  | bool => exact reads_scalar h _ fun _ => rfl
  | u64 => exact reads_scalar h _ fun _ => rfl
  | i64 => exact reads_scalar h _ fun _ => rfl
  | f64 => exact reads_scalar h _ fun _ => rfl
  | error => exact reads_scalar h _ fun _ => rfl
  | string => exact reads_scalar h _ fun _ => rfl
  | pair =>
    refine (reads_item h _).bind ?_
    rintro k m₁ _ n₁ ⟨rfl, h₁⟩
    dsimp only
    split
    · exact Reads.throw_bind ⟨Γ, ρ, .refl Γ, h₁⟩
    · refine (hvalue h₁).bind ?_
      rintro r m₂ s n₂ ⟨Γ₂, σ, hbelow, h₂, hr⟩
      refine Reads.widen hbelow ((hvalue h₂).bind ?_)
      rintro r' m₃ s' n₃ ⟨Γ₃, τ, hbelow', h₃, hr'⟩
      exact Reads.widen hbelow' (.lift ((meets_newPair h₃ (h₃.holds (hbelow'.holds hr)) (h₃.holds hr')).mono
        fun _ _ _ _ => grows_of_keeps))
  | list =>
    refine (reads_item h _).bind ?_
    rintro k m₁ _ n₁ ⟨rfl, h₁⟩
    refine (reads_values hvalue k h₁ .nil).bind ?_
    rintro rs m₂ ss n₂ ⟨Γ₂, σ, hbelow, h₂, hrs⟩
    exact Reads.widen hbelow (.lift ((meets_newList h₂ (hrs.imp fun _ _ => h₂.holds)).mono
      fun _ _ _ _ => grows_of_keeps))
  | dict =>
    refine (reads_item h _).bind ?_
    rintro k m₁ _ n₁ ⟨rfl, h₁⟩
    refine Reads.bind (.lift (meets_newDict h₁)) ?_
    rintro r m₂ s n₂ ⟨σ, h₂, hr⟩
    refine Reads.bind (.lift (meets_pin h₂ hr)) ?_
    rintro _ m₃ _ n₃ ⟨e, rfl, rfl, -, -, h₃⟩
    refine Reads.widen (Scope.Below.push Γ e) ?_
    refine (reads_entries hvalue source k h₃ (Scope.holds_push Γ e)).bind ?_
    rintro _ m₄ _ n₄ ⟨Γ₄, τ, hbelow, h₄, -⟩
    exact .pure ⟨Γ₄, τ, hbelow, h₄, h₄.holds (hbelow.holds (Scope.holds_push Γ e))⟩
  | function => exact .throw rfl ⟨Γ, ρ, .refl Γ, h⟩
  | other k => exact .throw rfl ⟨Γ, ρ, .refl Γ, h⟩

end Nested

/-- The next packed value, pinned like everything inside it. -/
theorem reads_value (source : Data.MessagePack.Source) (fuel : Nat) (h : Twins Γ ρ m n) :
    Reads (Grown Γ) (Grows Γ fun Γ' _ => Γ'.Holds) (Unpack.value source fuel) m (Unpack.value source fuel) n := by
  induction fuel generalizing Γ ρ m n with
  | zero => exact .throw rfl ⟨Γ, ρ, .refl Γ, h⟩
  | succ fuel ih =>
    rw [Unpack.value]
    refine (reads_item h _).bind ?_
    rintro k m₁ _ n₁ ⟨rfl, h₁⟩
    dsimp only
    split
    · exact Reads.throw_bind ⟨Γ, ρ, .refl Γ, h₁⟩
    · refine (reads_item h₁ _).bind ?_
      rintro kind m₂ _ n₂ ⟨rfl, h₂⟩
      refine (reads_payload ih source kind h₂).bind ?_
      rintro r m₃ s n₃ ⟨Γ₃, σ, hbelow, h₃, hr⟩
      refine Reads.bind (.lift (meets_pin h₃ hr)) ?_
      rintro _ m₄ _ n₄ ⟨e, rfl, rfl, -, -, h₄⟩
      exact .pure ⟨Γ₃.push e, σ, hbelow.trans (Scope.Below.push Γ₃ e), h₄, Scope.holds_push Γ₃ e⟩

theorem meets_unpackFrom (h : Twins Γ ρ m n) (source : Data.MessagePack.Source) (t : Text) :
    Meets (Ends (Alike Γ) (Keeps Γ fun σ a b => σ a.1 b.1 ∧ a.2 = b.2)) (unpackFrom source t) m
      (unpackFrom source t) n := by
  refine meets_dropping h (((reads_value source _ h) t.bytes).mono (fun _ _ => id) ?_)
  rintro a m' b n' ⟨hbs, Γ', σ, hbelow, h', hr⟩
  exact ⟨Γ', σ, hbelow, h', h'.holds hr, hbs⟩

theorem meets_unpack (h : Twins Γ ρ m n) (t : Text) :
    Meets (Ends (Alike Γ) (Keeps Γ fun σ => σ)) (unpack t) m (unpack t) n := by
  refine Meets.bind (meets_unpackFrom h .memory t) ?_
  rintro (e | ⟨r, bs⟩) m' (e' | ⟨s, bs'⟩) n' hend
  · exact hend
  · exact hend.elim
  · exact hend.elim
  · obtain ⟨σ, h', hr, hbs⟩ := hend
    obtain rfl : bs = bs' := hbs
    cases bs with
    | nil => exact ⟨σ, h', hr⟩
    | cons b bs => exact ⟨rfl, σ, h'⟩

/-! ## Files -/

theorem meets_writeFile (h : Twins Γ ρ m n) (path data : Text) :
    Meets (Stays Γ ρ) (writeFile path data) m (writeFile path data) n := by
  refine meets_of_run (fun s => (s.files.write path data).map fun _ => ())
    (fun s => ((s.files.write path data).toOption.map fun files => { s with files := files }).getD s)
    (fun k => ?_) h
  rw [show k.surroundings.files = k.files from rfl]
  cases hwrite : k.files.write path data <;> simp [writeFile, hwrite] <;> rfl

/-- Paired values have the same packed form, so the same file is written. -/
theorem meets_save (h : Twins Γ ρ m n) {r s : Ref} (hr : ρ r s) (path : Text) :
    Meets (Stays Γ ρ) (save r path) m (save s path) n := by
  refine (meets_isFile h path).stays fun present m₁ n₁ h₁ => ?_
  cases present with
  | true => exact ⟨rfl, h₁⟩
  | false =>
    refine (meets_writeFile h₁ path _).stays fun made m₂ n₂ h₂ => ?_
    cases made with
    | error e => exact ⟨rfl, h₂⟩
    | ok _ =>
      refine Meets.get ?_
      have hfiles : m₂.files = n₂.files := congrArg Machine.Surroundings.files h₂.surroundings
      rw [h₂.packStream hr, hfiles]
      generalize n₂.packStream s = packed
      dsimp only
      cases packed.1 with
      | error e => exact (meets_writeFile h₂ path _).stays fun _ m₃ n₃ h₃ => ⟨rfl, h₃⟩
      | ok _ =>
        refine (meets_writeFile h₂ path _).stays fun written m₃ n₃ h₃ => ?_
        cases written with
        | error e => exact ⟨rfl, h₃⟩
        | ok _ => exact ⟨rfl, h₃⟩

theorem meets_load (h : Twins Γ ρ m n) (path : Text) :
    Meets (Ends (Alike Γ) (Keeps Γ fun σ => σ)) (load path) m (load path) n := by
  refine (meets_isFile h path).stays fun present m₁ n₁ h₁ => ?_
  cases present with
  | false => exact ⟨rfl, ρ, h₁⟩
  | true =>
    have hfiles : m₁.files = n₁.files := congrArg Machine.Surroundings.files h₁.surroundings
    refine Meets.get ?_
    rw [hfiles]
    cases n₁.files.read path with
    | error e => exact ⟨rfl, ρ, h₁⟩
    | ok data =>
      refine Meets.bind (meets_unpackFrom h₁ .file data) ?_
      rintro (e | ⟨r, bs⟩) m₂ (e' | ⟨s, bs'⟩) n₂ hend
      · obtain ⟨rfl, halike⟩ := hend
        exact ⟨rfl, halike⟩
      · exact hend.elim
      · exact hend.elim
      · obtain ⟨σ, h₂, hr, -⟩ := hend
        exact ⟨σ, h₂, hr⟩

end Act

end TinyScript
