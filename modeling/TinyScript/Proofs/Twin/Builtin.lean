import TinyScript.Machine.Builtin
import TinyScript.Proofs.Twin.Build

/-!
# Native functions on twins

A primitive applied to paired arguments ends alike on both sides: with paired results, with no value on
both, or with the same fault. Everything it prints, reads and writes is the same.
-/

namespace TinyScript

/-- Paired references, or no reference on both sides. -/
def Pairing.OrZero (ρ : Pairing) (r s : Ref) : Prop := (r = .zero ∧ s = .zero) ∨ ρ r s

namespace Act

variable {Γ : Scope} {ρ : Pairing} {m n : Machine} {args args' : List Ref}

/-! ## Arguments -/

/-- Both are called with as many arguments. -/
theorem tries_one (h : Twins Γ ρ m n) (hargs : List.Forall₂ ρ args args') :
    Tries (Alike Γ) (fun r m' s n' => Twins Γ ρ m' n' ∧ ρ r s) (one args) m (one args') n := by
  obtain _ | ⟨hr, _ | ⟨hr', htail⟩⟩ := hargs
  · exact .throw rfl ⟨ρ, h⟩
  · exact .pure ⟨h, hr⟩
  · exact .throw (by simp [htail.length_eq]) ⟨ρ, h⟩

theorem tries_two (h : Twins Γ ρ m n) (hargs : List.Forall₂ ρ args args') :
    Tries (Alike Γ) (fun a m' b n' => Twins Γ ρ m' n' ∧ ρ a.1 b.1 ∧ ρ a.2 b.2) (two args) m (two args') n := by
  obtain _ | ⟨hr, _ | ⟨hr', _ | ⟨hr'', htail⟩⟩⟩ := hargs
  · exact .throw rfl ⟨ρ, h⟩
  · exact .throw rfl ⟨ρ, h⟩
  · exact .pure ⟨h, hr, hr'⟩
  · exact .throw (by simp [htail.length_eq]) ⟨ρ, h⟩

/-- Paired strings are equal. -/
theorem tries_stringArg (h : Twins Γ ρ m n) (fault : Kind → CallFault) {r s : Ref} (hr : ρ r s) :
    Tries (Alike Γ) (Stays Γ ρ) (stringArg fault r) m (stringArg fault s) n := by
  refine Tries.object h hr ?_
  intro o p _ _ hagree
  cases hagree with
  | string t => exact .pure ⟨rfl, h⟩
  | _ => exact .throw rfl ⟨ρ, h⟩

/-- Numbers agree only with themselves, so they are the same index. -/
theorem index?_eq {o p : Object} (hagree : o.Agree ρ p) : index? o = index? p := by
  cases hagree <;> rfl

theorem tries_positiveArg (h : Twins Γ ρ m n) (fault : CallFault) {r s : Ref} (hr : ρ r s) :
    Tries (Alike Γ) (Stays Γ ρ) (positiveArg fault r) m (positiveArg fault s) n := by
  refine Tries.object h hr ?_
  intro o p _ _ hagree
  rw [index?_eq hagree]
  cases index? p with
  | none => exact .throw rfl ⟨ρ, h⟩
  | some i =>
    dsimp only
    split
    · exact .throw rfl ⟨ρ, h⟩
    · exact .pure ⟨rfl, h⟩

/-! ## Values -/

/-- A native function that ends alike on twins, with paired results for paired arguments. -/
def Impartial (f : List Ref → Result) : Prop :=
  ∀ ⦃Γ ρ m n args args'⦄, Twins Γ ρ m n → List.Forall₂ ρ args args' →
    Tries (Alike Γ) (Keeps Γ fun σ => σ) (f args) m (f args') n

/-- Related lists have related items. -/
theorem getElem?_rel {α β : Type} {R : α → β → Prop} {xs : List α} {ys : List β} (h : List.Forall₂ R xs ys)
    (i : Nat) : Option.Rel R xs[i]? ys[i]? := by
  induction h generalizing i with
  | nil => exact .none
  | cons hr _ ih =>
    cases i with
    | zero => exact .some hr
    | succ i => simpa using ih i

/-- Paired values have the same text, so the same is printed. -/
theorem tries_printValues : Impartial printValues := by
  intro Γ ρ m n args args' h hargs
  have hline : args.map (m.render .plain) = args'.map (n.render .plain) :=
    map_eq_of_forall₂ hargs fun _ _ => h.render .plain
  refine Tries.get ?_
  dsimp only
  rw [hline]
  refine Tries.lift (meets_print h _) ?_
  rintro printed m' _ n' ⟨rfl, h⟩
  cases printed with
  | true => exact Tries.last (meets_leaf h rfl)
  | false => exact .throw rfl ⟨ρ, h⟩

theorem tries_typenameOf : Impartial typenameOf := by
  intro Γ ρ m n args args' h hargs
  refine (tries_one h hargs).bind ?_
  rintro r m' s n' ⟨h, hr⟩
  refine Tries.object h hr ?_
  intro o p _ _ hagree
  rw [hagree.kind_eq]
  exact Tries.last (meets_leaf h rfl)

theorem tries_makePair : Impartial makePair := by
  intro Γ ρ m n args args' h hargs
  obtain _ | ⟨hr, _ | ⟨hr', _ | ⟨hr'', htail⟩⟩⟩ := hargs
  · exact Tries.last (meets_newPair h h.nil h.nil)
  · exact .throw rfl ⟨ρ, h⟩
  · exact Tries.last (meets_newPair h hr hr')
  · exact .throw (by simp [htail.length_eq]) ⟨ρ, h⟩

/-- The parts of paired pairs are paired. -/
theorem tries_memberOf (name : Text) : Impartial (memberOf name) := by
  intro Γ ρ m n args args' h hargs
  obtain _ | ⟨hr, _ | ⟨hr', htail⟩⟩ := hargs
  · exact .throw rfl ⟨ρ, h⟩
  · refine Tries.object h hr ?_
    intro o p _ _ hagree
    cases hagree with
    | pair hh ht =>
      refine .pure ⟨ρ, h, ?_⟩
      split
      · exact ht
      · exact hh
    | _ => exact .throw rfl ⟨ρ, h⟩
  · exact .throw rfl ⟨ρ, h⟩

theorem tries_lengthOf : Impartial lengthOf := by
  intro Γ ρ m n args args' h hargs
  refine (tries_one h hargs).bind ?_
  rintro r m' s n' ⟨h, hr⟩
  refine Tries.object h hr ?_
  intro o p _ _ hagree
  cases hagree with
  | string t => exact Tries.last (meets_leaf h rfl)
  | list hxs =>
    dsimp only
    rw [hxs.length_eq]
    exact Tries.last (meets_leaf h rfl)
  | dict ht =>
    dsimp only
    rw [ht.count_eq]
    exact Tries.last (meets_leaf h rfl)
  | pair _ _ => exact Tries.last (meets_leaf h rfl)
  | _ => exact .throw rfl ⟨ρ, h⟩

/-- Paired lists and dicts have paired items. -/
theorem tries_lookIn : Impartial lookIn := by
  intro Γ ρ m n args args' h hargs
  refine (tries_two h hargs).bind ?_
  rintro ⟨c, k⟩ m' ⟨c', k'⟩ n' ⟨h, hc, hk⟩
  refine Tries.object h hk ?_
  intro key key' _ _ hkey
  refine Tries.object h hc ?_
  intro o p _ _ hagree
  cases hagree with
  | @dict t u ht =>
    cases hkey with
    | string key =>
      dsimp only
      have hget := ht.get? key
      generalize t.get? key = a at hget ⊢
      generalize u.get? key = b at hget ⊢
      cases hget with
      | none => exact .throw rfl ⟨ρ, h⟩
      | some hr => exact .pure ⟨ρ, h, hr⟩
    | _ => exact .throw rfl ⟨ρ, h⟩
  | @list xs ys hxs =>
    dsimp only
    rw [index?_eq hkey, hkey.kind_eq, hxs.length_eq]
    cases index? key' with
    | none => exact .throw rfl ⟨ρ, h⟩
    | some i =>
      dsimp only
      have hget : Option.Rel ρ (if i < 0 then none else xs[i.toNat]?) (if i < 0 then none else ys[i.toNat]?) := by
        split
        · exact .none
        · exact getElem?_rel hxs _
      generalize (if i < 0 then none else xs[i.toNat]?) = a at hget ⊢
      generalize (if i < 0 then none else ys[i.toNat]?) = b at hget ⊢
      cases hget with
      | none => exact .throw rfl ⟨ρ, h⟩
      | some hr => exact .pure ⟨ρ, h, hr⟩
  | _ => exact .throw rfl ⟨ρ, h⟩

/-- Both dicts change in the same way. -/
theorem tries_store : Impartial store := by
  intro Γ ρ m n args args' h hargs
  obtain _ | ⟨hd, _ | ⟨hk, _ | ⟨hv, _ | ⟨hr, htail⟩⟩⟩⟩ := hargs
  · exact .throw rfl ⟨ρ, h⟩
  · exact .throw rfl ⟨ρ, h⟩
  · exact .throw rfl ⟨ρ, h⟩
  · refine Tries.object h hd ?_
    intro o p _ _ ho
    refine Tries.object h hk ?_
    intro key key' _ _ hkey
    cases ho with
    | dict ht =>
      cases hkey with
      | string key =>
        refine Tries.lift (meets_dictPut h hd key hv) ?_
        rintro _ m' _ n' ⟨-, h⟩
        exact .pure ⟨ρ, h, hd⟩
      | _ => exact .throw rfl ⟨ρ, h⟩
    | _ => exact .throw (congrArg (CallFault.dictAndKeyNeeded _) hkey.kind_eq) ⟨ρ, h⟩
  · exact .throw (by simp [htail.length_eq]) ⟨ρ, h⟩

theorem tries_remove : Impartial remove := by
  intro Γ ρ m n args args' h hargs
  refine (tries_two h hargs).bind ?_
  rintro ⟨d, k⟩ m' ⟨d', k'⟩ n' ⟨h, hd, hk⟩
  refine Tries.object h hd ?_
  intro o p _ _ hagree
  refine Tries.object h hk ?_
  intro key key' _ _ hkey
  cases hagree with
  | dict ht =>
    cases hkey with
    | string key =>
      refine Tries.lift (meets_dictErase h hd key) ?_
      rintro b m₂ _ n₂ ⟨rfl, h₂⟩
      cases b with
      | false => exact .throw rfl ⟨ρ, h₂⟩
      | true => exact .pure ⟨ρ, h₂, hd⟩
    | _ => exact .throw rfl ⟨ρ, h⟩
  | _ => exact .throw (congrArg (CallFault.dictAndKeyNeeded _) hkey.kind_eq) ⟨ρ, h⟩

/-- Objects are made one after the other, each pinned before the next. -/
theorem meets_pinning {α : Type} (make : α → Object) {build : List α → List Ref → Act (List Ref)}
    (hmake : ∀ a, (make a).isLeaf) (hnil : ∀ acc, build [] acc = return acc.reverse)
    (hcons : ∀ a as acc, build (a :: as) acc = do let r ← alloc (make a); pin r; build as (r :: acc))
    (as : List α) (h : Twins Γ ρ m n) {acc acc' : List Ref} (hacc : List.Forall₂ Γ.Holds acc acc') :
    Meets (Grows Γ fun Γ' _ => List.Forall₂ Γ'.Holds) (build as acc) m (build as acc') n := by
  induction as generalizing Γ ρ m n acc acc' with
  | nil =>
    rw [hnil, hnil]
    exact ⟨Γ, ρ, .refl Γ, h, List.rel_reverse hacc⟩
  | cons a as ih =>
    rw [hcons, hcons]
    refine Meets.bind (meets_leaf h (hmake a)) ?_
    rintro r m₁ s n₁ ⟨σ, h₁, hr⟩
    refine Meets.bind (meets_pin h₁ hr) ?_
    rintro _ m₂ _ n₂ ⟨e, rfl, rfl, -, -, h₂⟩
    have hbelow := Scope.Below.push Γ e
    refine (ih h₂ (.cons (Scope.holds_push Γ e) (hacc.imp fun _ _ => hbelow.holds))).mono ?_
    rintro rs m₃ ss n₃ ⟨Γ₃, τ, hbelow', h₃, hrs⟩
    exact ⟨Γ₃, τ, hbelow.trans hbelow', h₃, hrs⟩

/-- New strings are pinned until the list is made. -/
theorem meets_newStrings (ts : List Text) (h : Twins Γ ρ m n) :
    Meets (Grows Γ fun Γ' _ => List.Forall₂ Γ'.Holds) (newStrings ts []) m (newStrings ts []) n :=
  meets_pinning .string (fun _ => rfl) (fun _ => rfl) (fun _ _ _ => rfl) ts h .nil

theorem meets_newInts (ks : List Nat) (h : Twins Γ ρ m n) :
    Meets (Grows Γ fun Γ' _ => List.Forall₂ Γ'.Holds) (newInts ks []) m (newInts ks []) n :=
  meets_pinning (fun k : Nat => .ofInt k) (fun _ => rfl) (fun _ => rfl) (fun _ _ _ => rfl) ks h .nil

/-- A list of objects made one after the other, whose pins are dropped then. -/
theorem tries_listOf {build : Act (List Ref)} (h : Twins Γ ρ m n)
    (hbuild : Meets (Grows Γ fun Γ' _ => List.Forall₂ Γ'.Holds) build m build n) :
    Tries (Alike Γ) (Keeps Γ fun σ => σ)
      (do let mark ← pinMark; let refs ← build; let r ← newList refs; unpinTo mark; return r : Result) m
      (do let mark ← pinMark; let refs ← build; let r ← newList refs; unpinTo mark; return r : Result) n := by
  refine Tries.mark h ?_
  refine Tries.lift hbuild ?_
  rintro rs m₁ ss n₁ ⟨Γ₁, σ, hbelow, h₁, hrs⟩
  refine Tries.lift (meets_newList h₁ (hrs.imp fun _ _ => h₁.holds)) ?_
  rintro r m₂ s n₂ ⟨τ, h₂, hr⟩
  refine Tries.lift (meets_unpinTo h₂ hbelow h.closed) ?_
  rintro _ m₃ _ n₃ ⟨-, h₃⟩
  exact .pure ⟨τ, h₃, hr⟩

/-- Keys are the same and in the same order, as new strings. -/
theorem tries_keysOf : Impartial keysOf := by
  intro Γ ρ m n args args' h hargs
  obtain _ | ⟨hr, _ | ⟨hr', htail⟩⟩ := hargs
  · exact .throw rfl ⟨ρ, h⟩
  · refine Tries.object h hr ?_
    intro o p _ _ hagree
    cases hagree with
    | dict ht =>
      dsimp only
      rw [ht.keys_eq]
      exact tries_listOf h (meets_newStrings _ h)
    | _ => exact .throw rfl ⟨ρ, h⟩
  · exact .throw rfl ⟨ρ, h⟩

/-! ## Encodings and files -/

theorem meets_readJson (h : Twins Γ ρ m n) (t : Text) :
    Meets (Stays Γ ρ) (readJson t) m (readJson t) n := by
  rw [readJson]
  cases Data.Json.read? t with
  | none => exact ⟨rfl, h⟩
  | some d => exact (meets_note h _).stays fun _ _ _ h' => ⟨rfl, h'⟩

theorem meets_ofJson (h : Twins Γ ρ m n) (t : Text) :
    Meets (Ends (Alike Γ) (Keeps Γ fun σ => σ)) (ofJson t) m (ofJson t) n := by
  refine (meets_readJson h t).stays ?_
  intro d m₁ n₁ h₁
  cases d with
  | none => exact ⟨rfl, ρ, h₁⟩
  | some d =>
    refine Meets.bind (meets_ofDatum h₁ d) ?_
    rintro (e | a) m₂ (e' | b) n₂ hend
    · exact ⟨congrArg JsonError.convert hend.1, hend.2⟩
    · exact hend.elim
    · exact hend.elim
    · exact hend

/-- Plain data are the same, and values made of the same data are paired. -/
theorem tries_jsonCall (name : Text) : Impartial (jsonCall name) := by
  intro Γ ρ m n args args' h hargs
  refine (tries_one h hargs).bind ?_
  rintro r m₁ s n₁ ⟨h₁, hr⟩
  split
  · have hjson : m₁.toJson r = n₁.toJson s := by
      rw [Machine.toJson, Machine.toJson, h₁.toDatum hr]
    refine Tries.get ?_
    rw [hjson]
    cases n₁.toJson s with
    | ok t => exact Tries.last (meets_leaf h₁ rfl)
    | error e => exact .throw rfl ⟨ρ, h₁⟩
  split
  · refine (tries_stringArg h₁ _ hr).bind ?_
    rintro t m₂ _ n₂ ⟨rfl, h₂⟩
    refine Tries.ends (meets_ofJson h₂ t) (fun e _ _ halike => ?_) fun _ _ _ _ => .pure
    cases e with
    | text => exact .throw rfl halike
    | convert e => exact .throw rfl halike
  · exact .throw rfl ⟨ρ, h₁⟩

theorem tries_packCall (name : Text) : Impartial (packCall name) := by
  intro Γ ρ m n args args' h hargs
  refine (tries_one h hargs).bind ?_
  rintro r m₁ s n₁ ⟨h₁, hr⟩
  split
  · refine Tries.get ?_
    rw [h₁.pack hr]
    cases n₁.pack s with
    | ok t => exact Tries.last (meets_leaf h₁ rfl)
    | error e => exact .throw rfl ⟨ρ, h₁⟩
  split
  · refine (tries_stringArg h₁ _ hr).bind ?_
    rintro t m₂ _ n₂ ⟨rfl, h₂⟩
    exact Tries.ends (meets_unpack h₂ t) (fun _ _ _ halike => .throw rfl halike) fun _ _ _ _ => .pure
  · exact .throw rfl ⟨ρ, h₁⟩

theorem tries_digestOf : Impartial digestOf := by
  intro Γ ρ m n args args' h hargs
  refine (tries_one h hargs).bind ?_
  rintro r m₁ s n₁ ⟨h₁, hr⟩
  refine Tries.get ?_
  rw [h₁.render .tagged hr]
  exact Tries.last (meets_leaf h₁ rfl)

/-- Both write the same bytes to the same files. -/
theorem tries_saveCall : Impartial saveCall := by
  intro Γ ρ m n args args' h hargs
  refine (tries_two h hargs).bind ?_
  rintro ⟨r, p⟩ m₁ ⟨s, q⟩ n₁ ⟨h₁, hr, hp⟩
  refine (tries_stringArg h₁ _ hp).bind ?_
  rintro path m₂ _ n₂ ⟨rfl, h₂⟩
  refine Tries.lift (meets_save h₂ hr path) ?_
  rintro (e | size) m₃ _ n₃ ⟨rfl, h₃⟩
  · exact .throw rfl ⟨ρ, h₃⟩
  · exact Tries.last (meets_leaf h₃ rfl)

/-- Both read the same bytes. -/
theorem tries_loadCall : Impartial loadCall := by
  intro Γ ρ m n args args' h hargs
  refine (tries_one h hargs).bind ?_
  rintro r m₁ s n₁ ⟨h₁, hr⟩
  refine (tries_stringArg h₁ _ hr).bind ?_
  rintro path m₂ _ n₂ ⟨rfl, h₂⟩
  exact Tries.ends (meets_load h₂ path) (fun _ _ _ halike => .throw rfl halike) fun _ _ _ _ => .pure

theorem tries_dumpCall : Impartial dumpCall := by
  intro Γ ρ m n args args' h hargs
  refine (tries_one h hargs).bind ?_
  rintro r m₁ s n₁ ⟨h₁, hr⟩
  refine Tries.object h₁ hr ?_
  intro o p _ _ hagree
  have hprint (outline : Outline) : Tries (Alike Γ) (Keeps Γ fun σ => σ)
      (do let outline ← pure outline; let _ ← print outline.write; return (← get).unit : Result) m₁
      (do let outline ← pure outline; let _ ← print outline.write; return (← get).unit : Result) n₁ := by
    refine (Tries.pure (R := Stays Γ ρ) ⟨rfl, h₁⟩).bind ?_
    rintro _ m₂ _ n₂ ⟨rfl, h₂⟩
    refine Tries.lift (meets_print h₂ _) ?_
    rintro _ m₃ _ n₃ ⟨-, h₃⟩
    exact Tries.get (.pure ⟨ρ, h₃, h₃.unit⟩)
  cases hagree with
  | function f => exact hprint f.outline
  | _ =>
    refine Tries.get ?_
    rw [h₁.toDatum hr]
    cases n₁.toDatum s with
    | ok d => exact hprint d.outline
    | error e => exact Tries.throw_bind ⟨ρ, h₁⟩

/-! ## Chance, time and search -/

/-- Twins draw the same numbers. -/
theorem meets_nextRandom (h : Twins Γ ρ m n) : Meets (Stays Γ ρ) nextRandom m nextRandom n :=
  meets_of_run (fun s => (nextRandom.run { seed := s.seed }).1)
    (fun s => { s with seed := s.seed + 0x9E3779B97F4A7C15 }) (fun _ => rfl) h

theorem tries_randomNumber : Impartial fun _ => randomNumber := by
  intro Γ ρ m n _ _ h _
  refine Tries.lift (meets_nextRandom h) ?_
  rintro w m₁ _ n₁ ⟨rfl, h₁⟩
  exact Tries.last (meets_leaf h₁ rfl)

theorem tries_randomBelow : Impartial randomBelow := by
  intro Γ ρ m n args args' h hargs
  obtain _ | ⟨hr, _ | ⟨hr', htail⟩⟩ := hargs
  · exact .throw rfl ⟨ρ, h⟩
  · refine (tries_positiveArg h _ hr).bind ?_
    rintro bound m₁ _ n₁ ⟨rfl, h₁⟩
    refine Tries.lift (meets_nextRandom h₁) ?_
    rintro w m₂ _ n₂ ⟨rfl, h₂⟩
    exact Tries.last (meets_leaf h₂ rfl)
  · exact .throw rfl ⟨ρ, h⟩

/-- Searching is about texts only. -/
theorem tries_searchCall (name : Text) : Impartial (searchCall name) := by
  intro Γ ρ m n args args' h hargs
  obtain _ | ⟨hp, _ | ⟨hh, _ | ⟨hr, htail⟩⟩⟩ := hargs
  · exact .throw rfl ⟨ρ, h⟩
  · exact .throw rfl ⟨ρ, h⟩
  · refine Tries.object h hp ?_
    intro o p _ _ hagree
    refine Tries.object h hh ?_
    intro o' p' _ _ hagree'
    cases hagree with
    | string pattern =>
      cases hagree' with
      | string haystack =>
        dsimp only
        cases Regex.parse pattern with
        | error e => exact .throw rfl ⟨ρ, h⟩
        | ok r =>
          dsimp only
          split
          · cases r.find? haystack with
            | none => exact Tries.last (meets_leaf h rfl)
            | some found => exact Tries.last (meets_leaf h rfl)
          split
          · exact tries_listOf h (meets_newInts _ h)
          split
          · exact Tries.last (meets_leaf h rfl)
          · exact .throw rfl ⟨ρ, h⟩
      | _ => exact .throw rfl ⟨ρ, h⟩
    | _ => exact .throw rfl ⟨ρ, h⟩
  · exact .throw rfl ⟨ρ, h⟩

/-! ## All primitives -/

/-- Every primitive ends alike on twins. -/
theorem tries_primitive (h : Twins Γ ρ m n) (op : Primitive) (name : Text) (hargs : List.Forall₂ ρ args args') :
    Tries (Alike Γ) (Keeps Γ Pairing.OrZero) (primitive op name args) m (primitive op name args') n := by
  have hpaired {x y : Result} (hxy : Tries (Alike Γ) (Keeps Γ fun σ => σ) x m y n) :
      Tries (Alike Γ) (Keeps Γ Pairing.OrZero) x m y n := by
    refine hxy.mono (fun _ _ => id) ?_
    rintro r m' s n' ⟨σ, h', hr⟩
    exact ⟨σ, h', Or.inr hr⟩
  have hnative {f : List Ref → Result} (hf : Impartial f) :
      Tries (Alike Γ) (Keeps Γ Pairing.OrZero) (f args) m (f args') n := hpaired (hf h hargs)
  cases op with
  | print => exact hnative tries_printValues
  | typename => exact hnative tries_typenameOf
  | pair => exact hnative tries_makePair
  | member => exact hnative (tries_memberOf name)
  | len => exact hnative tries_lengthOf
  | get => exact hnative tries_lookIn
  | put => exact hnative tries_store
  | del => exact hnative tries_remove
  | keys => exact hnative tries_keysOf
  | json => exact hnative (tries_jsonCall name)
  | msgpack => exact hnative (tries_packCall name)
  | blake2 => exact hnative tries_digestOf
  | bsave => exact hnative tries_saveCall
  | bload => exact hnative tries_loadCall
  | dump => exact hnative tries_dumpCall
  | random => exact hnative tries_randomNumber
  | randint => exact hnative tries_randomBelow
  | regexp => exact hnative (tries_searchCall name)
  | now =>
    refine hpaired (Tries.lift (meets_readClock h) ?_)
    rintro t m₁ _ n₁ ⟨rfl, h₁⟩
    exact Tries.last (meets_leaf h₁ rfl)
  | timeit => exact .pure ⟨ρ, h, Or.inl ⟨rfl, rfl⟩⟩
  | ownName => exact hpaired (Tries.last (meets_leaf h rfl))
  | nothing => exact .pure ⟨ρ, h, Or.inl ⟨rfl, rfl⟩⟩
  | argCount =>
    rw [primitive, primitive, hargs.length_eq]
    exact hpaired (Tries.last (meets_leaf h rfl))

/-- Errors have the same messages. -/
theorem meets_settle (h : Twins Γ ρ m n) (op : Primitive) (name : Text) (hargs : List.Forall₂ ρ args args') :
    Meets (Keeps Γ Pairing.OrZero) (settle name (primitive op name args)) m
      (settle name (primitive op name args')) n := by
  refine Meets.bind (tries_primitive h op name hargs) ?_
  rintro (e | r) m₁ (e' | s) n₁ hend
  · obtain ⟨rfl, σ, h₁⟩ := hend
    refine (meets_leaf h₁ (o := .error _) rfl).mono ?_
    rintro r m₂ s n₂ ⟨τ, h₂, hr⟩
    exact ⟨τ, h₂, Or.inr hr⟩
  · exact hend.elim
  · exact hend.elim
  · exact hend

end Act

end TinyScript
