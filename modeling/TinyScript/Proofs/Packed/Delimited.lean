import Mathlib
import TinyScript.Proofs.Packed.RoundTrip

/-!
# Packed forms end where they end

Where all lengths fit in 32 bits, no strict prefix of a packed form is read, and nothing may follow it
(`Machine.pack_delimited`). A reader that goes well has looked at no more than it consumed, so it goes well whatever
follows, and more fuel changes nothing (`Act.Unpack.Below`); so texts that are read are no prefixes of each other. And
a packed form is read.
-/

namespace TinyScript

open Data

/-! ## Values -/

namespace Act.Unpack

variable {α β : Type}

/-- Where `x` goes well, so does `y`, whatever follows the bytes, and with the same result. -/
def Below (x y : Unpack α) : Prop :=
  ∀ bs m a rest m', Yields x bs m a rest m' → ∀ more, Yields y (bs ++ more) m a (rest ++ more) m'

namespace Below

theorem bind {x y : Unpack α} {f g : α → Unpack β} (hx : x.Below y) (hf : ∀ a, (f a).Below (g a)) :
    (x >>= f).Below (y >>= g) := by
  intro bs m b rest m' h more
  obtain ⟨a, bs₁, m₁, hfirst, hsecond⟩ := h.of_bind
  exact (hx _ _ _ _ _ hfirst more).bind (hf a _ _ _ _ _ hsecond more)

theorem throw (e : UnpackError) (y : Unpack α) : Below (throw e) y := by
  intro bs m a rest m' h
  cases h

/-- An action that reads nothing. -/
theorem act (x : Act α) : Below (liftM x : Unpack α) (liftM x) := by
  intro bs m a rest m' h more
  cases h
  exact yields_act rfl

theorem pure (a : α) : Below (Pure.pure a) (Pure.pure a) := by
  intro bs m b rest m' h more
  cases h
  rfl

end Below

/-- What follows does not matter to any of the readers. -/
theorem rules_below : Rules Below where
  pure := .pure
  throw e := .throw e _
  act := .act
  item := by
    intro α read hread bs m a rest m' h more
    obtain ⟨hrun, rfl⟩ := read_of_yields_item h
    exact yields_item ((hread _ _ _ hrun).2 more)
  scalar := by
    intro α _ read make hread bs m r rest m' h more
    obtain ⟨a, hrun, halloc⟩ := read_of_yields_scalar h
    exact (yields_scalar ((hread _ _ _ hrun).2 more)).trans (by rw [halloc])
  bind := .bind

/-- More fuel changes nothing. -/
theorem below_value (source : MessagePack.Source) {fuel fuel' : Nat} (h : fuel ≤ fuel') :
    (value source fuel).Below (value source fuel') := by
  induction fuel generalizing fuel' with
  | zero => exact .throw _ _
  | succ fuel ih =>
    obtain ⟨fuel', rfl⟩ : ∃ n, fuel' = n + 1 := ⟨fuel' - 1, by omega⟩
    have hpayload := rules_below.payload source (ih (Nat.le_of_succ_le_succ h))
    refine Below.bind (rules_below.item (source.takes_count .array)) fun n => ?_
    split
    · exact .throw _ _
    · refine Below.bind (rules_below.item source.takes_tag) fun kind => (hpayload kind).bind fun r => ?_
      exact (Below.act _).bind fun _ => .pure r

end Act.Unpack

/-! ## What follows a value, and what is cut off -/

namespace Act

open Unpack

variable {m : Machine} {t : Text} {r : Ref}

/-- A text is unpacked if a value is read from all of it. -/
theorem unpack_fst_of_yields {rest : List UInt8} {m' : Machine}
    (h : Yields (value .memory (t.size + 1)) t.bytes m r rest m') :
    ((unpack t).run m).1 = if rest = [] then .ok r else .error (.trailing rest.length) := by
  rw [unpack, run_bind_of (unpackFrom_run h)]
  cases rest <;> rfl

theorem exists_yields_of_unpack (h : ((unpack t).run m).1 = .ok r) :
    ∃ m', Yields (value .memory (t.size + 1)) t.bytes m r [] m' := by
  rcases hrun : (((value .memory (t.size + 1)).run t.bytes).run).run m with ⟨e | ⟨s, rest⟩, m'⟩
  · rw [unpack, run_bind_of (unpackFrom_run hrun)] at h
    cases h
  · rw [unpack_fst_of_yields hrun] at h
    split at h
    · next hnil =>
      subst hnil
      cases h
      exact ⟨m', hrun⟩
    · cases h

/-- Where a text is unpacked, a longer one is not. -/
theorem unpack_append (h : ((unpack t).run m).1 = .ok r) {more : Text} (hmore : more ≠ Text.empty) :
    ∃ e, ((unpack (t ++ more)).run m).1 = .error e := by
  obtain ⟨m', hyields⟩ := exists_yields_of_unpack h
  have hfuel : t.size + 1 ≤ (t ++ more).size + 1 := by
    rw [Text.size_append]
    omega
  have hlonger := below_value .memory hfuel _ _ _ _ _ hyields more.bytes
  exact ⟨_, (unpack_fst_of_yields hlonger).trans (if_neg fun hnil => hmore (congrArg Text.mk hnil))⟩

/-- Of two texts that are unpacked none is the beginning of the other. -/
theorem eq_of_unpack_of_prefix {t' : Text} {r' : Ref} (h : ((unpack t).run m).1 = .ok r)
    (h' : ((unpack t').run m).1 = .ok r') (hbegin : t.bytes <+: t'.bytes) : t = t' := by
  obtain ⟨more, hmore⟩ := hbegin
  obtain rfl : t ++ ⟨more⟩ = t' := congrArg Text.mk hmore
  by_cases hempty : (⟨more⟩ : Text) = Text.empty
  · rw [hempty, Text.append_empty]
  · obtain ⟨e, he⟩ := unpack_append h hempty
    rw [h'] at he
    cases he

/-- A packed form is unpacked on any machine. -/
theorem unpack_of_pack {k : Machine} (h : k.heap.Storable r) (ht : k.pack r = .ok t) (m : Machine) :
    ∃ s, ((unpack t).run m).1 = .ok s := by
  obtain ⟨x, y, -, hxy, rfl⟩ := Machine.exists_restores_of_pack h ht
  have hread := Unfolded.Reading.run_value .memory hxy (Nat.lt_succ_self _) []
  rw [List.append_nil] at hread
  obtain ⟨s, m', hrun, -⟩ := unpack_of_reads hread m
  exact ⟨s, congrArg Prod.fst hrun⟩

end Act

/-- **Packed forms delimit themselves.** Where all sizes fit in 32 bits, a packed form is unpacked on any machine,
but nothing that is cut off of it or goes on behind it. So no packed form is the beginning of another. -/
theorem Machine.pack_delimited {m : Machine} {r : Ref} {t : Text} (hr : m.heap.Storable r) (ht : m.pack r = .ok t) :
    (∀ m', ∃ r', ((Act.unpack t).run m').1 = .ok r') ∧
    (∀ p m', p.bytes <+: t.bytes → p ≠ t → ∃ e, ((Act.unpack p).run m').1 = .error e) ∧
    (∀ more m', more ≠ Text.empty → ∃ e, ((Act.unpack (t ++ more)).run m').1 = .error e) ∧
    ∀ {m' : Machine} {r' : Ref} {t' : Text}, m'.heap.Storable r' → m'.pack r' = .ok t' →
      t.bytes <+: t'.bytes → t = t' := by
  have hunpack := Act.unpack_of_pack hr ht
  refine ⟨hunpack, fun p m' hp hne => ?_, fun more m' hmore => ?_, fun {m' r' t'} hr' ht' hp => ?_⟩
  · -- what is cut off and unpacked all the same would be the beginning of what is unpacked
    cases hcut : ((Act.unpack p).run m').1 with
    | error e => exact ⟨e, rfl⟩
    | ok s => exact absurd (Act.eq_of_unpack_of_prefix hcut (hunpack m').choose_spec hp) hne
  · exact Act.unpack_append (hunpack m').choose_spec hmore
  · have hunpack' := Act.unpack_of_pack hr' ht'
    exact Act.eq_of_unpack_of_prefix (hunpack m).choose_spec (hunpack' m).choose_spec hp

namespace Machine

theorem storable_sample (r : Ref) : sample.heap.Storable r := by
  intro s o _ ho
  obtain ⟨p, hp, hstorable, -⟩ := packable_sample (Heap.valid_iff_get?.mpr ⟨o, ho⟩) s .refl
  obtain rfl := Option.some.inj (ho.symm.trans hp)
  exact hstorable

/-- The packed form of a dict of a pair, and what is left of it when the last byte is cut off. -/
theorem pack_delimited_sample :
    sample.heap.Storable ⟨3, 1⟩ ∧
    sample.pack ⟨3, 1⟩ = .ok ⟨[0x92, 10, 0x81, 0xa1, 0x6b, 0x92, 8, 0x92, 0x92, 2, 0xc3, 0x92, 1, 0xc0]⟩ ∧
    ∃ e, ((Act.unpack ⟨[0x92, 10, 0x81, 0xa1, 0x6b, 0x92, 8, 0x92, 0x92, 2, 0xc3, 0x92, 1]⟩).run sample).1
      = .error e := by
  have hpack : sample.pack ⟨3, 1⟩
      = .ok ⟨[0x92, 10, 0x81, 0xa1, 0x6b, 0x92, 8, 0x92, 0x92, 2, 0xc3, 0x92, 1, 0xc0]⟩ := by cbv
  have hcut := (pack_delimited (storable_sample _) hpack).2.1
  exact ⟨storable_sample _, hpack, hcut _ sample ⟨[0xc0], rfl⟩ (by decide)⟩

/-- The length of a string is cut to 32 bits: one of `2 ^ 32` bytes is packed as if it were empty. -/
theorem pack_of_size_eq {m : Machine} {r : Ref} {t : Text} (ho : m.object r = .string t)
    (hsize : t.size = 0x100000000) : m.pack r = .ok (⟨[0x92, 7, 0xdb, 0, 0, 0, 0]⟩ ++ t) := by
  have hheader : MessagePack.stringHeader 0x100000000 = ⟨[0xdb, 0, 0, 0, 0]⟩ := by decide
  rw [pack, packWithin, ho]
  dsimp only
  rw [MessagePack.writeString, hsize, hheader, ← Text.append_assoc]
  rfl

/-- The front of such a string is unpacked, as the empty string. -/
theorem pack_not_delimited :
    ∃ (m : Machine) (r : Ref) (t p : Text), m.pack r = .ok t ∧ p.bytes <+: t.bytes ∧ p ≠ t ∧
      ∃ r' m', (Act.unpack p).run sample = (.ok r', m') ∧ m'.heap.get? r' = some (.string Text.empty) := by
  obtain ⟨long, hsize⟩ : ∃ t : Text, t.size = 0x100000000 := ⟨⟨.replicate _ 0⟩, List.length_replicate⟩
  refine ⟨{ heap := (Heap.empty.alloc (.string long) false).1, nil := .zero }, ⟨0, 1⟩, _,
    ⟨[0x92, 7, 0xdb, 0, 0, 0, 0]⟩, pack_of_size_eq rfl hsize, ⟨long.bytes, rfl⟩, fun heq => ?_, _, _, rfl, rfl⟩
  have hlength := congrArg Text.size heq
  rw [Text.size_append, hsize] at hlength
  cases hlength

end Machine

end TinyScript
