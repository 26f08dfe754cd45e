import TinyScript.Proofs.Data.MessagePack

/-!
# Items end where they end

A reader of items that goes well has taken at least one byte, and it has not looked at what follows the bytes
that it took (`Read.Takes`). Lengths that are read have 32 bits (`Read.Gives`).
-/

namespace TinyScript.Data.MessagePack

variable {α β : Type}

/-- Where the reader goes well it takes at least `n` bytes, and what follows those that it takes does not
matter. -/
def Read.Takes (n : Nat) (x : Read α) : Prop :=
  ∀ bs a rest, x.run bs = .ok (a, rest) →
    rest.length + n ≤ bs.length ∧ ∀ more, x.run (bs ++ more) = .ok (a, rest ++ more)

namespace Read.Takes

theorem pure (a : α) : Takes 0 (Pure.pure a) := by
  intro bs b rest h
  cases h
  exact ⟨le_rfl, fun _ => rfl⟩

theorem throw (n : Nat) (e : ReadError) : Takes n (throw e : Read α) := by
  intro bs b rest h
  cases h

/-- The first part takes as much as is asked for, and the second may take nothing. -/
theorem bind {x : Read α} {f : α → Read β} {n : Nat} (hx : x.Takes n) (hf : ∀ a, (f a).Takes 0) :
    (x >>= f).Takes n := by
  intro bs b rest h
  rw [StateT.run_bind] at h
  cases hrun : x.run bs with
  | error e =>
    rw [hrun] at h
    cases h
  | ok p =>
    rw [hrun] at h
    obtain ⟨hlength, hmore⟩ := hx bs p.1 p.2 hrun
    obtain ⟨hlength', hmore'⟩ := hf p.1 p.2 b rest h
    refine ⟨by omega, fun more => ?_⟩
    rw [StateT.run_bind, hmore more]
    exact hmore' more

/-- Both branches may be taken. -/
theorem ite {c : Prop} [Decidable c] {x y : Read α} {n : Nat} (hx : x.Takes n) (hy : y.Takes n) :
    (if c then x else y).Takes n := by
  split
  · exact hx
  · exact hy

end Read.Takes

/-- A number takes its width, and what is behind it plays no part. -/
theorem takeNat?_append {width n : Nat} {bs rest : List UInt8} (h : takeNat? width bs = some (n, rest)) :
    rest.length + width = bs.length ∧ ∀ more, takeNat? width (bs ++ more) = some (n, rest ++ more) := by
  rw [takeNat?] at h
  split at h
  · cases h
  · next hlength =>
    have hle : width ≤ bs.length := Nat.le_of_not_lt hlength
    obtain ⟨rfl, rfl⟩ := Prod.mk.inj (Option.some.inj h)
    refine ⟨by rw [List.length_drop]; omega, fun more => ?_⟩
    rw [takeNat?, if_neg (by rw [List.length_append]; omega), List.take_append_of_le_length hle,
      List.drop_append_of_le_length hle]

namespace Source

variable (s : Source)

/-- Every item begins with a byte. -/
theorem takes_lead : s.lead.Takes 1 := by
  intro bs b rest h
  cases bs with
  | nil => cases h
  | cons c bs =>
    cases h
    exact ⟨le_rfl, fun _ => rfl⟩

/-- What follows a number has no part in it. -/
theorem takes_nat (short : ReadError) (width : Nat) : (nat short width).Takes 0 := by
  intro bs n rest h
  rw [nat, run_get_bind] at h
  cases htake : takeNat? width bs with
  | none =>
    rw [htake] at h
    cases h
  | some p =>
    obtain ⟨hlength, hmore⟩ := takeNat?_append htake
    rw [htake] at h
    cases h
    refine ⟨by omega, fun more => ?_⟩
    rw [nat, run_get_bind, hmore more]
    rfl

/-- What follows the bytes has no part in them. -/
theorem takes_bytes (n : Nat) : (s.bytes n).Takes 0 := by
  intro bs t rest h
  rw [bytes, run_get_bind] at h
  by_cases hlength : bs.length < n
  · rw [if_pos hlength] at h
    cases h
  · rw [if_neg hlength] at h
    cases h
    have hle : n ≤ bs.length := Nat.le_of_not_lt hlength
    refine ⟨by rw [List.length_drop]; omega, fun more => ?_⟩
    rw [bytes, run_get_bind, if_neg (by rw [List.length_append]; omega), List.take_append_of_le_length hle,
      List.drop_append_of_le_length hle]
    rfl

/-- A header is a byte at least. -/
theorem takes_count (shape : Shape) : (s.count shape).Takes 1 := by
  refine s.takes_lead.bind fun b => ?_
  split
  · exact .ite (.pure _) (.throw _ _)
  · exact .ite (takes_nat _ _) (.throw _ _)
  · exact .ite (.pure _) (.throw _ _)
  · exact .throw _ _

theorem takes_nothing : s.nothing.Takes 1 := by
  refine s.takes_lead.bind fun b => ?_
  split
  · exact .pure _
  · exact .throw _ _

theorem takes_bool : s.bool.Takes 1 := by
  refine s.takes_lead.bind fun b => ?_
  split
  · exact .pure _
  · exact .ite (.pure _) (.throw _ _)
  · exact .throw _ _

theorem takes_natural (i : Int) : (uint.natural i).Takes 0 := .ite (.throw _ _) (.pure _)

/-- Every form of an unsigned integer has a leading byte. -/
theorem takes_uint : s.uint.Takes 1 := by
  refine s.takes_lead.bind fun b => ?_
  split
  · exact .pure _
  · exact takes_nat _ _
  · exact .pure _
  · exact (takes_nat _ _).bind fun n => takes_natural _
  · exact takes_natural _
  · exact .throw _ _

theorem takes_tag : s.tag.Takes 1 := s.takes_uint.bind fun _ => .ite (.throw _ _) (.pure _)

theorem takes_int : s.int.Takes 1 := by
  refine s.takes_lead.bind fun b => ?_
  split
  · exact .pure _
  · exact .pure _
  · exact (takes_nat _ _).bind fun n => .pure _
  · exact .pure _
  · exact (takes_nat _ _).bind fun n => .ite (.throw _ _) (.pure _)
  · exact .throw _ _

theorem takes_float : s.float.Takes 1 := by
  refine s.takes_lead.bind fun b => .ite ?_ (.ite (.pure _) ?_)
  · exact (takes_nat _ _).bind fun n => .pure _
  · exact (takes_nat _ _).bind fun n => .ite (.pure _) (.throw _ _)

/-- A string may be empty, but has a head. -/
theorem takes_string : s.string.Takes 1 := by
  refine s.takes_lead.bind fun b => ?_
  split
  · exact takes_bytes _ _
  · exact (takes_nat _ _).bind fun n => takes_bytes _ _
  · exact .pure _
  · exact .throw _ _
  · exact .throw _ _

end Source

end TinyScript.Data.MessagePack

/-! ## Lengths -/

namespace TinyScript.Data

variable {σ ε α β : Type} {P : α → Prop} {Q : β → Prop}

/-- Where the action goes well, its result has a property. -/
def Gives (P : α → Prop) (x : StateT σ (Except ε) α) : Prop := ∀ s a s', x.run s = .ok (a, s') → P a

namespace Gives

theorem bind {x : StateT σ (Except ε) α} {f : α → StateT σ (Except ε) β} (hx : Gives P x)
    (hf : ∀ a, P a → Gives Q (f a)) : Gives Q (x >>= f) := by
  intro s b s' h
  rw [StateT.run_bind] at h
  cases hrun : x.run s with
  | error e =>
    rw [hrun] at h
    cases h
  | ok p =>
    rw [hrun] at h
    exact hf p.1 (hx _ _ _ hrun) _ _ _ h

theorem pure {a : α} (ha : P a) : Gives P (Pure.pure a : StateT σ (Except ε) α) := by
  intro s b s' h
  cases h
  exact ha

theorem throw (e : ε) : Gives P (throw e : StateT σ (Except ε) α) := by
  intro s b s' h
  cases h

/-- Nothing is asked of what is read. -/
theorem any (x : StateT σ (Except ε) α) : Gives (fun _ => True) x := fun _ _ _ _ => trivial

end Gives

namespace MessagePack

/-- Whether a length that a first byte holds, or the number of bytes of one that follows, is small. -/
def Lead.narrow : Lead → Bool
  | few _ n | fixstr n => n < 256
  | str width | many _ width => width ≤ 4
  | _ => true

/-- No first byte announces more than four bytes of length. -/
theorem Lead.narrow_ofByte (b : UInt8) : (Lead.ofByte b).narrow := by
  have hb := UInt8.toNat_lt b
  rw [ofByte]
  split
  · rfl
  split
  · rw [narrow, decide_eq_true_eq]
    omega
  split
  · rw [narrow, decide_eq_true_eq]
    omega
  split
  · rw [narrow, decide_eq_true_eq]
    omega
  · split <;> first | rfl | (split <;> rfl)

/-- A number is bounded by its width. -/
theorem natOfBytes_lt (bs : List UInt8) : natOfBytes bs < 256 ^ bs.length := by
  have hfold (bs : List UInt8) (n k : Nat) (hn : n < 256 ^ k) :
      bs.foldl (fun n b => n * 256 + b.toNat) n < 256 ^ (k + bs.length) := by
    induction bs generalizing n k with
    | nil => exact hn
    | cons b bs ih =>
      have hb := UInt8.toNat_lt b
      have hnext := ih (n * 256 + b.toNat) (k + 1) (by rw [pow_succ]; omega)
      rwa [List.length_cons, Nat.add_comm bs.length 1, ← Nat.add_assoc]
  have hbytes := hfold bs 0 0 (by decide)
  rwa [Nat.zero_add] at hbytes

namespace Source

variable (s : Source)

/-- Numbers of up to four bytes have 32 bits. -/
theorem gives_nat (short : ReadError) {width : Nat} (hwidth : width ≤ 4) :
    Gives (· < 2 ^ 32) (nat short width) := by
  intro bs n rest h
  rw [nat, run_get_bind, takeNat?] at h
  split at h
  · cases h
  · next hsome =>
    cases h
    split at hsome
    · cases hsome
    · obtain ⟨rfl, rfl⟩ := Prod.mk.inj (Option.some.inj hsome)
      calc natOfBytes (bs.take width)
        _ < 256 ^ (bs.take width).length := natOfBytes_lt _
        _ ≤ 256 ^ 4 := Nat.pow_le_pow_right (by decide) (le_trans (List.length_take_le width bs) hwidth)

/-- If fewer bytes are left, nothing is given. -/
theorem gives_bytes (n : Nat) : Gives (fun t => t.size = n) (s.bytes n) := by
  intro bs t rest h
  rw [bytes, run_get_bind] at h
  split at h
  · cases h
  · next hlength =>
    cases h
    exact List.length_take_of_le (Nat.le_of_not_lt hlength)

/-- A header tells fewer than `2 ^ 32` items, whether they are there or not. -/
theorem gives_count (shape : Shape) : Gives (· < 2 ^ 32) (s.count shape) := by
  refine (Gives.any s.lead).bind fun b _ => ?_
  have hnarrow := Lead.narrow_ofByte b
  split
  · next n hlead =>
    rw [hlead] at hnarrow
    have hn : n < 256 := of_decide_eq_true hnarrow
    split
    · exact .pure (by omega)
    · exact .throw _
  · next width hlead =>
    rw [hlead] at hnarrow
    split
    · exact gives_nat _ (of_decide_eq_true hnarrow)
    · exact .throw _
  · split
    · exact .pure (by decide)
    · exact .throw _
  · exact .throw _

/-- So a text has fewer than `2 ^ 32` bytes. -/
theorem gives_string : Gives (fun t => t.size < 2 ^ 32) s.string := by
  have hbytes (s : Source) {n : Nat} (hn : n < 2 ^ 32) : Gives (fun t => t.size < 2 ^ 32) (s.bytes n) := by
    intro bs t rest h
    rw [s.gives_bytes n _ _ _ h]
    exact hn
  refine (Gives.any s.lead).bind fun b _ => ?_
  have hnarrow := Lead.narrow_ofByte b
  split
  · next n hlead =>
    rw [hlead] at hnarrow
    have hn : n < 256 := of_decide_eq_true hnarrow
    exact hbytes _ (by omega)
  · next width hlead =>
    rw [hlead] at hnarrow
    exact (gives_nat _ (of_decide_eq_true hnarrow)).bind fun n hn => hbytes _ hn
  · exact .pure (by decide)
  · exact .throw _
  · exact .throw _

end Source

end MessagePack

end TinyScript.Data
