import TinyScript.Proofs.Twin.Call

/-!
# Integer division

Two signed integers are divided as such, and any others as unsigned words. Quotient and remainder together give
back the dividend, modulo `2 ^ 64`; they are the exact ones but for the one quotient of signed integers that has
no word (`Operator.SignedDivision`).
-/

namespace TinyScript

open Syntax (BinOp)

/-- An integer of either kind. -/
def Object.integer (isSigned : Bool) (w : UInt64) : Object := if isSigned then .i64 w else .u64 w

theorem Object.isError_integer (isSigned : Bool) (w : UInt64) : (integer isSigned w).isError = false := by
  cases isSigned <;> rfl

namespace Operator

/-- The quotient of two words. -/
def quotient (isSigned : Bool) (a b : UInt64) : UInt64 :=
  if isSigned then (a.toInt64 / b.toInt64).toUInt64 else a / b

/-- The remainder of two words. -/
def remainder (isSigned : Bool) (a b : UInt64) : UInt64 :=
  if isSigned then (a.toInt64 % b.toInt64).toUInt64 else a % b

/-- The object that comes of an operator. -/
def outcome : Except Fault Object → Object
  | .ok o => o
  | .error e => .error e.message

theorem outcome_div (s s' : Bool) (a b : UInt64) : outcome (binary .div (.integer s a) (.integer s' b))
    = if b = 0 then .error Fault.divisionByZero.message else .integer (s || s') (quotient (s && s') a b) := by
  cases s <;> cases s' <;> by_cases hb : b = 0 <;>
    simp [outcome, binary, unsigned, signed, quotient, Object.integer, hb]

theorem outcome_mod (s s' : Bool) (a b : UInt64) : outcome (binary .mod (.integer s a) (.integer s' b))
    = if b = 0 then .error Fault.divisionByZero.message else .integer (s || s') (remainder (s && s') a b) := by
  cases s <;> cases s' <;> by_cases hb : b = 0 <;>
    simp [outcome, binary, unsigned, signed, remainder, Object.integer, hb]

/-! ## Words -/

theorem quotient_mul_add_remainder (isSigned : Bool) (a b : UInt64) :
    quotient isSigned a b * b + remainder isSigned a b = a := by
  cases isSigned with
  | false =>
    have hlt := a.toNat_lt
    have hle := Nat.div_mul_le_self a.toNat b.toNat
    have hsum := Nat.div_add_mod' a.toNat b.toNat
    rw [← UInt64.toNat_inj]
    simp only [quotient, remainder, Bool.false_eq_true, if_false, UInt64.toNat_add, UInt64.toNat_mul, UInt64.toNat_div,
      UInt64.toNat_mod]
    omega
  | true =>
    have hword : a.toInt64 / b.toInt64 * b.toInt64 + a.toInt64 % b.toInt64 = a.toInt64 := by
      rw [← Int64.toInt_inj, Int64.toInt_add, Int64.toInt_mul, Int64.toInt_div, Int64.toInt_mod, Int.bmod_mul_bmod,
        Int.bmod_add_bmod, Int.tdiv_mul_add_tmod, Int64.toInt_bmod]
    simpa [quotient, remainder] using congrArg Int64.toUInt64 hword

/-- Division of signed integers of 64 bits: toward zero, unless the quotient has no word. -/
structure SignedDivision (a b q r : Int) : Prop where
  truncates : ¬ (a = -2 ^ 63 ∧ b = -1) → q = a.tdiv b
  wraps : a = -2 ^ 63 → b = -1 → q = -2 ^ 63 ∧ r = 0
  sign : r = 0 ∨ r.sign = a.sign
  small : r.natAbs < b.natAbs

theorem signedDivision {a b : UInt64} (hb : b ≠ 0) : SignedDivision a.toInt64.toInt b.toInt64.toInt
    (quotient true a b).toInt64.toInt (remainder true a b).toInt64.toInt := by
  have hne : b.toInt64.toInt ≠ 0 := by
    intro hzero
    have hword := congrArg Int64.toUInt64 (Int64.toInt_inj.1 (hzero.trans Int64.toInt_zero.symm))
    rw [UInt64.toUInt64_toInt64] at hword
    exact hb hword
  simp only [quotient, remainder, if_true, Int64.toInt64_toUInt64, Int64.toInt_mod]
  refine ⟨fun hne => ?_, fun ha hb => ?_, ?_, ?_⟩
  · by_cases ha : a.toInt64 = Int64.minValue
    · refine Int64.toInt_div_of_ne_right _ _ fun hb => hne ⟨?_, ?_⟩
      · rw [ha]; rfl
      · rw [hb]; rfl
    · exact Int64.toInt_div_of_ne_left _ _ ha
  · rw [Int64.toInt_div, ha, hb]
    decide
  · rw [Int.sign_tmod]
    split
    · next hdvd => exact .inl (Int.tmod_eq_zero_of_dvd hdvd)
    · exact .inr rfl
  · rw [Int.natAbs_tmod]
    exact Nat.mod_lt _ (Int.natAbs_pos.2 hne)

end Operator

/-! ## Applying operators -/

namespace Act

variable {m : Machine}

/-- What a binary operator gives: the object that the resulting reference names. -/
def binaryGives (m : Machine) (op : BinOp) (left right : Ref) : Option Object :=
  ((applyBinary op left right).run m).2.heap.get? ((applyBinary op left right).run m).1

theorem binaryGives_eq (hm : m.heap.WellFormed) {left right : Ref} {x y : Object} (hl : m.heap.get? left = some x)
    (hr : m.heap.get? right = some y) (hx : x.isError = false) (hy : y.isError = false) (op : BinOp) :
    binaryGives m op left right = some (Operator.outcome (Operator.binary op x y)) := by
  have hoperand {r : Ref} {o : Object} (hr : m.heap.get? r = some o) (ho : o.isError = false) :
      (errorOperand? r).run m = (none, m) := by
    simp only [errorOperand?, StateT.run_bind, StateT.run_get, pure_bind, hr, ho]
    rfl
  have hobject {r : Ref} {o : Object} (hr : m.heap.get? r = some o) : (object r).run m = (o, m) := by
    show (m.object r, m) = (o, m)
    rw [Machine.object, hr, Option.getD_some]
  have hrun : (applyBinary op left right).run m = (ofResult (Operator.binary op x y)).run m := by
    refine (run_bind_of (hoperand hl hx)).trans ((run_bind_of (hoperand hr hy)).trans ?_)
    exact (run_bind_of (hobject hl)).trans (run_bind_of (hobject hr))
  rw [binaryGives, hrun]
  cases Operator.binary op x y with
  | ok o => exact alloc_run hm o
  | error e => exact alloc_run hm (.error e.message)

/-- **Integer division is total and exact in 64 bits.** Dividing integers of any two kinds gives the error of a
division by zero exactly if the word of the divisor is zero. Else it gives a quotient and a remainder, unsigned
only if both operands are, that give back the dividend modulo `2 ^ 64`. -/
theorem division_exact (hm : m.heap.WellFormed) {left right : Ref} {s s' : Bool} {a b : UInt64}
    (hl : m.heap.get? left = some (.integer s a)) (hr : m.heap.get? right = some (.integer s' b)) :
    (binaryGives m .div left right = some (.error "integer division by zero") ↔ b = 0) ∧
      (binaryGives m .mod left right = some (.error "integer division by zero") ↔ b = 0) ∧
      (b ≠ 0 → ∃ q r : UInt64,
        binaryGives m .div left right = some (.integer (s || s') q) ∧
        binaryGives m .mod left right = some (.integer (s || s') r) ∧
        q * b + r = a ∧
        ((s && s') = false → q.toNat = a.toNat / b.toNat ∧ r.toNat < b.toNat) ∧
        ((s && s') = true →
          Operator.SignedDivision a.toInt64.toInt b.toInt64.toInt q.toInt64.toInt r.toInt64.toInt)) := by
  have hgives := binaryGives_eq hm hl hr (Object.isError_integer s a) (Object.isError_integer s' b)
  have hkind (w : UInt64) : some (Object.integer (s || s') w) ≠ some (.error "integer division by zero") := by
    intro heq
    have herror := Object.isError_integer (s || s') w
    rw [Option.some.inj heq] at herror
    cases herror
  have hzero : Operator.Fault.divisionByZero.message = "integer division by zero" := rfl
  rw [hgives, hgives, Operator.outcome_div, Operator.outcome_mod, hzero]
  by_cases hb : b = 0
  · rw [if_pos hb, if_pos hb]
    exact ⟨iff_of_true rfl hb, iff_of_true rfl hb, fun hne => absurd hb hne⟩
  · rw [if_neg hb, if_neg hb]
    refine ⟨iff_of_false (hkind _) hb, iff_of_false (hkind _) hb,
      fun _ => ⟨_, _, rfl, rfl, ?_, fun hs => ?_, fun hs => ?_⟩⟩
    · exact Operator.quotient_mul_add_remainder _ a b
    · rw [hs]
      refine ⟨UInt64.toNat_div a b, ?_⟩
      show (a % b).toNat < b.toNat
      rw [UInt64.toNat_mod]
      exact Nat.mod_lt _ (Nat.pos_of_ne_zero fun hzero => hb (UInt64.toNat_inj.1 hzero))
    · rw [hs]
      exact Operator.signedDivision hb

/-- The least integer and minus one. -/
def extremes : Machine :=
  { heap := ((Heap.empty.alloc (.i64 0x8000000000000000) false).1.alloc (.i64 0xFFFFFFFFFFFFFFFF) false).1 }

theorem division_exact_extremes :
    extremes.heap.WellFormed ∧ extremes.heap.get? ⟨0, 1⟩ = some (.integer true 0x8000000000000000) ∧
      extremes.heap.get? ⟨1, 1⟩ = some (.integer true 0xFFFFFFFFFFFFFFFF) ∧
      ∃ q r : UInt64, binaryGives extremes .div ⟨0, 1⟩ ⟨1, 1⟩ = some (.integer true q) ∧
        binaryGives extremes .mod ⟨0, 1⟩ ⟨1, 1⟩ = some (.integer true r) ∧
        q.toInt64.toInt = -2 ^ 63 ∧ r.toInt64.toInt = 0 := by
  have hm : extremes.heap.WellFormed := ((Heap.threaded_empty.alloc _ false).alloc _ false).wellFormed
  have hleft : extremes.heap.get? ⟨0, 1⟩ = some (.integer true 0x8000000000000000) := rfl
  have hright : extremes.heap.get? ⟨1, 1⟩ = some (.integer true 0xFFFFFFFFFFFFFFFF) := rfl
  obtain ⟨q, r, hq, hr, -, -, hsigned⟩ := (division_exact hm hleft hright).2.2 (by decide)
  exact ⟨hm, hleft, hright, q, r, hq, hr, (hsigned rfl).wraps rfl rfl⟩

end Act

end TinyScript
