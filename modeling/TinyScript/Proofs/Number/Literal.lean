import Mathlib.Data.Nat.Digits.Defs
import TinyScript.Machine.Program
import TinyScript.Machine.Render
import TinyScript.Proofs.Data.Number
import TinyScript.Proofs.Syntax.Printing
import TinyScript.Proofs.Twin.Call

/-!
# Number literals

A literal without a point is an integer in base ten. It is lexed as one token and parsed to a literal, and the
machine gives the integer if it has a word, and else an error. So integers can be shown and evaluated again.
-/

namespace TinyScript

open Syntax List

/-! ## Numerals -/

/-- The characters of digits. -/
def digitChars (ds : List (Fin 10)) : List Char := ds.map fun d => Nat.digitChar d.val

/-- Digits as text, the leading one first. -/
def numeral (ds : List (Fin 10)) : Text := Text.ofChars (digitChars ds)

/-- The number with these digits. -/
def numeralValue (ds : List (Fin 10)) : Nat := Nat.ofDigits 10 (ds.reverse.map Fin.val)

theorem digitChar_spec : ∀ d : Fin 10, beginsNumber (Nat.digitChar d) ∧
    isAsciiDigit (Nat.digitChar d) = true ∧ String.utf8EncodeChar (Nat.digitChar d) = [48 + UInt8.ofNat d] ∧
    (48 + UInt8.ofNat d).toNat = 48 + d := by
  decide

theorem bytes_numeral (ds : List (Fin 10)) : (numeral ds).bytes = ds.map fun d : Fin 10 => 48 + UInt8.ofNat d := by
  show (digitChars ds).flatMap _ = _
  rw [digitChars, flatMap_map, ← flatMap_pure_eq_map]
  exact flatMap_congr fun d _ => (digitChar_spec d).2.2.1

namespace Literal

theorem foldl_digits (ds : List (Fin 10)) :
    (numeral ds).bytes.foldl (fun n b => n * 10 + (b.toNat - 48)) 0 = numeralValue ds := by
  rw [bytes_numeral, foldl_map]
  -- the last digit counts least
  induction ds using List.reverseRecOn with
  | nil => rfl
  | append_singleton ds d ih =>
    rw [foldl_append, ih, foldl_cons, foldl_nil, (digitChar_spec d).2.2.2, numeralValue, numeralValue,
      reverse_concat, map_cons, Nat.ofDigits_cons]
    simp
    omega

/-- What is shown for a number is a numeral with its value. -/
theorem exists_numeral (n : Nat) : ∃ ds, ds ≠ [] ∧ numeral ds = Text.ofNat n ∧ numeralValue ds = n := by
  let ds := (Text.ofNat n).bytes.map fun b => Fin.ofNat 10 (b.toNat - 48)
  have hbytes : (numeral ds).bytes = (Text.ofNat n).bytes := by
    rw [bytes_numeral, map_map]
    refine (map_congr_left fun b hb => ?_).trans (map_id _)
    have hdigit := Data.Json.all_isDigit_ofNat n b hb
    simp only [Data.Json.isDigit, Bool.and_eq_true, decide_eq_true_eq, UInt8.le_iff_toNat_le] at hdigit
    have hlow : 48 ≤ b.toNat := hdigit.1
    have hhigh : b.toNat ≤ 57 := hdigit.2
    apply UInt8.toNat_inj.1
    show (48 + UInt8.ofNat (Fin.ofNat 10 (b.toNat - 48)).val).toNat = b.toNat
    rw [(digitChar_spec _).2.2.2, Fin.val_ofNat]
    omega
  obtain ⟨b, bs, hcons, -⟩ := Data.Json.ofNat_cons n
  refine ⟨ds, by simp [ds, hcons], congrArg Text.mk hbytes, ?_⟩
  rw [← foldl_digits, hbytes]
  exact Data.Json.digitsValue_ofNat n

variable {ds : List (Fin 10)}

theorem mem_numeral {b : UInt8} (hb : b ∈ (numeral ds).bytes) : 48 ≤ b.toNat ∧ b.toNat ≤ 57 := by
  rw [bytes_numeral] at hb
  obtain ⟨d, -, rfl⟩ := List.mem_map.1 hb
  rw [(digitChar_spec d).2.2.2]
  omega

/-- Decimal digits are read as their value. -/
theorem digits?_numeral (hds : ds ≠ []) : digits? (numeral ds).bytes = some (numeralValue ds) := by
  have hempty : (numeral ds).bytes.isEmpty = false := by simpa [bytes_numeral] using hds
  have hall : ((numeral ds).bytes.all fun b => 48 ≤ b && b ≤ 57) = true := by
    simp only [all_eq_true, Bool.and_eq_true, decide_eq_true_eq, UInt8.le_iff_toNat_le]
    exact fun b hb => mem_numeral hb
  rw [digits?, hempty, hall, foldl_digits]
  rfl

/-- No byte of a numeral is a point, a sign or a suffix. -/
theorem notMem_numeral {b : UInt8} (hb : b.toNat < 48 ∨ 57 < b.toNat) : b ∉ (numeral ds).bytes := by
  intro hmem
  have hdigit := mem_numeral hmem
  omega

theorem integer?_numeral (hds : ds ≠ []) : integer? (numeral ds) = some (numeralValue ds : Int) := by
  have hdigits := digits?_numeral hds
  rw [integer?]
  split
  · next heq => exact absurd (heq ▸ mem_cons_self : 43 ∈ (numeral ds).bytes) (notMem_numeral (by decide))
  · next heq => exact absurd (heq ▸ mem_cons_self : 45 ∈ (numeral ds).bytes) (notMem_numeral (by decide))
  · rw [hdigits]
    rfl

/-- A number without a point or a suffix is signed. -/
theorem number?_of_signed {t : Text} {i : Int} (hpoint : 46 ∉ t.bytes) (hsuffix : 117 ∉ t.bytes)
    (ht : integer? t = some i) :
    number? t = if -2 ^ 63 ≤ i ∧ i < 2 ^ 63 then some (.ofInt i) else none := by
  have hlast : t.endsWithByte 117 = false := by
    rw [Text.endsWithByte, beq_eq_false_iff_ne]
    exact fun heq => hsuffix (mem_of_getLast? heq)
  simp [number?, hpoint, hlast, i64?, ht]

theorem number?_numeral (hds : ds ≠ []) :
    number? (numeral ds) = if numeralValue ds < 2 ^ 63 then some (.ofInt (numeralValue ds)) else none := by
  rw [number?_of_signed (notMem_numeral (by decide)) (notMem_numeral (by decide)) (integer?_numeral hds)]
  exact if_congr (by omega) rfl rfl

/-- With a minus sign, one more number is in range. -/
theorem number?_minus (hds : ds ≠ []) :
    number? ("-" ++ numeral ds) = if numeralValue ds ≤ 2 ^ 63 then some (.ofInt (-numeralValue ds)) else none := by
  have hbytes : ("-" ++ numeral ds : Text).bytes = 45 :: (numeral ds).bytes := rfl
  have hinteger : integer? ("-" ++ numeral ds) = some (-numeralValue ds : Int) := by
    rw [integer?, hbytes]
    simp [digits?_numeral hds]
  rw [number?_of_signed ?_ ?_ hinteger]
  · exact if_congr (by omega) rfl rfl
  · simp [hbytes, notMem_numeral]
  · simp [hbytes, notMem_numeral]

/-- With a suffix the range is that of unsigned words. -/
theorem number?_unsigned (hds : ds ≠ []) : number? (numeral ds ++ "u")
    = if numeralValue ds < 2 ^ 64 then some (.u64 (numeralValue ds).toUInt64) else none := by
  have hbytes : (numeral ds ++ "u" : Text).bytes = (numeral ds).bytes ++ [117] := rfl
  have hpoint : 46 ∉ (numeral ds).bytes := notMem_numeral (by decide)
  simp [number?, hbytes, hpoint, Text.endsWithByte, u64?, digits?_numeral hds]

end Literal

/-! ## Lexing and parsing -/

namespace Syntax

theorem parseExpr_of_isNumber {signed : Bool} {cs : List Char} (h : IsNumber .decimal signed cs) :
    parseExpr (Text.ofChars cs) = .ok (.lit .number (Text.ofChars cs)) :=
  parseExpr_print (x := .lit .number (Text.ofChars cs)) ((h.spells (.inl rfl)).mono fun _ => .of_written)

/-- Digits, with or without a suffix and a sign, are one number. -/
theorem isNumber_digitChars {ds : List (Fin 10)} (hds : ds ≠ []) {suffix : List Char}
    (hsuffix : suffix = [] ∨ suffix = ['u']) :
    IsNumber .decimal false (digitChars ds ++ suffix) ∧ IsNumber .decimal true ('-' :: (digitChars ds ++ suffix)) := by
  have hdigit (d : Fin 10) : Text.isDigit (Nat.digitChar d) := by
    have hbegins := (digitChar_spec d).1
    simp only [beginsNumber, Bool.and_eq_true] at hbegins
    exact hbegins.1.1.1
  have hrun : numberRun (digitChars ds ++ suffix) = digitChars ds ++ suffix := by
    clear hds
    induction ds with
    | nil => rcases hsuffix with rfl | rfl <;> rfl
    | cons d ds ih => exact (numberRun_cons (hdigit d) _).trans (congrArg _ ih)
  have hdrop : (digitChars ds ++ suffix).dropWhile isAsciiDigit = suffix := by
    rw [dropWhile_append_of_pos fun c hc => ?_]
    · rcases hsuffix with rfl | rfl <;> rfl
    · obtain ⟨d, -, rfl⟩ := List.mem_map.1 hc
      exact (digitChar_spec d).2.1
  have hkind : numberKind? (digitChars ds ++ suffix) = some .decimal := by
    have hlength := List.length_pos_iff.2 hds
    rw [numberKind?, hdrop]
    rcases hsuffix with rfl | rfl <;> simp [digitChars] <;> omega
  obtain ⟨d, ds, rfl⟩ := exists_cons_of_ne_nil hds
  rw [← hrun] at hkind ⊢
  exact ⟨.unsigned (digitChar_spec d).1 hkind, .signed (hdigit d) hkind⟩

end Syntax

/-! ## Evaluating -/

/-- Evaluating a text gives an object. -/
def Machine.EvaluatesTo (m : Machine) (src : Text) (o : Object) : Prop :=
  ∀ budget, 0 < budget → ∃ r m', (Eval.evalText src).run budget m = some (.ok r, m') ∧ m'.heap.get? r = some o

/-- The error of a literal whose number has no word. -/
def Literal.invalid (raw : Text) : Object := .error ("invalid number literal " ++ raw.quoted)

theorem Machine.evaluatesTo_number {m : Machine} (hm : m.heap.WellFormed) {raw : Text}
    (hraw : parseExpr raw = .ok (.lit .number raw)) :
    m.EvaluatesTo raw ((Literal.number? raw).getD (Literal.invalid raw)) := by
  intro budget hbudget
  obtain ⟨budget, rfl⟩ := Nat.exists_eq_succ_of_ne_zero (Nat.ne_of_gt hbudget)
  have hrun : (Eval.evalLit .number raw).run ((Act.fork Frames.global).run m).2
      = (Act.alloc ((Literal.number? raw).getD (Literal.invalid raw))).run ((Act.fork Frames.global).run m).2 := by
    simp only [Eval.evalLit]
    cases Literal.number? raw <;> rfl
  simp only [Eval.run, Eval.evalText, hraw]
  refine ⟨_, _, rfl, ?_⟩
  show ((Eval.evalLit .number raw).run ((Act.fork Frames.global).run m).2).2.heap.get?
    ((Eval.evalLit .number raw).run ((Act.fork Frames.global).run m).2).1 = _
  rw [hrun]
  exact Act.alloc_run (m := ((Act.fork Frames.global).run m).2) hm _

section

variable {m : Machine} (hm : m.heap.WellFormed)

include hm

theorem Machine.EvaluatesTo.of_number {raw : Text} {o : Object} {P : Prop} [Decidable P]
    (hraw : parseExpr raw = .ok (.lit .number raw)) (hnumber : Literal.number? raw = if P then some o else none) :
    m.EvaluatesTo raw (if P then o else Literal.invalid raw) := by
  have hgives := Machine.evaluatesTo_number hm hraw
  rw [hnumber] at hgives
  split at hgives <;> simp_all

theorem Machine.evaluatesTo_numeral {ds : List (Fin 10)} (hds : ds ≠ []) {t : Text} {n : Nat} (ht : numeral ds = t)
    (hn : numeralValue ds = n) :
    m.EvaluatesTo t (if n < 2 ^ 63 then .ofInt n else Literal.invalid t) ∧
    m.EvaluatesTo ("-" ++ t) (if n ≤ 2 ^ 63 then .ofInt (-n) else Literal.invalid ("-" ++ t)) ∧
    m.EvaluatesTo (t ++ "u") (if n < 2 ^ 64 then .u64 n.toUInt64 else Literal.invalid (t ++ "u")) := by
  subst ht hn
  obtain ⟨hplain, hminus⟩ := isNumber_digitChars hds (.inl rfl)
  obtain ⟨hsuffix, -⟩ := isNumber_digitChars hds (.inr rfl)
  rw [append_nil] at hplain hminus
  have happend : Text.ofChars (digitChars ds ++ ['u']) = numeral ds ++ "u" := congrArg Text.mk flatMap_append
  exact ⟨.of_number hm (parseExpr_of_isNumber hplain) (Literal.number?_numeral hds),
    .of_number hm (parseExpr_of_isNumber hminus) (Literal.number?_minus hds),
    .of_number hm (happend ▸ parseExpr_of_isNumber hsuffix) (Literal.number?_unsigned hds)⟩

theorem Machine.evaluatesTo_ofInt {i : Int} (hlow : -2 ^ 63 ≤ i) (hhigh : i < 2 ^ 63) :
    m.EvaluatesTo (Text.ofInt i) (.ofInt i) := by
  cases i with
  | ofNat n =>
    obtain ⟨ds, hds, ht, hn⟩ := Literal.exists_numeral n
    have hvalue := (evaluatesTo_numeral hm hds ht hn).1
    have hhigh : (n : Int) < 2 ^ 63 := hhigh
    rwa [if_pos (by omega)] at hvalue
  | negSucc n =>
    -- the sign is part of the literal, so the least word is no special case
    obtain ⟨ds, hds, ht, hn⟩ := Literal.exists_numeral (n + 1)
    have hvalue := (evaluatesTo_numeral hm hds ht hn).2.1
    rwa [if_pos (by omega)] at hvalue

theorem Machine.evaluatesTo_ofNat (w : UInt64) : m.EvaluatesTo (Text.ofNat w.toNat ++ "u") (.u64 w) := by
  obtain ⟨ds, hds, ht, hn⟩ := Literal.exists_numeral w.toNat
  have hvalue := (evaluatesTo_numeral hm hds ht hn).2.2
  rwa [if_pos w.toNat_lt, show w.toNat.toUInt64 = w from UInt64.ofNat_toNat] at hvalue

/-- **Number literals mean what they say.** Digits with value `n` are evaluated to the signed integer `n`, to its
opposite behind a minus, and to the unsigned integer before the suffix, if there is a word for it; else the
literal is invalid. So what is shown for an integer, with the suffix if it is unsigned, is evaluated to the same
object again. -/
theorem Machine.evaluatesTo_literals :
    (∀ ds : List (Fin 10), ds ≠ [] → ∀ t n, numeral ds = t → numeralValue ds = n →
      m.EvaluatesTo t (if n < 2 ^ 63 then .ofInt n else Literal.invalid t) ∧
      m.EvaluatesTo ("-" ++ t) (if n ≤ 2 ^ 63 then .ofInt (-n) else Literal.invalid ("-" ++ t)) ∧
      m.EvaluatesTo (t ++ "u") (if n < 2 ^ 64 then .u64 n.toUInt64 else Literal.invalid (t ++ "u"))) ∧
    ∀ (k : Machine) (r : Ref) (w : UInt64),
      (k.object r = .i64 w → m.EvaluatesTo (k.render .plain r) (.i64 w)) ∧
      (k.object r = .u64 w → m.EvaluatesTo (k.render .plain r ++ "u") (.u64 w)) := by
  refine ⟨fun ds hds t n ht hn => evaluatesTo_numeral hm hds ht hn, fun k r w => ⟨fun hr => ?_, fun hr => ?_⟩⟩
  · have hrender : k.render .plain r = Text.ofInt w.toInt64.toInt := by
      rw [render, renderWithin]
      simp only [hr]
      rfl
    have hback : Object.ofInt w.toInt64.toInt = .i64 w := by
      rw [Object.ofInt, Int64.ofInt_toInt, UInt64.toUInt64_toInt64]
    rw [hrender, ← hback]
    exact evaluatesTo_ofInt hm w.toInt64.le_toInt w.toInt64.toInt_lt
  · have hrender : k.render .plain r = Text.ofNat w.toNat := by
      rw [render, renderWithin]
      simp only [hr]
      rfl
    rw [hrender]
    exact evaluatesTo_ofNat hm w

end

/-- The digits of `2 ^ 63` are a literal behind a minus only. -/
theorem Machine.evaluatesTo_literals_least :
    ({} : Machine).EvaluatesTo "-9223372036854775808" (.ofInt (-2 ^ 63)) ∧
    ({} : Machine).EvaluatesTo "9223372036854775808" (.error "invalid number literal '9223372036854775808'") := by
  have hvalue : numeralValue [9, 2, 2, 3, 3, 7, 2, 0, 3, 6, 8, 5, 4, 7, 7, 5, 8, 0, 8] = 2 ^ 63 := by decide
  obtain ⟨hplain, hminus, -⟩ := (evaluatesTo_literals (m := {}) Heap.threaded_empty.wellFormed).1 _ (by decide) _ _
    rfl hvalue
  rw [if_neg (by decide)] at hplain
  rw [if_pos (by decide)] at hminus
  exact ⟨by exact_mod_cast hminus, hplain⟩

end TinyScript
