import TinyScript.Data.Json.Reader
import TinyScript.Data.Json.Writer

/-!
# Integers in JSON

An integer is written in base ten, with a minus if it is negative. The reader takes all bytes that may be
part of a number, so a number is read back only if what follows does not go on with it (`Ends`). It is read as
a signed integer whatever it was (`value?_int`, `value?_uint`).
-/

namespace TinyScript.Data.Json

open TinyScript.Text List

variable {b : UInt8} {rest : List UInt8}

theorem skip_cons (h : isSpace b = false) (rest : List UInt8) : skip (b :: rest) = b :: rest := by
  rw [skip, dropWhile_cons_of_neg (by simp [h])]

/-! ## Digits -/

theorem isDigit_byte {c : Char} (h : c.isDigit) :
    isDigit c.toNat.toUInt8 = true ∧ c.toNat.toUInt8.toNat = c.toNat := by
  simp only [Char.isDigit, Bool.and_eq_true, decide_eq_true_eq, UInt32.le_iff_toNat_le, ge_iff_le] at h
  have hlow : 48 ≤ c.toNat := h.1
  have hhigh : c.toNat ≤ 57 := h.2
  have hbyte : c.toNat.toUInt8.toNat = c.toNat := by
    rw [UInt8.toNat_ofNat']
    omega
  refine ⟨?_, hbyte⟩
  simp only [isDigit, Bool.and_eq_true, decide_eq_true_eq, UInt8.le_iff_toNat_le, hbyte]
  exact ⟨hlow, hhigh⟩

/-- Numerals are made of digits. -/
theorem all_isDigit_ofNat (n : Nat) : ∀ b ∈ (ofNat n).bytes, isDigit b := by
  intro b hb
  obtain ⟨c, hc, rfl⟩ := List.mem_map.1 hb
  exact (isDigit_byte (Nat.isDigit_of_mem_toDigits (by decide) (by decide) hc)).1

/-- The digits of a number have its value. -/
theorem digitsValue_ofNat (n : Nat) : digitsValue (ofNat n).bytes = n := by
  have hloop : ∀ (cs : List Char), (∀ c ∈ cs, c.isDigit) → ∀ acc,
      (cs.map fun c => c.toNat.toUInt8).foldl (fun n b => n * 10 + (b.toNat - 48)) acc
        = cs.foldl (fun n c => 10 * n + (c.toNat - '0'.toNat)) acc := by
    intro cs hcs
    induction cs with
    | nil => exact fun acc => rfl
    | cons c cs ih =>
      intro acc
      obtain ⟨hc, hcs⟩ := List.forall_mem_cons.1 hcs
      rw [map_cons, foldl_cons, foldl_cons, (isDigit_byte hc).2, Nat.mul_comm acc]
      exact ih hcs _
  have hdigits : ∀ c ∈ Nat.toDigits 10 n, c.isDigit := fun c hc =>
    Nat.isDigit_of_mem_toDigits (by decide) (by decide) hc
  exact (hloop _ hdigits 0).trans (Nat.ofDigitChars_toDigits (by decide) (by decide))

/-- A number of 64 bits does not overflow. -/
theorem digits?_ofNat {n : Nat} (h : n < wordSize) : digits? (ofNat n).bytes = some n := by
  have hall : (ofNat n).bytes.all isDigit := List.all_eq_true.2 (all_isDigit_ofNat n)
  rw [digits?, digitsValue_ofNat, hall, if_pos (by simpa using h)]

theorem ofNat_cons (n : Nat) : ∃ b bs, (ofNat n).bytes = b :: bs ∧ isDigit b := by
  have hne : (ofNat n).bytes ≠ [] := by
    rw [ofNat, Ne, map_eq_nil_iff]
    exact Nat.toDigits_ne_nil
  obtain ⟨b, bs, hbytes⟩ := exists_cons_of_ne_nil hne
  exact ⟨b, bs, hbytes, all_isDigit_ofNat n b (by rw [hbytes]; exact mem_cons_self)⟩

/-! ## Integers -/

theorem splitSign_digit (hb : isDigit b) (bs : List UInt8) :
    splitSign (b :: bs) = (false, b :: bs) := by
  rw [splitSign]
  rintro rest heq
  obtain rfl := (List.cons.inj heq).1
  cases hb

/-- A number without a sign is read back. -/
theorem number?_ofNat {n : Nat} (h : n < 0x8000000000000000) :
    number? (ofNat n).bytes = some (.int (Int64.ofNat n)) := by
  obtain ⟨b, bs, hbytes, hb⟩ := ofNat_cons n
  have hdigits : digits? (ofNat n).bytes = some n := digits?_ofNat (by rw [wordSize]; omega)
  rw [number?]
  rw [hbytes] at hdigits ⊢
  rw [splitSign_digit hb]
  simp only [hdigits]
  rw [signed?, if_neg Bool.false_ne_true, if_pos h]
  rfl

theorem number?_negative {n : Nat} (h : n ≤ 0x8000000000000000) :
    number? (45 :: (ofNat n).bytes) = some (.int (Int64.ofInt (-(n : Int)))) := by
  have hdigits : digits? (ofNat n).bytes = some n := digits?_ofNat (by rw [wordSize]; omega)
  rw [number?, splitSign]
  simp only [hdigits]
  rw [signed?, if_pos rfl, if_pos h]
  rfl

/-- A signed number is read back, the least one included. -/
theorem number?_ofInt (i : Int64) : number? (ofInt i.toInt).bytes = some (.int i) := by
  have hlow := i.le_toInt
  have hhigh := i.toInt_lt
  have hback : Int64.ofInt i.toInt = i := Int64.ofInt_toInt i
  cases hi : i.toInt with
  | ofNat n =>
    rw [hi] at hhigh hback
    rw [Int.ofNat_eq_natCast] at hhigh
    rw [ofInt, number?_ofNat (by omega)]
    exact congrArg (fun i => some (Datum.int i)) hback
  | negSucc n =>
    rw [hi] at hlow hback
    rw [ofInt]
    show number? (45 :: (ofNat (n + 1)).bytes) = _
    rw [number?_negative (by omega)]
    exact congrArg (fun i => some (Datum.int i)) hback

theorem isNumberByte_of_isDigit (h : isDigit b) : isNumberByte b := by
  simp [isNumberByte, h]

/-- A number is read up to its end and begins with a sign or a digit. -/
theorem ofInt_spec (i : Int) : ∃ b bs, (ofInt i).bytes = b :: bs ∧ (b = 45 ∨ isDigit b) ∧
    ∀ c ∈ b :: bs, isNumberByte c := by
  have hall (n : Nat) : ∀ c ∈ (ofNat n).bytes, isNumberByte c := fun c hc =>
    isNumberByte_of_isDigit (all_isDigit_ofNat n c hc)
  cases i with
  | ofNat n =>
    obtain ⟨b, bs, hbytes, hb⟩ := ofNat_cons n
    exact ⟨b, bs, hbytes, .inr hb, hbytes ▸ hall n⟩
  | negSucc n => exact ⟨45, (ofNat (n + 1)).bytes, rfl, .inl rfl, List.forall_mem_cons.2 ⟨rfl, hall (n + 1)⟩⟩

/-! ## Where a number ends -/

/-- What follows a number does not go on with it. -/
def Ends (rest : List UInt8) : Prop := ∀ b ∈ rest.head?, isNumberByte b = false

theorem ends_cons (h : isNumberByte b = false) (rest : List UInt8) : Ends (b :: rest) := by
  intro c hc
  cases hc
  exact h

/-- Reading stops at the end of the number. -/
theorem takeWhile_number {bs : List UInt8} (hall : ∀ c ∈ bs, isNumberByte c) (hrest : Ends rest) :
    (bs ++ rest).takeWhile isNumberByte = bs ∧ (bs ++ rest).dropWhile isNumberByte = rest := by
  have hstop : rest.takeWhile isNumberByte = [] ∧ rest.dropWhile isNumberByte = rest := by
    cases rest with
    | nil => exact ⟨rfl, rfl⟩
    | cons b rest =>
      have hb : isNumberByte b = false := hrest b rfl
      simp [hb]
  rw [takeWhile_append_of_pos hall, dropWhile_append_of_pos hall, hstop.1, hstop.2, append_nil]
  exact ⟨rfl, rfl⟩

/-- The bytes that a number begins with begin nothing else. -/
theorem number_byte (h : b = 45 ∨ isDigit b) :
    isSpace b = false ∧ b ∉ ([34, 91, 93, 102, 110, 116, 123] : List UInt8) := by
  constructor
  · rcases h with rfl | h
    · rfl
    · simp only [isDigit, Bool.and_eq_true, decide_eq_true_eq, UInt8.le_iff_toNat_le] at h
      have hlow : 48 ≤ b.toNat := h.1
      rw [isSpace, decide_eq_false_iff_not, UInt8.le_iff_toNat_le]
      show ¬ b.toNat ≤ 32
      omega
  · intro hmem
    simp only [mem_cons, not_mem_nil, or_false] at hmem
    rcases hmem with rfl | rfl | rfl | rfl | rfl | rfl | rfl
    all_goals exact absurd h (by decide)

/-- A number is read up to its end. -/
theorem value?_number {bs : List UInt8} {d : Datum} (hb : b = 45 ∨ isDigit b)
    (hall : ∀ c ∈ b :: bs, isNumberByte c) (hd : number? (b :: bs) = some d) (room : Nat)
    (hrest : Ends rest) : value? room false .null (b :: bs ++ rest) = some (d, rest) := by
  obtain ⟨hspace, hne⟩ := number_byte hb
  simp only [mem_cons, not_mem_nil, or_false, not_or] at hne
  obtain ⟨hquote, hlist, -, hfalse, hnull, htrue, hmap⟩ := hne
  obtain ⟨htake, hdrop⟩ := takeWhile_number hall hrest
  have hscalar : scalar? (b :: (bs ++ rest)) = some (d, rest) := by
    rw [scalar?]
    · rw [← cons_append, htake, hdrop, hd]
      rfl
    · exact fun _ heq => hquote (List.cons.inj heq).1
    · exact fun _ heq => htrue (List.cons.inj heq).1
    · exact fun _ heq => hfalse (List.cons.inj heq).1
  rw [cons_append, value?.eq_def, skip_cons hspace]
  simp only [if_neg hnull, if_neg hlist, if_neg hmap]
  exact hscalar

/-- Signed integers come back as they were. -/
theorem value?_int (i : Int64) (room : Nat) (hrest : Ends rest) :
    value? room false .null ((write (.int i)).bytes ++ rest) = some (.int i, rest) := by
  obtain ⟨b, bs, hbytes, hb, hall⟩ := ofInt_spec i.toInt
  have hnumber := number?_ofInt i
  rw [write, hbytes]
  rw [hbytes] at hnumber
  exact value?_number hb hall hnumber room hrest

/-- Unsigned integers that are not too large come back as signed ones. -/
theorem value?_uint {n : UInt64} (hn : n.toNat < 0x8000000000000000) (room : Nat)
    (hrest : Ends rest) :
    value? room false .null ((write (.uint n)).bytes ++ rest) = some (.int n.toInt64, rest) := by
  obtain ⟨b, bs, hbytes, hb, hall⟩ := ofInt_spec n.toNat
  have hnumber := number?_ofNat hn
  have hint : Int64.ofNat n.toNat = n.toInt64 := by
    rw [← Int64.toBitVec_inj]
    simp
  rw [write]
  change (ofNat n.toNat).bytes = b :: bs at hbytes
  rw [hbytes, hint] at hnumber
  rw [hbytes]
  exact value?_number hb hall hnumber room hrest

end TinyScript.Data.Json
