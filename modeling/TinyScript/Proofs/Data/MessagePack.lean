import Mathlib.Algebra.Ring.Int.Defs
import Mathlib.Algebra.Ring.Nat
import TinyScript.Data.MessagePack.Reader

/-!
# Reading back MessagePack items

Each item that is written is read back by the reader of its class, from memory as well as from a file,
and what follows it is left over. Lengths have at most four bytes, so that strings, arrays and maps must
be shorter than `2 ^ 32`.
-/

namespace TinyScript.Data.MessagePack

/-! ## Numbers of several bytes -/

/-- A number is written in as many bytes as there is room for. -/
theorem length_bigEndian (width n : Nat) : (bigEndian width n).length = width := by
  induction width with
  | zero => rfl
  | succ width ih => rw [bigEndian, List.length_cons, ih]

/-- Bytes are read most significant first; what does not fit in the width is lost. -/
theorem foldl_bigEndian (width n acc : Nat) :
    (bigEndian width n).foldl (fun n b => n * 256 + b.toNat) acc = acc * 256 ^ width + n % 256 ^ width := by
  induction width generalizing acc with
  | zero => simp [bigEndian, Nat.mod_one]
  | succ width ih =>
    have hbyte : (n / Nat.pow 256 width).toUInt8.toNat = n / 256 ^ width % 256 := UInt8.toNat_ofNat'
    rw [bigEndian, List.foldl_cons, ih, hbyte, Nat.mod_pow_succ, Nat.pow_succ, Nat.add_mul, Nat.mul_assoc,
      Nat.mul_comm 256, Nat.mul_comm (n / 256 ^ width % 256)]
    omega

/-- So a number is read back up to the width. -/
theorem takeNat?_bigEndian (width n : Nat) (rest : List UInt8) :
    takeNat? width (bigEndian width n ++ rest) = some (n % 256 ^ width, rest) := by
  have hlength := length_bigEndian width n
  have hvalue : natOfBytes (bigEndian width n) = n % 256 ^ width := by
    rw [natOfBytes, foldl_bigEndian, Nat.zero_mul, Nat.zero_add]
  rw [takeNat?, if_neg (by rw [List.length_append]; omega), List.take_left' hlength,
    List.drop_left' hlength, hvalue]

/-- A number of fixed width stands behind the byte that tells what it is. -/
theorem tagged_bytes (lead : UInt8) (width n : Nat) (rest : List UInt8) :
    (tagged lead width n).bytes ++ rest = lead :: (bigEndian width n ++ rest) := rfl

/-! ## First bytes of short items -/

/-- The small naturals are bytes of their own. -/
theorem ofByte_fixint : ∀ n < 128, Lead.ofByte n.toUInt8 = .fixint n := by decide

theorem ofByte_negint : ∀ n < 33, 0 < n → Lead.ofByte (256 - n).toUInt8 = .negint n := by decide

/-- A short array or map has its length in the first byte. -/
theorem ofByte_few (shape : Shape) : ∀ n < 16, Lead.ofByte (shape.leads.1 + n).toUInt8 = .few shape n := by
  cases shape <;> decide

theorem ofByte_fixstr : ∀ n < 32, Lead.ofByte (0xa0 + n).toUInt8 = .fixstr n := by decide

namespace Source

variable (s : Source) {α : Type} (rest : List UInt8)

/-- The first byte, from which a reader tells what follows. -/
theorem run_lead_bind (b : UInt8) (f : UInt8 → Read α) : (s.lead >>= f).run (b :: rest) = (f b).run rest := rfl

theorem run_get_bind (f : List UInt8 → Read α) : (get >>= f : Read α).run rest = (f rest).run rest := rfl

theorem run_nat (short : ReadError) (width n : Nat) :
    (nat short width).run (bigEndian width n ++ rest) = .ok (n % 256 ^ width, rest) := by
  rw [nat, run_get_bind, takeNat?_bigEndian]
  rfl

/-- A number that fits is read back. -/
theorem run_nat_of_lt (short : ReadError) (width : Nat) {n : Nat} (h : n < 256 ^ width) :
    (nat short width).run (bigEndian width n ++ rest) = .ok (n, rest) := by
  rw [run_nat, Nat.mod_eq_of_lt h]

/-- A text of known size is read back. -/
theorem run_bytes (t : Text) : (s.bytes t.size).run (t.bytes ++ rest) = .ok (t, rest) := by
  rw [bytes, run_get_bind, if_neg (by rw [List.length_append, Text.size]; omega)]
  show Except.ok (Text.mk ((t.bytes ++ rest).take t.bytes.length), (t.bytes ++ rest).drop t.bytes.length) = _
  rw [List.take_left, List.drop_left]

/-! ## Headers -/

/-- The number of items, in whichever of the three headers is the shortest. -/
theorem run_count (shape : Shape) {n : Nat} (h : n < 2 ^ 32) :
    (s.count shape).run ((shape.header n).bytes ++ rest) = .ok (n, rest) := by
  rw [Shape.header]
  split
  · next hshort =>
    rw [List.singleton_append, count, run_lead_bind, ofByte_few shape n hshort]
    simp only [if_true]
    rfl
  · cases shape
    all_goals
      split
      · exact run_nat_of_lt rest s.cutOff 2 (by omega)
      · exact run_nat_of_lt rest s.cutOff 4 (by omega)

/-! ## Scalars -/

theorem run_nothing : s.nothing.run (writeNil.bytes ++ rest) = .ok ((), rest) := rfl

theorem run_bool (b : Bool) : s.bool.run ((writeBool b).bytes ++ rest) = .ok (b, rest) := by
  cases b <;> rfl

/-- Naturals are written in the shortest of five forms, and all are read. -/
theorem run_uint (w : UInt64) : s.uint.run ((writeUint w).bytes ++ rest) = .ok (w.toNat, rest) := by
  have hw := w.toNat_lt
  simp only [writeUint]
  split
  · next hshort =>
    rw [List.singleton_append, uint, run_lead_bind, ofByte_fixint _ hshort]
    cases s <;> rfl
  · -- the widths differ only in how many bytes are read
    have hwide : ∀ {lead : UInt8} {width : Nat}, Lead.ofByte lead = .uint width → w.toNat < 256 ^ width →
        s.uint.run ((tagged lead width w.toNat).bytes ++ rest) = .ok (w.toNat, rest) := by
      intro lead width hlead hlt
      rw [tagged_bytes, uint, run_lead_bind, hlead]
      cases s <;> exact run_nat_of_lt rest _ width hlt
    split
    · exact hwide rfl (by omega)
    · split
      · exact hwide rfl (by omega)
      · split
        · exact hwide rfl (by omega)
        · exact hwide rfl (by omega)

/-- The number of a kind is a byte at most. -/
theorem run_tag {w : UInt64} (h : w.toNat ≤ 255) : s.tag.run ((writeUint w).bytes ++ rest) = .ok (w.toNat, rest) := by
  show (s.uint >>= _).run _ = _
  rw [StateT.run_bind, run_uint]
  show StateT.run (if w.toNat > 255 then _ else _) rest = _
  rw [if_neg (by omega)]
  rfl

/-- A floating point number is read back to the bit. -/
theorem run_float (w : UInt64) : s.float.run ((writeFloat w).bytes ++ rest) = .ok (w, rest) := by
  rw [writeFloat, tagged_bytes, float, run_lead_bind, if_neg (by decide), if_neg (by cases s <;> decide),
    StateT.run_bind, run_nat_of_lt rest _ _ w.toNat_lt]
  show Except.ok (UInt64.ofNat w.toNat, rest) = _
  rw [UInt64.ofNat_toNat]

/-- A text is read back, if its size fits in the header. -/
theorem run_string {t : Text} (h : t.size < 2 ^ 32) :
    s.string.run ((writeString t).bytes ++ rest) = .ok (t, rest) := by
  rw [writeString, Text.bytes_append, List.append_assoc]
  simp only [stringHeader]
  split
  · next hshort =>
    rw [List.singleton_append, string, run_lead_bind, ofByte_fixstr _ hshort]
    cases s <;> exact run_bytes _ rest t
  · have hwide : ∀ {lead : UInt8} {width : Nat}, Lead.ofByte lead = .str width → t.size < 256 ^ width →
        s.string.run ((tagged lead width t.size).bytes ++ (t.bytes ++ rest)) = .ok (t, rest) := by
      intro lead width hlead hlt
      rw [tagged_bytes, string, run_lead_bind, hlead]
      have hsize := run_nat_of_lt (t.bytes ++ rest) s.cutOff width hlt
      cases s
      all_goals
        show StateT.run (nat _ width >>= fun n => bytes _ n) _ = _
        rw [StateT.run_bind, hsize]
        exact run_bytes _ rest t
    split
    · exact hwide rfl (by omega)
    · split
      · exact hwide rfl (by omega)
      · exact hwide rfl (by omega)

/-! ## Signed numbers -/

/-- The number that is congruent to another one and fits into so many bytes. -/
theorem signed_eq (width : Nat) {n : Nat} {i : Int} (hmod : (n : Int) % 256 ^ (width + 1) = i % 256 ^ (width + 1))
    (hlow : -256 ^ (width + 1) ≤ 2 * i) (hhigh : 2 * i < 256 ^ (width + 1)) :
    signed (width + 1) (n % 256 ^ (width + 1)) = i := by
  have hcast : ((n % 256 ^ (width + 1) : Nat) : Int) = i % 256 ^ (width + 1) := by
    rw [← hmod, Int.natCast_emod, Int.natCast_pow]
    rfl
  have hhalf : Nat.pow 256 (width + 1) = 2 * (128 * 256 ^ width) := by
    show 256 ^ (width + 1) = _
    rw [Nat.pow_succ]
    omega
  have hpower : (256 : Int) ^ (width + 1) = 2 * (128 * 256 ^ width : Nat) := by
    rw [Int.pow_succ]
    push_cast
    omega
  rw [signed, hhalf]
  rw [hpower] at hcast hlow hhigh
  generalize 128 * 256 ^ width = half at *
  by_cases hneg : i < 0
  · rw [← Int.add_emod_right, Int.emod_eq_of_lt (by omega) (by omega)] at hcast
    rw [if_neg (by omega), hcast]
    omega
  · rw [Int.emod_eq_of_lt (by omega) (by omega)] at hcast
    rw [if_pos (by omega), hcast]

/-- The two halves of the words, as signed numbers. -/
theorem toInt_word (w : UInt64) :
    w.toInt64.toInt = if w.toNat < 2 ^ 63 then (w.toNat : Int) else (w.toNat : Int) - 2 ^ 64 := by
  show w.toBitVec.toInt = _
  rw [BitVec.toInt_eq_toNat_cond, UInt64.toNat_toBitVec]
  split <;> split <;> omega

/-- A word is read back as a signed number, in whichever form it was written. -/
theorem run_int (w : UInt64) : s.int.run ((writeInt w).bytes ++ rest) = .ok (w.toInt64.toInt, rest) := by
  have hw := w.toNat_lt
  have hi := toInt_word w
  simp only [writeInt, Bool.and_eq_true, decide_eq_true_eq]
  generalize w.toInt64.toInt = i at hi ⊢
  split
  · next hshort =>
    rw [List.singleton_append, int, run_lead_bind]
    by_cases hneg : i < 0
    · have hbyte : w.toNat.toUInt8 = (256 - (-i).toNat).toUInt8 := by
        rw [← UInt8.toNat_inj]
        show w.toNat % 256 = (256 - (-i).toNat) % 256
        split at hi
        all_goals omega
      rw [hbyte, ofByte_negint _ (by omega) (by omega)]
      have hi : -((-i).toNat : Int) = i := by omega
      cases s
      all_goals
        show Except.ok (-((-i).toNat : Int), rest) = _
        rw [hi]
    · rw [ofByte_fixint _ (by split at hi <;> omega)]
      have hi : (w.toNat : Int) = i := by split at hi <;> omega
      cases s
      all_goals
        show Except.ok ((w.toNat : Int), rest) = _
        rw [hi]
  · have hwide : ∀ {lead : UInt8} {width : Nat}, Lead.ofByte lead = .int width →
        signed width (w.toNat % 256 ^ width) = i →
        s.int.run ((tagged lead width w.toNat).bytes ++ rest) = .ok (i, rest) := by
      intro lead width hlead hsigned
      rw [tagged_bytes, int, run_lead_bind, hlead]
      have hnat := run_nat rest s.cutOff width w.toNat
      cases s
      all_goals
        show StateT.run (nat _ width >>= fun n => pure (signed width n)) _ = _
        rw [StateT.run_bind, hnat, ← hsigned]
        rfl
    split
    · exact hwide rfl (signed_eq 0 (by split at hi <;> omega) (by omega) (by omega))
    · split
      · exact hwide rfl (signed_eq 1 (by split at hi <;> omega) (by omega) (by omega))
      · split
        · exact hwide rfl (signed_eq 3 (by split at hi <;> omega) (by omega) (by omega))
        · exact hwide rfl (signed_eq 7 (by split at hi <;> omega) (by split at hi <;> omega) (by split at hi <;> omega))

end Source

end TinyScript.Data.MessagePack
