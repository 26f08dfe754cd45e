import TinyScript.Text.Utf8

/-!
# Reading UTF-8 piece by piece

An ASCII byte is a character of its own and no part of another one, so a text can be cut at it (`chars_append_cons`).
A well-formed text is the encoding of its characters (`ofChars_chars`). The other way round, an encoding is read as the
characters that it encodes, whatever is put behind it (`chars_ofChars_append`).
-/

namespace TinyScript.Text

open List

/-! ## ASCII bytes -/

/-- An ASCII byte is no part of a longer character. -/
theorem isTail_of_ascii {b : UInt8} (hb : b < 0x80) : isTail b = false := by
  have hlt : ¬0x80 ≤ b := UInt8.not_le.2 hb
  simp [isTail, hlt]

theorem not_le_of_ascii {b low : UInt8} (hb : b < 0x80) (hlow : 0x80 ≤ low) : ¬low ≤ b := fun hle =>
  UInt8.not_le.2 hb (UInt8.le_trans hlow hle)

theorem char2?_of_ascii {b : UInt8} (hb : b < 0x80) (a : UInt8) : char2? a b = none := by
  simp [char2?, isTail_of_ascii hb]

/-- The second byte of a character of three bytes is not ASCII, and neither is the third. -/
theorem char3?_of_ascii {a b c : UInt8} (h : b < 0x80 ∨ c < 0x80) : char3? a b c = none := by
  rcases h with hb | hc
  · have hb' : ¬(if a = 0xE0 then 0xA0 else 0x80) ≤ b := not_le_of_ascii hb (by split <;> decide)
    simp [char3?, hb']
  · simp [char3?, isTail_of_ascii hc]

theorem char4?_of_ascii {a b c d : UInt8} (h : b < 0x80 ∨ c < 0x80 ∨ d < 0x80) : char4? a b c d = none := by
  rcases h with hb | hc | hd
  · have hb' : ¬(if a = 0xF0 then 0x90 else 0x80) ≤ b := not_le_of_ascii hb (by split <;> decide)
    simp [char4?, hb']
  · simp [char4?, isTail_of_ascii hc]
  · simp [char4?, isTail_of_ascii hd]

/-- What stands at the front is not changed by an ASCII byte behind it. -/
theorem front_append_ascii {b : UInt8} (hb : b < 0x80) (a : UInt8) (rest more : List UInt8) :
    front a (rest ++ b :: more) = front a rest := by
  by_cases ha : a < 0x80
  · simp [front, ha]
  -- the byte would have to be the second, third or fourth of a character
  · rcases rest with _ | ⟨x, _ | ⟨y, _ | ⟨z, rest⟩⟩⟩
    · rcases more with _ | ⟨_, _ | ⟨_, _⟩⟩
      · simp [front, ha, char2?_of_ascii hb]
      · simp [front, ha, char2?_of_ascii hb, char3?_of_ascii (.inl hb)]
      · simp [front, ha, char2?_of_ascii hb, char3?_of_ascii (.inl hb), char4?_of_ascii (.inl hb)]
    · rcases more with _ | ⟨_, _⟩
      · simp [front, ha, char3?_of_ascii (.inr hb)]
      · simp [front, ha, char3?_of_ascii (.inr hb), char4?_of_ascii (.inr (.inl hb))]
    · simp [front, ha, char4?_of_ascii (.inr (.inr hb))]
    · simp [front, ha]

/-- A character takes no more bytes than there are. -/
theorem front_snd_le (a : UInt8) (rest : List UInt8) : (front a rest).2 ≤ rest.length + 1 := by
  unfold front
  split
  · simp
  · split
    · simp
    · split
      · simp
      · split
        · simp
        · split
          · simp
          · split
            · simp
            · split <;> simp

theorem front_ascii {a : UInt8} (ha : a < 0x80) (rest : List UInt8) :
    front a rest = (some (Char.ofNat a.toNat), 1) := by simp [front, ha]

/-- Decoding begins anew at an ASCII byte. -/
theorem decodeFrom_append_ascii {b : UInt8} (hb : b < 0x80) (more : List UInt8) (skip : Nat)
    (bs : List UInt8) (hskip : skip ≤ bs.length) :
    decodeFrom skip (bs ++ b :: more)
      = decodeFrom skip bs ++ (some (Char.ofNat b.toNat), 1) :: decodeFrom 0 more := by
  induction bs generalizing skip with
  | nil =>
    obtain rfl := Nat.le_zero.1 hskip
    simp [decodeFrom, front_ascii hb]
  | cons a bs ih =>
    cases skip with
    | zero =>
      have hle := front_snd_le a bs
      rw [cons_append, decodeFrom, decodeFrom, front_append_ascii hb, ih _ (by omega), cons_append]
    | succ skip => exact ih skip (Nat.le_of_succ_le_succ hskip)

/-- **Cutting at an ASCII byte.** -/
theorem chars_append_cons {b : UInt8} (hb : b < 0x80) (t : Text) (more : List UInt8) :
    chars ⟨t.bytes ++ b :: more⟩ = t.chars ++ Char.ofNat b.toNat :: chars ⟨more⟩ := by
  simp only [chars, decode, decodeFrom_append_ascii hb more 0 t.bytes (Nat.zero_le _), map_append,
    map_cons, Option.getD_some]

/-! ## Characters and their encodings -/

theorem encode_ofNat {n : Nat} (h : n.isValidChar) : String.utf8EncodeChar (Char.ofNat n)
    = if n ≤ 127 then [UInt8.ofNat n]
      else if n ≤ 2047 then [UInt8.ofNat (n / 64 % 32 + 192), UInt8.ofNat (n % 64 + 128)]
      else if n ≤ 65535 then
        [UInt8.ofNat (n / 4096 % 16 + 224), UInt8.ofNat (n / 64 % 64 + 128), UInt8.ofNat (n % 64 + 128)]
      else
        [UInt8.ofNat (n / 262144 % 8 + 240), UInt8.ofNat (n / 4096 % 64 + 128),
          UInt8.ofNat (n / 64 % 64 + 128), UInt8.ofNat (n % 64 + 128)] := by
  have hval : (Char.ofNat n).val.toNat = n := by
    rw [Char.ofNat, dif_pos h]
    rfl
  rw [String.utf8EncodeChar, hval]

theorem ofNat_eq {n : Nat} {a : UInt8} (h : n = a.toNat) : UInt8.ofNat n = a := by
  rw [h, UInt8.ofNat_toNat]

theorem encode_ascii {a : UInt8} (ha : a < 0x80) : String.utf8EncodeChar (Char.ofNat a.toNat) = [a] := by
  have hlt : a.toNat < 128 := UInt8.lt_iff_toNat_lt.1 ha
  rw [encode_ofNat (.inl (by omega)), if_pos (by omega), UInt8.ofNat_toNat]

/-- All bytes of a character outside ASCII have their high bit set. -/
theorem high_of_mem_encode {c : Char} (hc : 128 ≤ c.toNat) {b : UInt8} (hb : b ∈ String.utf8EncodeChar c) :
    128 ≤ b.toNat := by
  have hascii : ¬ c.val.toNat ≤ 127 := Nat.not_le.2 hc
  rw [String.utf8EncodeChar, if_neg hascii] at hb
  split at hb
  · simp only [mem_cons, not_mem_nil, or_false] at hb
    obtain rfl | rfl := hb <;> rw [UInt8.toNat_ofNat'] <;> omega
  · split at hb
    · simp only [mem_cons, not_mem_nil, or_false] at hb
      obtain rfl | rfl | rfl := hb <;> rw [UInt8.toNat_ofNat'] <;> omega
    · simp only [mem_cons, not_mem_nil, or_false] at hb
      obtain rfl | rfl | rfl | rfl := hb <;> rw [UInt8.toNat_ofNat'] <;> omega

/-- A byte of ASCII is part of no other character. -/
theorem eq_of_mem_encode {c : Char} {b : UInt8} (hb : b ∈ String.utf8EncodeChar c) (hascii : b.toNat < 128) :
    c = Char.ofNat b.toNat := by
  have hc : c.val.toNat ≤ 127 := Nat.le_of_not_lt fun hc => absurd (high_of_mem_encode hc hb) (by omega)
  rw [String.utf8EncodeChar, if_pos hc, mem_singleton] at hb
  rw [hb, UInt8.toNat_ofNat', Nat.mod_eq_of_lt (by omega)]
  exact (Char.ofNat_toNat c).symm

/-! What the tests on bytes say about numbers. -/

theorem isTail_iff {b : UInt8} : isTail b ↔ 128 ≤ b.toNat ∧ b.toNat ≤ 191 := by
  simp only [isTail, Bool.and_eq_true, decide_eq_true_eq, UInt8.le_iff_toNat_le]
  exact Iff.rfl

/-- The bounds of a second byte, which are narrower behind one of the lead bytes. -/
theorem le_of_low {a b lead low : UInt8} (hlow : 0x80 ≤ low) (h : (if a = lead then low else 0x80) ≤ b) :
    128 ≤ b.toNat ∧ (a.toNat = lead.toNat → low.toNat ≤ b.toNat) := by
  split at h
  · exact ⟨UInt8.le_iff_toNat_le.1 (UInt8.le_trans hlow h), fun _ => UInt8.le_iff_toNat_le.1 h⟩
  · next hne => exact ⟨UInt8.le_iff_toNat_le.1 h, fun heq => absurd (UInt8.toNat_inj.1 heq) hne⟩

theorem le_of_high {a b lead high : UInt8} (hhigh : high ≤ 0xBF)
    (h : b ≤ if a = lead then high else 0xBF) :
    b.toNat ≤ 191 ∧ (a.toNat = lead.toNat → b.toNat ≤ high.toNat) := by
  split at h
  · exact ⟨UInt8.le_iff_toNat_le.1 (UInt8.le_trans h hhigh), fun _ => UInt8.le_iff_toNat_le.1 h⟩
  · next hne => exact ⟨UInt8.le_iff_toNat_le.1 h, fun heq => absurd (UInt8.toNat_inj.1 heq) hne⟩

/-- A character of two bytes is encoded as these. -/
theorem encode_char2 {a b : UInt8} {c : Char} (h : char2? a b = some c) :
    String.utf8EncodeChar c = [a, b] := by
  simp only [char2?, Option.ite_none_right_eq_some, Option.some.injEq, Bool.and_eq_true,
    decide_eq_true_eq, isTail_iff] at h
  obtain ⟨⟨⟨ha, ha'⟩, hb, hb'⟩, rfl⟩ := h
  have hlow : 194 ≤ a.toNat := UInt8.le_iff_toNat_le.1 ha
  have hhigh : a.toNat ≤ 223 := UInt8.le_iff_toNat_le.1 ha'
  rw [encode_ofNat (.inl (by omega)), if_neg (by omega), if_pos (by omega)]
  rw [ofNat_eq (a := a) (by omega), ofNat_eq (a := b) (by omega)]

theorem encode_char3 {a b c : UInt8} {ch : Char} (h : char3? a b c = some ch) :
    String.utf8EncodeChar ch = [a, b, c] := by
  simp only [char3?, Option.ite_none_right_eq_some, Option.some.injEq, Bool.and_eq_true,
    decide_eq_true_eq, isTail_iff] at h
  obtain ⟨⟨⟨⟨⟨ha, ha'⟩, hb⟩, hb'⟩, hc⟩, rfl⟩ := h
  have hlow : 224 ≤ a.toNat := UInt8.le_iff_toNat_le.1 ha
  have hhigh : a.toNat ≤ 239 := UInt8.le_iff_toNat_le.1 ha'
  -- the second byte rules out long forms of shorter characters, and surrogates
  obtain ⟨hb, hshort⟩ := le_of_low (by decide) hb
  obtain ⟨hb', hsurrogate⟩ := le_of_high (by decide) hb'
  have hshort : a.toNat = 224 → 160 ≤ b.toNat := hshort
  have hsurrogate : a.toNat = 237 → b.toNat ≤ 159 := hsurrogate
  have hvalid : ((a.toNat - 0xE0) * 4096 + (b.toNat - 0x80) * 64 + (c.toNat - 0x80)).isValidChar := by
    by_cases hd : a.toNat ≤ 237
    · exact .inl (by omega)
    · exact .inr ⟨by omega, by omega⟩
  rw [encode_ofNat hvalid, if_neg (by omega), if_neg (by omega), if_pos (by omega)]
  rw [ofNat_eq (a := a) (by omega), ofNat_eq (a := b) (by omega), ofNat_eq (a := c) (by omega)]

theorem encode_char4 {a b c d : UInt8} {ch : Char} (h : char4? a b c d = some ch) :
    String.utf8EncodeChar ch = [a, b, c, d] := by
  simp only [char4?, Option.ite_none_right_eq_some, Option.some.injEq, Bool.and_eq_true,
    decide_eq_true_eq, isTail_iff] at h
  obtain ⟨⟨⟨⟨⟨⟨ha, ha'⟩, hb⟩, hb'⟩, hc⟩, hd⟩, rfl⟩ := h
  have hlow : 240 ≤ a.toNat := UInt8.le_iff_toNat_le.1 ha
  have hhigh : a.toNat ≤ 244 := UInt8.le_iff_toNat_le.1 ha'
  obtain ⟨hb, hshort⟩ := le_of_low (by decide) hb
  obtain ⟨hb', hlast⟩ := le_of_high (by decide) hb'
  have hshort : a.toNat = 240 → 144 ≤ b.toNat := hshort
  have hlast : a.toNat = 244 → b.toNat ≤ 143 := hlast
  rw [encode_ofNat (.inr ⟨by omega, by omega⟩), if_neg (by omega), if_neg (by omega), if_neg (by omega)]
  rw [ofNat_eq (a := a) (by omega), ofNat_eq (a := b) (by omega), ofNat_eq (a := c) (by omega),
    ofNat_eq (a := d) (by omega)]

/-- The bytes that are read as a character are its encoding. -/
theorem encode_front {a : UInt8} {rest : List UInt8} {c : Char} (h : (front a rest).1 = some c) :
    String.utf8EncodeChar c = a :: rest.take ((front a rest).2 - 1) := by
  by_cases ha : a < 0x80
  · rw [front_ascii ha] at h ⊢
    obtain rfl := Option.some.inj h
    rw [encode_ascii ha]
    rfl
  · rcases rest with _ | ⟨x, rest⟩
    · simp [front, ha] at h
    · cases h2 : char2? a x with
      | some ch =>
        have hfront : front a (x :: rest) = (some ch, 2) := by simp [front, ha, h2]
        rw [hfront] at h ⊢
        obtain rfl := Option.some.inj h
        rw [encode_char2 h2]
        rfl
      | none =>
        rcases rest with _ | ⟨y, rest⟩
        · simp [front, ha, h2] at h
        · cases h3 : char3? a x y with
          | some ch =>
            have hfront : front a (x :: y :: rest) = (some ch, 3) := by simp [front, ha, h2, h3]
            rw [hfront] at h ⊢
            obtain rfl := Option.some.inj h
            rw [encode_char3 h3]
            rfl
          | none =>
            rcases rest with _ | ⟨z, rest⟩
            · simp [front, ha, h2, h3] at h
            · cases h4 : char4? a x y z with
              | some ch =>
                have hfront : front a (x :: y :: z :: rest) = (some ch, 4) := by
                  simp [front, ha, h2, h3, h4]
                rw [hfront] at h ⊢
                obtain rfl := Option.some.inj h
                rw [encode_char4 h4]
                rfl
              | none => simp [front, ha, h2, h3, h4] at h

/-- Where nothing is replaced, the characters encode the bytes. -/
theorem encode_decodeFrom {skip : Nat} {bs : List UInt8} (h : (decodeFrom skip bs).all fun p => p.1.isSome) :
    ((decodeFrom skip bs).map fun p => p.1.getD replacement).flatMap String.utf8EncodeChar = bs.drop skip := by
  induction bs generalizing skip with
  | nil => simp [decodeFrom]
  | cons a bs ih =>
    cases skip with
    | succ skip => exact ih h
    | zero =>
      rw [decodeFrom, all_cons, Bool.and_eq_true] at h
      obtain ⟨c, hc⟩ := Option.isSome_iff_exists.1 h.1
      rw [decodeFrom, map_cons, flatMap_cons, ih h.2, hc, Option.getD_some, encode_front hc,
        cons_append, take_append_drop, drop_zero]

/-- **A well-formed text is the encoding of its characters.** -/
theorem ofChars_chars {t : Text} (h : t.isUtf8) : ofChars t.chars = t := by
  have hbytes := encode_decodeFrom h
  rw [drop_zero] at hbytes
  exact congrArg Text.mk hbytes

theorem isUtf8_of_ascii {t : Text} (h : ∀ b ∈ t.bytes, b < 0x80) : t.isUtf8 := by
  obtain ⟨bs⟩ := t
  show (decodeFrom 0 bs).all _ = true
  induction bs with
  | nil => rfl
  | cons a bs ih =>
    obtain ⟨ha, hbs⟩ := List.forall_mem_cons.1 h
    rw [decodeFrom, front_ascii ha, all_cons]
    exact ih hbs

/-! ## Reading an encoding -/

theorem between {a low high : UInt8} (h : low.toNat ≤ a.toNat ∧ a.toNat ≤ high.toNat) :
    low ≤ a ∧ a ≤ high :=
  ⟨UInt8.le_iff_toNat_le.2 h.1, UInt8.le_iff_toNat_le.2 h.2⟩

/-- A second byte above the lower of two bounds, and above the higher one where that counts. -/
theorem low_le {a b lead low : UInt8} (hb : 128 ≤ b.toNat) (h : a.toNat = lead.toNat → low.toNat ≤ b.toNat) :
    (if a = lead then low else 0x80) ≤ b := by
  rw [UInt8.le_iff_toNat_le]
  split
  · next heq => exact h (congrArg UInt8.toNat heq)
  · exact hb

theorem le_high {a b lead high : UInt8} (hb : b.toNat ≤ 191)
    (h : a.toNat = lead.toNat → b.toNat ≤ high.toNat) : b ≤ if a = lead then high else 0xBF := by
  rw [UInt8.le_iff_toNat_le]
  split
  · next heq => exact h (congrArg UInt8.toNat heq)
  · exact hb

section Encoded

variable {a b c d : UInt8} {n : Nat}

/-- The two bytes of a character are read as it. -/
theorem char2?_eq (ha : a.toNat = n / 64 % 32 + 192) (hb : b.toNat = n % 64 + 128)
    (hn : 127 < n ∧ n ≤ 2047) : char2? a b = some (Char.ofNat n) := by
  have hlead : (0xC2 : UInt8) ≤ a ∧ a ≤ 0xDF := between (by show 194 ≤ _ ∧ _ ≤ 223; omega)
  have htail : 128 ≤ b.toNat ∧ b.toNat ≤ 191 := by omega
  have hvalue : (a.toNat - 0xC0) * 64 + (b.toNat - 0x80) = n := by omega
  simp [char2?, isTail_iff, hlead, htail, hvalue]

theorem char2?_eq_none (ha : 223 < a.toNat) (b : UInt8) : char2? a b = none := by
  have hlead : ¬ a ≤ 0xDF := fun h => absurd (UInt8.le_iff_toNat_le.1 h) (Nat.not_le.2 ha)
  simp [char2?, hlead]

theorem char3?_eq (ha : a.toNat = n / 4096 % 16 + 224) (hb : b.toNat = n / 64 % 64 + 128)
    (hc : c.toNat = n % 64 + 128) (hn : 2047 < n ∧ n ≤ 65535) (hvalid : n.isValidChar) :
    char3? a b c = some (Char.ofNat n) := by
  have hlead : (0xE0 : UInt8) ≤ a ∧ a ≤ 0xEF := between (by show 224 ≤ _ ∧ _ ≤ 239; omega)
  have hlow : (if a = 0xE0 then 0xA0 else 0x80) ≤ b :=
    low_le (by omega) fun heq => by show 160 ≤ _; change _ = 224 at heq; omega
  have hhigh : b ≤ if a = 0xED then 0x9F else 0xBF := by
    refine le_high (by omega) fun heq => ?_
    show _ ≤ 159
    change _ = 237 at heq
    rcases hvalid with h | ⟨h, -⟩ <;> omega
  have htail : 128 ≤ c.toNat ∧ c.toNat ≤ 191 := by omega
  have hvalue : (a.toNat - 0xE0) * 4096 + (b.toNat - 0x80) * 64 + (c.toNat - 0x80) = n := by omega
  simp [char3?, isTail_iff, hlead, hlow, hhigh, htail, hvalue]

theorem char3?_eq_none (ha : 239 < a.toNat) (b c : UInt8) : char3? a b c = none := by
  have hlead : ¬ a ≤ 0xEF := fun h => absurd (UInt8.le_iff_toNat_le.1 h) (Nat.not_le.2 ha)
  simp [char3?, hlead]

theorem char4?_eq (ha : a.toNat = n / 262144 % 8 + 240) (hb : b.toNat = n / 4096 % 64 + 128)
    (hc : c.toNat = n / 64 % 64 + 128) (hd : d.toNat = n % 64 + 128) (hn : 65535 < n)
    (hvalid : n.isValidChar) : char4? a b c d = some (Char.ofNat n) := by
  have hmax : n < 0x110000 := by rcases hvalid with h | ⟨-, h⟩ <;> omega
  have hlead : (0xF0 : UInt8) ≤ a ∧ a ≤ 0xF4 := between (by show 240 ≤ _ ∧ _ ≤ 244; omega)
  have hlow : (if a = 0xF0 then 0x90 else 0x80) ≤ b :=
    low_le (by omega) fun heq => by show 144 ≤ _; change _ = 240 at heq; omega
  have hhigh : b ≤ if a = 0xF4 then 0x8F else 0xBF :=
    le_high (by omega) fun heq => by show _ ≤ 143; change _ = 244 at heq; omega
  have htail : (128 ≤ c.toNat ∧ c.toNat ≤ 191) ∧ 128 ≤ d.toNat ∧ d.toNat ≤ 191 := by omega
  have hvalue : (a.toNat - 0xF0) * 262144 + (b.toNat - 0x80) * 4096 + (c.toNat - 0x80) * 64
      + (d.toNat - 0x80) = n := by omega
  simp [char4?, isTail_iff, hlead, hlow, hhigh, htail, hvalue]

end Encoded

theorem toNat_ofNat_of_lt {n : Nat} (h : n < 256) : (UInt8.ofNat n).toNat = n := by
  rw [UInt8.toNat_ofNat', Nat.mod_eq_of_lt h]

theorem not_ascii {a : UInt8} (ha : 128 ≤ a.toNat) : ¬ a < 0x80 := fun h =>
  absurd (UInt8.lt_iff_toNat_lt.1 h) (Nat.not_lt.2 ha)

/-- The encoding of a character is read as that character, whatever follows. -/
theorem front_encode (ch : Char) : ∃ a tail, String.utf8EncodeChar ch = a :: tail ∧
    ∀ more, front a (tail ++ more) = (some ch, tail.length + 1) := by
  obtain ⟨n, hvalid, rfl⟩ : ∃ n : Nat, n.isValidChar ∧ ch = Char.ofNat n :=
    ⟨ch.toNat, ch.valid, (Char.ofNat_toNat ch).symm⟩
  have hmax : n < 0x110000 := by rcases hvalid with h | ⟨-, h⟩ <;> omega
  rw [encode_ofNat hvalid]
  split
  · next hn =>
    have hval := toNat_ofNat_of_lt (n := n) (by omega)
    refine ⟨_, _, rfl, fun more => ?_⟩
    rw [front_ascii (UInt8.lt_iff_toNat_lt.2 (by rw [hval]; exact Nat.lt_succ_of_le hn)), hval]
    rfl
  split
  · next hn =>
    have ha := toNat_ofNat_of_lt (n := n / 64 % 32 + 192) (by omega)
    have hb := toNat_ofNat_of_lt (n := n % 64 + 128) (by omega)
    refine ⟨_, _, rfl, fun more => ?_⟩
    simp only [cons_append, front, if_neg (not_ascii (by rw [ha]; omega)), char2?_eq ha hb (by omega)]
    rfl
  split
  · next hn =>
    have ha := toNat_ofNat_of_lt (n := n / 4096 % 16 + 224) (by omega)
    have hb := toNat_ofNat_of_lt (n := n / 64 % 64 + 128) (by omega)
    have hc := toNat_ofNat_of_lt (n := n % 64 + 128) (by omega)
    refine ⟨_, _, rfl, fun more => ?_⟩
    simp only [cons_append, front, if_neg (not_ascii (by rw [ha]; omega)),
      char2?_eq_none (by rw [ha]; omega), char3?_eq ha hb hc (by omega) hvalid]
    rfl
  · have ha := toNat_ofNat_of_lt (n := n / 262144 % 8 + 240) (by omega)
    have hb := toNat_ofNat_of_lt (n := n / 4096 % 64 + 128) (by omega)
    have hc := toNat_ofNat_of_lt (n := n / 64 % 64 + 128) (by omega)
    have hd := toNat_ofNat_of_lt (n := n % 64 + 128) (by omega)
    refine ⟨_, _, rfl, fun more => ?_⟩
    simp only [cons_append, front, if_neg (not_ascii (by rw [ha]; omega)),
      char2?_eq_none (by rw [ha]; omega), char3?_eq_none (by rw [ha]; omega),
      char4?_eq ha hb hc hd (by omega) hvalid]
    rfl

theorem decodeFrom_length (bs more : List UInt8) : decodeFrom bs.length (bs ++ more) = decodeFrom 0 more := by
  induction bs with
  | nil => rfl
  | cons b bs ih => rw [length_cons, cons_append, decodeFrom, ih]

/-- The first character of an encoding is decoded first. -/
theorem decode_ofChars_cons (c : Char) (cs : List Char) (t : Text) :
    ∃ n, (ofChars (c :: cs) ++ t).decode = (some c, n) :: (ofChars cs ++ t).decode := by
  obtain ⟨a, tail, henc, hfront⟩ := front_encode c
  have hbytes : (ofChars (c :: cs) ++ t).bytes = a :: (tail ++ (ofChars cs ++ t).bytes) := by
    simp [ofChars, henc]
  refine ⟨tail.length + 1, ?_⟩
  rw [decode, hbytes, decodeFrom, hfront]
  exact congrArg _ (decodeFrom_length tail _)

/-- What is put behind an encoding is read as if it stood alone. -/
theorem chars_ofChars_append (cs : List Char) (t : Text) : (ofChars cs ++ t).chars = cs ++ t.chars := by
  induction cs with
  | nil => rfl
  | cons c cs ih =>
    obtain ⟨n, hdecode⟩ := decode_ofChars_cons c cs t
    rw [chars, hdecode, map_cons, cons_append, ← ih]
    rfl

/-- Encoding keeps all characters. -/
theorem chars_ofChars (cs : List Char) : (ofChars cs).chars = cs := by
  have happend := chars_ofChars_append cs empty
  rwa [append_empty, show chars empty = [] from rfl, append_nil] at happend

/-- An encoding is well-formed. -/
theorem isUtf8_ofChars (cs : List Char) : (ofChars cs).isUtf8 := by
  induction cs with
  | nil => rfl
  | cons c cs ih =>
    obtain ⟨n, hdecode⟩ := decode_ofChars_cons c cs empty
    rw [append_empty, append_empty] at hdecode
    rw [isUtf8, hdecode, all_cons, Option.isSome_some, Bool.true_and]
    exact ih

/-! ## Stray bytes replaced -/

/-- The text with the replacement character in place of every stray byte. -/
def repair (t : Text) : Text := ofChars t.chars

/-- Nothing needs to be replaced twice. -/
theorem isUtf8_repair (t : Text) : t.repair.isUtf8 := isUtf8_ofChars t.chars

/-- Only well-formed texts are left as they are. -/
theorem repair_eq_iff {t : Text} : t.repair = t ↔ t.isUtf8 :=
  ⟨fun h => h ▸ isUtf8_repair t, ofChars_chars⟩

end TinyScript.Text
