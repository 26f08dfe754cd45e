import TinyScript.Text.Basic

/-!
# UTF-8

Reading a text as characters. A byte that begins no well-formed sequence stands alone: it is read as
no character, and reading goes on behind it. Well-formed means shortest form, no surrogates, nothing
above U+10FFFF, so that a well-formed text is the encoding of exactly one sequence of characters.
-/

namespace TinyScript.Text

/-- Whether a byte is a continuation byte. -/
def isTail (b : UInt8) : Bool := 0x80 ≤ b && b ≤ 0xBF

/-- The two-byte character of a lead byte and a continuation byte. -/
def char2? (a b : UInt8) : Option Char :=
  if 0xC2 ≤ a && a ≤ 0xDF && isTail b then
    some (Char.ofNat ((a.toNat - 0xC0) * 64 + (b.toNat - 0x80)))
  else none

/-- The three-byte character of a lead byte and two continuation bytes. -/
def char3? (a b c : UInt8) : Option Char :=
  let low : UInt8 := if a = 0xE0 then 0xA0 else 0x80
  let high : UInt8 := if a = 0xED then 0x9F else 0xBF
  if 0xE0 ≤ a && a ≤ 0xEF && low ≤ b && b ≤ high && isTail c then
    some (Char.ofNat ((a.toNat - 0xE0) * 4096 + (b.toNat - 0x80) * 64 + (c.toNat - 0x80)))
  else none

/-- The four-byte character of a lead byte and three continuation bytes. -/
def char4? (a b c d : UInt8) : Option Char :=
  let low : UInt8 := if a = 0xF0 then 0x90 else 0x80
  let high : UInt8 := if a = 0xF4 then 0x8F else 0xBF
  if 0xF0 ≤ a && a ≤ 0xF4 && low ≤ b && b ≤ high && isTail c && isTail d then
    some (Char.ofNat ((a.toNat - 0xF0) * 262144 + (b.toNat - 0x80) * 4096
      + (c.toNat - 0x80) * 64 + (d.toNat - 0x80)))
  else none

/-- The character at the front of a byte sequence, and how many bytes it takes. A byte that begins no
character takes one byte and gives none. -/
def front (a : UInt8) (rest : List UInt8) : Option Char × Nat :=
  if a < 0x80 then (some (Char.ofNat a.toNat), 1)
  else
    match rest with
    | [] => (none, 1)
    | b :: rest =>
      match char2? a b with
      | some ch => (some ch, 2)
      | none =>
        match rest with
        | [] => (none, 1)
        | c :: rest =>
          match char3? a b c with
          | some ch => (some ch, 3)
          | none =>
            match rest with
            | [] => (none, 1)
            | d :: _ =>
              match char4? a b c d with
              | some ch => (some ch, 4)
              | none => (none, 1)

/-- Reads the bytes left over after `skip` bytes already taken by the character before. -/
def decodeFrom : Nat → List UInt8 → List (Option Char × Nat)
  | _, [] => []
  | skip + 1, _ :: rest => decodeFrom skip rest
  | 0, a :: rest =>
    let f := front a rest
    f :: decodeFrom (f.2 - 1) rest

/-- The characters of a text, each with the number of its bytes; a stray byte is no character. -/
def decode (t : Text) : List (Option Char × Nat) := decodeFrom 0 t.bytes

/-- Whether the text is well-formed UTF-8. -/
def isUtf8 (t : Text) : Bool := t.decode.all fun p => p.1.isSome

/-- What a stray byte is read as. -/
def replacement : Char := '�'

/-- The characters of a text, a stray byte being read as the replacement character. -/
def chars (t : Text) : List Char := t.decode.map fun p => p.1.getD replacement

/-- The text as a string, if it is well-formed. -/
def toString? (t : Text) : Option String := if t.isUtf8 then some (String.ofList t.chars) else none

end TinyScript.Text
