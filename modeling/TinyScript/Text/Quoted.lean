import TinyScript.Text.Utf8
import TinyScript.Text.Graphic

/-!
# Quoted text

`quote` and `quoteChar` write a text between double quotes and a character between single quotes, with an escape for
whatever does not show. `unquote?` reads a literal back: double quotes with escapes, single quotes around one character,
or backquotes around raw text. `unquote` never fails, because a literal that is not well-formed loses its first and last
byte and is otherwise taken as it stands.
-/

namespace TinyScript.Text

/-! ## Writing -/

/-- The letter that stands for a control character after a backslash. -/
def escapeLetter? : Char → Option Char
  | '\x07' => some 'a'
  | '\x08' => some 'b'
  | '\x0c' => some 'f'
  | '\n' => some 'n'
  | '\r' => some 'r'
  | '\t' => some 't'
  | '\x0b' => some 'v'
  | _ => none

/-- A character inside quotes of the given kind. -/
def escapeChar (mark c : Char) : Text :=
  if c = mark || c = '\\' then ofChars ['\\', c]
  else if isGraphic c then ofChars [c]
  else
    match escapeLetter? c with
    | some l => ofChars ['\\', l]
    | none =>
      if c.toNat < 0x20 || c.toNat = 0x7F then "\\x" ++ ofHex 2 c.toNat
      else if c.toNat < 0x10000 then "\\u" ++ ofHex 4 c.toNat
      else "\\U" ++ ofHex 8 c.toNat

/-- A character between single quotes. -/
def quoteChar (c : Char) : Text := "'" ++ escapeChar '\'' c ++ "'"

/-- Escape the bytes of a text; `skip` counts bytes that belong to the character before. -/
def escapeFrom : Nat → List UInt8 → List Text
  | _, [] => []
  | skip + 1, _ :: rest => escapeFrom skip rest
  | 0, a :: rest =>
    match front a rest with
    | (some c, n) => escapeChar '"' c :: escapeFrom (n - 1) rest
    | (none, _) => ("\\x" ++ ofHex 2 a.toNat) :: escapeFrom 0 rest

/-- A text between double quotes; a stray byte is written in base sixteen. -/
def quote (t : Text) : Text := "\"" ++ concat (escapeFrom 0 t.bytes) ++ "\""

/-! ## Reading -/

/-- The value of a digit in bases up to sixteen. -/
def digitValue? (b : UInt8) : Option Nat :=
  if 48 ≤ b && b ≤ 57 then some (b.toNat - 48)
  else if 97 ≤ b && b ≤ 102 then some (b.toNat - 87)
  else if 65 ≤ b && b ≤ 70 then some (b.toNat - 55)
  else none

/-- Read exactly `n` digits of a base, on top of a value read so far. -/
def digits? (base : Nat) : Nat → Nat → List UInt8 → Option (Nat × List UInt8)
  | 0, v, bs => some (v, bs)
  | _ + 1, _, [] => none
  | n + 1, v, b :: bs =>
    match digitValue? b with
    | some d => if d < base then digits? base n (v * base + d) bs else none
    | none => none

/-- The escape behind a backslash: its bytes and what follows. -/
def escape? (mark : UInt8) (c : UInt8) (bs : List UInt8) : Option (List UInt8 × List UInt8) :=
  if c = 97 then some ([7], bs)
  else if c = 98 then some ([8], bs)
  else if c = 102 then some ([12], bs)
  else if c = 110 then some ([10], bs)
  else if c = 114 then some ([13], bs)
  else if c = 116 then some ([9], bs)
  else if c = 118 then some ([11], bs)
  else if c = 92 then some ([92], bs)
  else if c = 120 then (digits? 16 2 0 bs).map fun (v, rest) => ([v.toUInt8], rest)
  else if c = 117 then unicode? 4
  else if c = 85 then unicode? 8
  else if 48 ≤ c && c ≤ 55 then
    match digits? 8 2 (c.toNat - 48) bs with
    | some (v, rest) => if v ≤ 255 then some ([v.toUInt8], rest) else none
    | none => none
  else if (c = 34 || c = 39) && c = mark then some ([c], bs)
  else none
where
  unicode? (n : Nat) : Option (List UInt8 × List UInt8) :=
    match digits? 16 n 0 bs with
    | some (v, rest) =>
      if h : v.isValidChar then some (String.utf8EncodeChar (Char.ofNatAux v h), rest) else none
    | none => none

/-- One character of a quoted literal: its bytes and what follows. A newline or a closing quote is
none, and a stray byte is read as the replacement character. -/
def unescape? (mark : UInt8) : List UInt8 → Option (List UInt8 × List UInt8)
  | [] => none
  | a :: bs =>
    if a = mark || a = 10 then none
    else if a = 92 then
      match bs with
      | [] => none
      | c :: bs => escape? mark c bs
    else if a < 0x80 then some ([a], bs)
    else
      match front a bs with
      | (some _, n) => some (a :: bs.take (n - 1), bs.drop (n - 1))
      | (none, _) => some (String.utf8EncodeChar replacement, bs)

/-- Read characters up to a closing quote, which must be the last byte. At most `fuel` characters are
read; `acc` holds the bytes read so far, last first. -/
def unescapeAll? (mark : UInt8) : Nat → List UInt8 → List UInt8 → Option (List UInt8)
  | fuel, acc, bs =>
    if bs = [mark] then some acc.reverse
    else
      match fuel with
      | 0 => none
      | fuel + 1 =>
        match unescape? mark bs with
        | some (cs, rest) => unescapeAll? mark fuel (cs.reverse ++ acc) rest
        | none => none

/-- The text that a literal stands for, if it is a well-formed literal. -/
def unquote? (t : Text) : Option Text :=
  match t.bytes with
  | [] => none
  | [_] => none
  | a :: bs =>
    if a = 34 then (unescapeAll? 34 bs.length [] bs).map Text.mk
    else if a = 39 then (unescapeAll? 39 1 [] bs).map Text.mk
    else if a = 96 then
      if bs.dropWhile (· ≠ 96) = [96] then
        some ⟨(bs.takeWhile (· ≠ 96)).filter (· ≠ 13)⟩
      else none
    else none

/-- The text that a string literal stands for. What is not a well-formed literal loses its first and
last byte, and a single byte stands for itself. -/
def unquote (t : Text) : Text :=
  if t.size < 2 then t
  else (unquote? t).getD ⟨t.bytes.tail.dropLast⟩

end TinyScript.Text
