import TinyScript.Data.Datum
import TinyScript.Text.Utf8

/-!
# Writing JSON

No blanks, map keys in the order of their bytes. Characters that could end a script element or a line
are written as escapes, and so is each byte that is no part of a character. A number that is not
finite is written as `null`.
-/

namespace TinyScript.Data.Json

/-- How a floating point number is laid out. -/
structure FloatLayout where
  /-- The word of the least magnitude written without exponent. -/
  plainFrom : UInt64
  /-- The word of the least magnitude above that which has an exponent again. -/
  plainBelow : UInt64
  /-- Integers below this power of two have a decimal. -/
  pointedBits : Nat

/-- No exponent from a millionth up to `10 ^ 21`; integers of at most fifty-two bits keep a `.0`. -/
def floatLayout : FloatLayout := ⟨0x3EB0C6F7A0B5ED8D, 0x444B1AE4D6E2EF50, 52⟩

def float (w : UInt64) : Text :=
  if Binary64.isNaN w || Binary64.isInfinite w then "null"
  else
    let magnitude := w &&& 0x7FFFFFFFFFFFFFFF
    let d := Binary64.shortest w
    let digits : Text :=
      if magnitude = 0 then "0.0"
      else if magnitude < floatLayout.plainFrom || floatLayout.plainBelow ≤ magnitude then d.scientific
      else if 0 ≤ d.exponent && Binary64.exponentField w < 1023 + floatLayout.pointedBits then
        d.positional ++ ".0"
      else d.positional
    Binary64.signText w ++ digits

/-- A character inside a string. -/
def escape (c : Char) : Text :=
  if c = '"' then "\\\""
  else if c = '\\' then "\\\\"
  else if c = '\n' then "\\n"
  else if c = '\r' then "\\r"
  else if c = '\t' then "\\t"
  else if c = '\x08' then "\\b"
  else if c = '\x0c' then "\\f"
  else if c.toNat < 0x20 || c = '<' || c = '>' || c = '&' then "\\u" ++ Text.ofHex 4 c.toNat
  else if c.toNat = 0x2028 || c.toNat = 0x2029 then "\\u" ++ Text.ofHex 4 c.toNat
  else Text.ofChars [c]

/-- A string; a stray byte is written as the escape of the replacement character. -/
def string (t : Text) : Text :=
  "\"" ++ Text.concat (t.decode.map fun p => p.1.elim "\\uFFFD" escape) ++ "\""

mutual

/-- A datum as JSON. -/
def write : Datum → Text
  | .null => "null"
  | .bool b => Text.ofBool b
  | .int i => Text.ofInt i.toInt
  | .uint n => Text.ofNat n.toNat
  | .float w => float w
  | .text t => string t
  | .list items => "[" ++ Text.join "," (writeItems items) ++ "]"
  | .map entries => "\x7b" ++ Text.join "," (writeEntries entries) ++ "\x7d"
  | .foreign _ => "null"

def writeItems : List Datum → List Text
  | [] => []
  | d :: ds => write d :: writeItems ds

def writeEntries : List (Text × Datum) → List Text
  | [] => []
  | (k, d) :: ds => (string k ++ ":" ++ write d) :: writeEntries ds

end

end TinyScript.Data.Json
