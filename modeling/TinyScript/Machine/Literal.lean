import TinyScript.Binary64.Read
import TinyScript.Heap.Object
import TinyScript.Text.Quoted

/-!
# Literals

The objects that literals stand for. A number with a point is a floating point number, one that ends in
`u` an unsigned integer, and any other a signed integer.
-/

namespace TinyScript.Literal

/-- The number with the given decimal digits, of which there must be one. -/
def digits? (bs : List UInt8) : Option Nat :=
  if bs.isEmpty || !bs.all fun b => 48 ≤ b && b ≤ 57 then none
  else some (bs.foldl (fun n b => n * 10 + (b.toNat - 48)) 0)

/-- An integer with an optional sign. -/
def integer? (t : Text) : Option Int :=
  match t.bytes with
  | 43 :: ds => (digits? ds).map Int.ofNat
  | 45 :: ds => (digits? ds).map fun n => -(n : Int)
  | ds => (digits? ds).map Int.ofNat

/-- A signed integer of 64 bits. -/
def i64? (t : Text) : Option Object := do
  let i ← integer? t
  if -0x8000000000000000 ≤ i && i < 0x8000000000000000 then some (.ofInt i) else none

/-- An unsigned integer of 64 bits. -/
def u64? (bs : List UInt8) : Option Object := do
  let n ← digits? bs
  if n < 0x10000000000000000 then some (.u64 n.toUInt64) else none

/-- The number that a text spells. -/
def number? (t : Text) : Option Object :=
  if t.bytes.contains 46 then (Binary64.read? t).map .f64
  else if t.endsWithByte 117 then u64? t.bytes.dropLast
  else i64? t

end TinyScript.Literal
