import TinyScript.Text.Basic

/-!
# The MessagePack format

An item begins with a byte that gives its class and, for short items, its content or its length. Longer
items have a payload, or a length, of one, two, four or eight bytes behind that byte, most significant
byte first. This module takes the first byte apart and writes headers and scalars in their shortest
forms.
-/

namespace TinyScript.Data.MessagePack

/-- What is made of other items. -/
inductive Shape where
  | array
  | map
  deriving DecidableEq, Inhabited, Repr

def Shape.name : Shape → Text
  | array => "array"
  | map => "map"

/-- What the first byte of an item says. -/
inductive Lead where
  | fixint (n : Nat)
  | few (shape : Shape) (n : Nat)
  | fixstr (n : Nat)
  | nil
  | unused
  | bool (b : Bool)
  /-- Binary data whose length has so many bytes. -/
  | bin (width : Nat)
  | ext
  | float32
  | float64
  | uint (width : Nat)
  | int (width : Nat)
  | str (width : Nat)
  /-- Items whose number has so many bytes. -/
  | many (shape : Shape) (width : Nat)
  /-- A small negative number, given by its distance from zero. -/
  | negint (n : Nat)
  deriving DecidableEq, Inhabited, Repr

/-- The class of a first byte. -/
def Lead.ofByte (b : UInt8) : Lead :=
  if b < 0x80 then .fixint b.toNat
  else if b < 0x90 then .few .map (b.toNat - 0x80)
  else if b < 0xa0 then .few .array (b.toNat - 0x90)
  else if b < 0xc0 then .fixstr (b.toNat - 0xa0)
  else
    match b.toNat with
    | 0xc0 => .nil
    | 0xc1 => .unused
    | 0xc2 => .bool false
    | 0xc3 => .bool true
    | 0xc4 => .bin 1
    | 0xc5 => .bin 2
    | 0xc6 => .bin 4
    | 0xca => .float32
    | 0xcb => .float64
    | 0xcc => .uint 1
    | 0xcd => .uint 2
    | 0xce => .uint 4
    | 0xcf => .uint 8
    | 0xd0 => .int 1
    | 0xd1 => .int 2
    | 0xd2 => .int 4
    | 0xd3 => .int 8
    | 0xd9 => .str 1
    | 0xda => .str 2
    | 0xdb => .str 4
    | 0xdc => .many .array 2
    | 0xdd => .many .array 4
    | 0xde => .many .map 2
    | 0xdf => .many .map 4
    | n => if n < 0xe0 then .ext else .negint (0x100 - n)

/-- The name of the class of an item, if the byte begins one. -/
def Lead.typeName? : Lead → Option Text
  | fixint _ | int _ | negint _ => some "int"
  | few shape _ | many shape _ => some shape.name
  | fixstr _ | str _ => some "str"
  | nil => some "nil"
  | unused => none
  | bool _ => some "bool"
  | bin _ => some "bin"
  | ext => some "ext"
  | float32 => some "float32"
  | float64 => some "float64"
  | uint _ => some "uint"

/-! ## Writing -/

/-- The lowest `width` bytes of a number, most significant first. -/
def bigEndian : Nat → Nat → List UInt8
  | 0, _ => []
  | width + 1, n => (n / Nat.pow 256 width).toUInt8 :: bigEndian width n

/-- A first byte and a number of so many bytes. -/
def tagged (lead : UInt8) (width n : Nat) : Text := ⟨lead :: bigEndian width n⟩

def writeNil : Text := ⟨[0xc0]⟩

def writeBool (b : Bool) : Text := ⟨[if b then 0xc3 else 0xc2]⟩

def writeUint (w : UInt64) : Text :=
  let n := w.toNat
  if n < 0x80 then ⟨[n.toUInt8]⟩
  else if n < 0x100 then tagged 0xcc 1 n
  else if n < 0x10000 then tagged 0xcd 2 n
  else if n < 0x100000000 then tagged 0xce 4 n
  else tagged 0xcf 8 n

/-- A signed number, in the shortest of the signed forms. -/
def writeInt (w : UInt64) : Text :=
  let n := w.toNat
  let i := w.toInt64.toInt
  if -32 ≤ i && i < 0x80 then ⟨[n.toUInt8]⟩
  else if -0x80 ≤ i && i < 0x80 then tagged 0xd0 1 n
  else if -0x8000 ≤ i && i < 0x8000 then tagged 0xd1 2 n
  else if -0x80000000 ≤ i && i < 0x80000000 then tagged 0xd2 4 n
  else tagged 0xd3 8 n

def writeFloat (w : UInt64) : Text := tagged 0xcb 8 w.toNat

/-- The header of a string of `n` bytes. -/
def stringHeader (n : Nat) : Text :=
  if n < 32 then ⟨[(0xa0 + n).toUInt8]⟩
  else if n < 0x100 then tagged 0xd9 1 n
  else if n < 0x10000 then tagged 0xda 2 n
  else tagged 0xdb 4 n

def writeString (t : Text) : Text := stringHeader t.size ++ t

/-- The first bytes of headers, for a number that is part of the byte, one of two bytes and one of four. -/
def Shape.leads : Shape → Nat × UInt8 × UInt8
  | array => (0x90, 0xdc, 0xdd)
  | map => (0x80, 0xde, 0xdf)

/-- The header of an array of `n` items, or a map of `n` entries. -/
def Shape.header (shape : Shape) (n : Nat) : Text :=
  if n < 16 then ⟨[(shape.leads.1 + n).toUInt8]⟩
  else if n < 0x10000 then tagged shape.leads.2.1 2 n
  else tagged shape.leads.2.2 4 n

abbrev arrayHeader := Shape.array.header

abbrev mapHeader := Shape.map.header

/-! ## Numbers behind the first byte -/

/-- The number with the given bytes, most significant first. -/
def natOfBytes (bs : List UInt8) : Nat := bs.foldl (fun n b => n * 256 + b.toNat) 0

/-- The first `width` bytes as a number, and what follows them. -/
def takeNat? (width : Nat) (bs : List UInt8) : Option (Nat × List UInt8) :=
  if bs.length < width then none else some (natOfBytes (bs.take width), bs.drop width)

/-- A number of `width` bytes read as a signed one. -/
def signed (width n : Nat) : Int := if n < Nat.pow 256 width / 2 then n else (n : Int) - Nat.pow 256 width

end TinyScript.Data.MessagePack
