import TinyScript.Data.MessagePack.Format
import TinyScript.Binary64.Basic

/-!
# Reading MessagePack items

Two readers of items are in use, one for bytes in memory and one for files. They agree on well-formed
items and differ in what else they take. In memory an unsigned number may be written in a signed form
and the other way round. A file may hold nil in place of any item, and takes numbers only in the forms
of their own kind. They also name a lack of bytes differently.
-/

namespace TinyScript.Data.MessagePack

/-- Where items are read from. -/
inductive Source where
  | memory
  | file
  deriving DecidableEq, Inhabited, Repr

/-- What an item was needed for. -/
inductive Wanted where
  | items (shape : Shape)
  | uint
  | int
  | float64
  | nil
  | bool
  | str
  deriving DecidableEq, Inhabited, Repr

def Wanted.name : Wanted → Text
  | items shape => shape.name
  | uint => "uint"
  | int => "int"
  | float64 => "float64"
  | nil => "nil"
  | bool => "bool"
  | str => "str"

/-- Why an item cannot be read. -/
inductive ReadError where
  | tooShort
  /-- The file ends where an item should begin. -/
  | endOfFile
  | cutOff
  | mismatch (found : Text) (wanted : Wanted)
  | badLead (b : UInt8)
  /-- A negative number where an unsigned one is needed. -/
  | negative (i : Int)
  | overflow (n bits : Nat)
  deriving DecidableEq, Inhabited, Repr

def ReadError.message : ReadError → Text
  | tooShort => "msgp: too few bytes left to read object"
  | endOfFile => "EOF"
  | cutOff => "unexpected EOF"
  | mismatch found wanted =>
    "msgp: attempted to decode type \"" ++ found ++ "\" with method for \"" ++ wanted.name ++ "\""
  | badLead b => "msgp: unrecognized type prefix 0x" ++ Text.ofHex 1 b.toNat
  | negative i => "msgp: attempted to cast int " ++ Text.ofInt i ++ " to unsigned"
  | overflow n bits => "msgp: " ++ Text.ofNat n ++ " overflows uint" ++ Text.ofNat bits

/-- A value and the bytes that follow it, or an error. -/
abbrev Read (α : Type) := StateT (List UInt8) (Except ReadError) α

namespace Source

/-- The error of bytes that end inside an item. -/
def cutOff : Source → ReadError
  | memory => .tooShort
  | file => .cutOff

/-- The error of bytes that end where an item should begin. -/
def ended : Source → ReadError
  | memory => .tooShort
  | file => .endOfFile

/-- The error of an item of the wrong class. -/
def wrong (b : UInt8) (wanted : Wanted) : ReadError :=
  match (Lead.ofByte b).typeName? with
  | some found => .mismatch found wanted
  | none => .badLead b

/-- The first byte of the next item, which is taken. -/
def lead (s : Source) : Read UInt8 := do
  match ← get with
  | [] => throw s.ended
  | b :: bs =>
    set bs
    return b

/-- A number of so many bytes. If there are fewer, that is an error, which is given. -/
def nat (short : ReadError) (width : Nat) : Read Nat := do
  match takeNat? width (← get) with
  | none => throw short
  | some (n, bs) =>
    set bs
    return n

def bytes (s : Source) (n : Nat) : Read Text := do
  let bs ← get
  if bs.length < n then throw s.cutOff
  set (bs.drop n)
  return ⟨bs.take n⟩

/-- The number of items of an array, or of entries of a map. -/
def count (s : Source) (shape : Shape) : Read Nat := do
  let b ← s.lead
  match Lead.ofByte b with
  | .few found n => if found = shape then return n else throw (wrong b (.items shape))
  | .many found width => if found = shape then nat s.cutOff width else throw (wrong b (.items shape))
  | .nil => if s = .file then return 0 else throw (wrong b (.items shape))
  | _ => throw (wrong b (.items shape))

abbrev array (s : Source) : Read Nat := s.count .array

abbrev map (s : Source) : Read Nat := s.count .map

def nothing (s : Source) : Read Unit := do
  let b ← s.lead
  match Lead.ofByte b with
  | .nil => return ()
  | _ => throw (wrong b .nil)

def bool (s : Source) : Read Bool := do
  let b ← s.lead
  match Lead.ofByte b with
  | .bool v => return v
  | .nil => if s = .file then return false else throw (wrong b .bool)
  | _ => throw (wrong b .bool)

/-- An unsigned number. In memory a signed form will do if the number is not negative. -/
def uint (s : Source) : Read Nat := do
  let b ← s.lead
  match s, Lead.ofByte b with
  | _, .fixint n => return n
  | s, .uint width => nat s.cutOff width
  | .file, .nil => return 0
  | .memory, .int width => natural (signed width (← nat (cutOff .memory) width))
  | .memory, .negint n => natural (-(n : Int))
  | _, _ => throw (wrong b .uint)
where
  natural (i : Int) : Read Nat := if i < 0 then throw (.negative i) else return i.toNat

/-- An unsigned number of 8 bits. -/
def tag (s : Source) : Read Nat := do
  let n ← s.uint
  if n > 255 then throw (.overflow n 8)
  return n

/-- A signed number. In memory an unsigned form will do if the number is small enough. -/
def int (s : Source) : Read Int := do
  let b ← s.lead
  match s, Lead.ofByte b with
  | _, .fixint n => return n
  | _, .negint n => return -(n : Int)
  | s, .int width => return signed width (← nat s.cutOff width)
  | .file, .nil => return 0
  | .memory, .uint width =>
    let n ← nat (cutOff .memory) width
    if n ≥ 0x8000000000000000 then throw (.overflow n 64)
    return n
  | _, _ => throw (wrong b .int)

/-- The word of a floating point number of 32 bits, given by its own word. -/
def widen (n : Nat) : UInt64 :=
  let negative : Bool := n / 0x80000000 % 2 = 1
  let exponent : Nat := n / 0x800000 % 256
  let fraction : Nat := n % 0x800000
  if exponent = 255 then
    let quiet := if fraction = 0 then 0 else 0x8000000000000
    Binary64.withSign negative (0x7FF * Binary64.hiddenBit + (fraction * 0x20000000 ||| quiet)).toUInt64
  else if exponent = 0 then Binary64.withSign negative (Binary64.ofScaled false fraction (-149))
  else
    Binary64.withSign negative (Binary64.ofScaled false (0x800000 + fraction) ((exponent : Int) - 150))

/-- A floating point number. Unless it is one of 32 bits it is looked at only when nine bytes are
left. -/
def float (s : Source) : Read UInt64 := do
  let b ← s.lead
  if Lead.ofByte b = .float32 then return widen (← nat s.ended 4)
  if s = .file && Lead.ofByte b = .nil then return 0
  let n ← nat s.ended 8
  if Lead.ofByte b = .float64 then return n.toUInt64
  throw (wrong b .float64)

def string (s : Source) : Read Text := do
  let b ← s.lead
  match s, Lead.ofByte b with
  | s, .fixstr n => s.bytes n
  | s, .str width => s.bytes (← nat s.cutOff width)
  | .file, .nil => return Text.empty
  | .memory, .unused => throw (.mismatch "<invalid>" .str)
  | _, _ => throw (wrong b .str)

end Source

end TinyScript.Data.MessagePack
