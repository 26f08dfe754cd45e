import TinyScript.Data.Datum
import TinyScript.Data.MessagePack.Reader

/-!
# Plain data as MessagePack

`write` gives every datum its natural item, maps in the order of their keys. `read` takes such items
back; it knows integers only as signed ones, so an unsigned number from half the range up comes back
negative, and it follows lists and maps at most `maxDepth - 1` deep.
-/

namespace TinyScript.Data.MessagePack

mutual

/-- A datum as an item. -/
def write : Datum → Text
  | .null => writeNil
  | .bool b => writeBool b
  | .int i => writeInt i.toUInt64
  | .uint n => writeUint n
  | .float w => writeFloat w
  | .text t => writeString t
  | .list items => arrayHeader items.length ++ Text.concat (writeItems items)
  | .map entries => mapHeader entries.length ++ Text.concat (writeEntries entries)
  | .foreign _ => writeNil

def writeItems : List Datum → List Text
  | [] => []
  | d :: ds => write d :: writeItems ds

def writeEntries : List (Text × Datum) → List Text
  | [] => []
  | (k, d) :: ds => (writeString k ++ write d) :: writeEntries ds

end

/-- A list or map this deep inside others is refused. -/
def maxDepth : Nat := 1024

/-- Why a datum cannot be read. -/
inductive PlainError where
  | item (e : ReadError)
  /-- A list or map is too deep inside others; this many bytes follow its header. -/
  | tooDeep (left : Nat)
  deriving DecidableEq, Inhabited, Repr

/-- An error in words, for a text of `size` bytes. -/
def PlainError.message (size : Nat) : PlainError → Text
  | item e => e.message
  | tooDeep left =>
    "msgpack decode error [pos " ++ Text.ofNat (size - left) ++ "]: maximum decoding depth exceeded"

/-- A datum or a part of one and the bytes that follow it, or an error. -/
abbrev PlainRead (α : Type) := StateT (List UInt8) (Except PlainError) α

def PlainRead.ofItem {α : Type} (item : Read α) : PlainRead α := fun bs => (item.run bs).mapError .item

/-- The items of an array of length `n`. -/
def readItems (item : PlainRead Datum) : Nat → List Datum → PlainRead (List Datum)
  | 0, acc => return acc.reverse
  | n + 1, acc => do
    let d ← item
    readItems item n (d :: acc)

/-- The entries of a map of length `n`. -/
def readEntries (item : PlainRead Datum) : Nat → List (Text × Datum) → PlainRead (List (Text × Datum))
  | 0, acc => return acc
  | n + 1, acc => do
    let key ← PlainRead.ofItem (Source.string .memory)
    let d ← item
    readEntries item n (Datum.insert key d acc)

/-- The next datum, with lists and maps nested at most `room` deep. -/
def readWithin (room : Nat) : PlainRead Datum := do
  match ← get with
  | [] => throw (.item .tooShort)
  | b :: _ =>
    match Lead.ofByte b with
    | .few .map _ | .many .map _ =>
      let n ← PlainRead.ofItem (Source.map .memory)
      match room with
      | 0 => throw (.tooDeep (← get).length)
      | room + 1 => return .map (← readEntries (readWithin room) n [])
    | .few .array _ | .many .array _ =>
      let n ← PlainRead.ofItem (Source.array .memory)
      match room with
      | 0 => throw (.tooDeep (← get).length)
      | room + 1 => return .list (← readItems (readWithin room) n [])
    | .fixstr _ | .str _ => return .text (← PlainRead.ofItem (Source.string .memory))
    | .nil =>
      PlainRead.ofItem (Source.nothing .memory)
      return .null
    | .bool _ => return .bool (← PlainRead.ofItem (Source.bool .memory))
    | .float32 | .float64 => return .float (← PlainRead.ofItem (Source.float .memory))
    | .uint _ => return .int (Int64.ofNat (← PlainRead.ofItem (Source.uint .memory)))
    | .fixint _ | .int _ | .negint _ =>
      return .int (Int64.ofInt (← PlainRead.ofItem (Source.int .memory)))
    | .unused | .bin _ | .ext => throw (.item (.badLead b))

/-- The datum at the front of a text. -/
def read (t : Text) : Except PlainError Datum :=
  ((readWithin (maxDepth - 1)).run t.bytes).map Prod.fst

end TinyScript.Data.MessagePack
