import TinyScript.Data.MessagePack.Reader
import TinyScript.Host.Stream
import TinyScript.Machine.Collect

/-!
# Values as typed MessagePack

The packed form of a value is an array of its kind's number and a payload. The payload of a scalar is the item of its
own class, that of a pair an array of two packed values, that of a list an array, and that of a dict a map from its
keys, in the order of its table. `Machine.pack` makes the form in memory and `Act.save` writes it to a file, piece by
piece. `Act.unpack` reads it from memory, where nothing may follow, and `Act.load` from a file, where anything may.
-/

namespace TinyScript

open Data

/-- Why a value has no packed form. -/
inductive PackError where
  | function
  | cyclic (kind : Kind)
  | kind (kind : Kind)
  deriving DecidableEq, Inhabited, Repr

def PackError.message : PackError → Text
  | function => "cannot encode a function"
  | cyclic k => "cannot encode a " ++ k.name ++ " that contains itself"
  | kind k => "cannot encode " ++ k.name

namespace Machine

/-- The packed form of a value, below the containers of `path`. -/
def packWithin (m : Machine) : Nat → List Ref → Ref → Except PackError Text
  | 0, _, r => .error (.cyclic (m.kind r))
  | fuel + 1, path, r =>
    let part := m.packWithin fuel (r :: path)
    let o := m.object r
    let front := MessagePack.arrayHeader 2 ++ MessagePack.writeUint o.kind.code.toUInt64
    let guarded (body : Unit → Except PackError Text) : Except PackError Text :=
      if path.contains r then .error (.cyclic o.kind) else return front ++ (← body ())
    match o with
    | .unit | .nil => .ok (front ++ MessagePack.writeNil)
    | .bool w => .ok (front ++ MessagePack.writeBool (w ≠ 0))
    | .u64 w => .ok (front ++ MessagePack.writeUint w)
    | .i64 w => .ok (front ++ MessagePack.writeInt w)
    | .f64 w => .ok (front ++ MessagePack.writeFloat w)
    | .string t | .error t => .ok (front ++ MessagePack.writeString t)
    | .pair h t => guarded fun _ => do
      let head ← part h
      let tail ← part t
      return MessagePack.arrayHeader 2 ++ head ++ tail
    | .list items => guarded fun _ => do
      return MessagePack.arrayHeader items.length ++ Text.concat (← items.mapM part)
    | .dict t => guarded fun _ => do
      let entries ← t.toList.mapM fun e => do return MessagePack.writeString e.1 ++ (← part e.2)
      return MessagePack.mapHeader t.count ++ Text.concat entries
    | .function _ => .error .function
    | .other .. => .error (.kind o.kind)

/-- The packed form of a value. -/
def pack (m : Machine) (r : Ref) : Except PackError Text :=
  m.packWithin (m.heap.slots.size + 1) [] r

end Machine

/-- Writing to a file piece by piece, which may fail. What was written before stays written. -/
abbrev Packing := ExceptT PackError (StateM Host.Stream)

namespace Packing

def put (piece : Text) : Packing Unit := modify fun s => s.write piece

/-- Write a string, its header first. -/
def putString (t : Text) : Packing Unit := do
  put (MessagePack.stringHeader t.size)
  put t

/-- Write what a packed value of a kind begins with. -/
def putFront (kind : Kind) : Packing Unit := do
  put (MessagePack.arrayHeader 2)
  put (MessagePack.writeUint kind.code.toUInt64)

end Packing

namespace Machine

open Packing

/-- Write the packed form of a value, below the containers of `path`. -/
def streamWithin (m : Machine) : Nat → List Ref → Ref → Packing Unit
  | 0, _, r => throw (.cyclic (m.kind r))
  | fuel + 1, path, r =>
    let part := m.streamWithin fuel (r :: path)
    let o := m.object r
    let fronted (body : Packing Unit) : Packing Unit := do
      putFront o.kind
      body
    let guarded (body : Packing Unit) : Packing Unit :=
      if path.contains r then throw (.cyclic o.kind) else fronted body
    match o with
    | .unit | .nil => fronted (put MessagePack.writeNil)
    | .bool w => fronted (put (MessagePack.writeBool (w ≠ 0)))
    | .u64 w => fronted (put (MessagePack.writeUint w))
    | .i64 w => fronted (put (MessagePack.writeInt w))
    | .f64 w => fronted (put (MessagePack.writeFloat w))
    | .string t | .error t => fronted (putString t)
    | .pair h t => guarded do
      put (MessagePack.arrayHeader 2)
      part h
      part t
    | .list items => guarded do
      put (MessagePack.arrayHeader items.length)
      items.forM part
    | .dict t => guarded do
      put (MessagePack.mapHeader t.count)
      t.toList.forM fun e => do
        putString e.1
        part e.2
    | .function _ => throw .function
    | .other .. => fronted (throw (.kind o.kind))

/-- Write the packed form of a value to a new file. The result tells whether there is one, and what became of
the file. -/
def packStream (m : Machine) (r : Ref) : Except PackError Unit × Host.Stream :=
  (m.streamWithin (m.heap.slots.size + 1) [] r).run.run {}

end Machine

/-- Why bytes are no packed value. -/
inductive UnpackError where
  | item (e : MessagePack.ReadError)
  | size (n : Nat)
  /-- The payload of a pair does not have two items. -/
  | pairSize (n : Nat)
  /-- No kind with this number has a packed form. -/
  | unknownKind (n : Nat)
  | trailing (n : Nat)
  deriving DecidableEq, Inhabited, Repr

def UnpackError.message : UnpackError → Text
  | item e => e.message
  | size n => "typed value must be a 2 item array, got " ++ Text.ofNat n ++ " items"
  | pairSize n => "pair payload must have 2 items, got " ++ Text.ofNat n
  | unknownKind n => "unknown kind tag " ++ Text.ofNat n
  | trailing n => Text.ofNat n ++ " trailing bytes after value"

namespace Act

/-- Actions that consume bytes. -/
abbrev Unpack := StateT (List UInt8) (ExceptT UnpackError Act)

def Unpack.item {α : Type} (read : MessagePack.Read α) : Unpack α := do
  match read.run (← get) with
  | .ok (a, bs) =>
    set bs
    return a
  | .error e => throw (.item e)

/-- Read an item and allocate an object for it. An object is allocated even if the item cannot be
read. -/
def Unpack.scalar {α : Type} [Inhabited α] (read : MessagePack.Read α) (make : α → Object) :
    Unpack Ref := do
  match read.run (← get) with
  | .ok (a, bs) =>
    set bs
    alloc (make a)
  | .error e =>
    let _ ← alloc (make default)
    throw (.item e)

/-- Values one after the other. -/
def Unpack.values (value : Unpack Ref) : Nat → List Ref → Unpack (List Ref)
  | 0, acc => return acc.reverse
  | n + 1, acc => do
    let r ← value
    values value n (r :: acc)

/-- Keys with values, put into a dict. -/
def Unpack.entries (source : MessagePack.Source) (value : Unpack Ref) (dict : Ref) : Nat → Unpack Unit
  | 0 => return ()
  | n + 1 => do
    let key ← item source.string
    let r ← value
    dictPut dict key r
    entries source value dict n

/-- The payload of a value of a kind. -/
def Unpack.payload (source : MessagePack.Source) (value : Unpack Ref) (kind : Nat) : Unpack Ref :=
  match Kind.ofCode kind with
  | .unit => scalar source.nothing fun _ => .unit
  | .nil => do
    item source.nothing
    return (← getThe Machine).nil
  | .bool => scalar source.bool .ofBool
  | .u64 => scalar source.uint fun n => .u64 n.toUInt64
  | .i64 => scalar source.int .ofInt
  | .f64 => scalar source.float .f64
  | .error => scalar source.string .error
  | .string => scalar source.string .string
  | .pair => do
    let n ← item source.array
    if n ≠ 2 then throw (.pairSize n)
    let head ← value
    let tail ← value
    newPair head tail
  | .list => do
    let n ← item source.array
    let items ← values value n []
    newList items
  | .dict => do
    let n ← item source.map
    let dict ← newDict
    pin dict
    entries source value dict n
    return dict
  | .function | .other _ => throw (.unknownKind kind)

/-- The next value, nested less than `fuel` deep. Everything that is allocated stays pinned. -/
def Unpack.value (source : MessagePack.Source) : Nat → Unpack Ref
  | 0 => throw (.item source.ended)
  | fuel + 1 => do
    let n ← item source.array
    if n ≠ 2 then throw (.size n)
    let kind ← item source.tag
    let r ← payload source (value source fuel) kind
    pin r
    return r

/-- The value at the front of a text, and the bytes that follow it. -/
def unpackFrom (source : MessagePack.Source) (t : Text) : Act (Except UnpackError (Ref × List UInt8)) := do
  let mark ← pinMark
  let r ← ((Unpack.value source (t.size + 1)).run t.bytes).run
  unpinTo mark
  return r

/-- The value that a text in memory packs. -/
def unpack (t : Text) : Act (Except UnpackError Ref) := do
  match ← unpackFrom .memory t with
  | .error e => return .error e
  | .ok (r, []) => return .ok r
  | .ok (_, rest) => return .error (.trailing rest.length)

end Act

/-! ## Files -/

/-- Why a value was not saved. -/
inductive SaveError where
  | present (path : Text)
  | file (e : Host.FileError)
  | pack (e : PackError)
  deriving DecidableEq, Inhabited, Repr

def SaveError.message : SaveError → Text
  | present path => "refusing to write to existing file " ++ path.quoted
  | file e => e.message
  | pack e => e.message

/-- Why no value was loaded. -/
inductive LoadError where
  | absent (path : Text)
  | file (e : Host.FileError)
  | unpack (e : UnpackError)
  deriving DecidableEq, Inhabited, Repr

def LoadError.message : LoadError → Text
  | absent path => "file " ++ path.quoted ++ " does not exist"
  | file e => e.message
  | unpack e => e.message

namespace Act

def writeFile (path data : Text) : Act (Except Host.FileError Unit) := do
  match (← get).files.write path data with
  | .error e => return .error e
  | .ok files =>
    modify fun m => { m with files := files }
    return .ok ()

/-- Save the packed form of a value to a new file. The result is its size. The file is made before the value
is walked through. If it turns out that the value has no packed form, the file stays, with what had gone out
to it by then. -/
def save (r : Ref) (path : Text) : Act (Except SaveError Nat) := do
  if ← isFile path then return .error (.present path)
  match ← writeFile path Text.empty with
  | .error e => return .error (.file e)
  | .ok () =>
    let m ← get
    let packed := m.packStream r
    match packed.1 with
    | .error e =>
      let _ ← writeFile path (packed.2.sent m.files.spill)
      return .error (.pack e)
    | .ok () =>
      match ← writeFile path packed.2.written with
      | .error e => return .error (.file e)
      | .ok () => return .ok packed.2.written.size

/-- The value that a file packs. -/
def load (path : Text) : Act (Except LoadError Ref) := do
  if !(← isFile path) then return .error (.absent path)
  match (← get).files.read path with
  | .error e => return .error (.file e)
  | .ok data =>
    match ← unpackFrom .file data with
    | .error e => return .error (.unpack e)
    | .ok (r, _) => return .ok r

end Act

end TinyScript
