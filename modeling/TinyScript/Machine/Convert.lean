import TinyScript.Data.Datum
import TinyScript.Data.Json.Reader
import TinyScript.Data.Json.Writer
import TinyScript.Machine.Collect

/-!
# Values as plain data

`Machine.toDatum` turns a value into plain data: a pair becomes a list of two, an error a map with its
message, `unit` and `nil` both become nothing. Functions have no counterpart, and neither has a
container that holds itself. `Act.ofDatum` makes objects of plain data, dicts with their entries put in
the order of the keys. `Machine.toJson` and `Act.ofJson` go on to text and come from it.
-/

namespace TinyScript

open Data (Datum)

/-- Why a value and plain data have no counterpart in each other. -/
inductive ConvertError where
  | cyclic (kind : Kind)
  | kind (kind : Kind)
  | type (name : Text)
  deriving DecidableEq, Inhabited, Repr

def ConvertError.message : ConvertError → Text
  | cyclic k => "cannot convert a " ++ k.name ++ " that contains itself"
  | kind k => "cannot convert " ++ k.name
  | type t => "cannot convert Go type " ++ t

/-- Why JSON gives no object. -/
inductive JsonError where
  | text
  /-- What it says has no counterpart among values. -/
  | convert (e : ConvertError)
  deriving DecidableEq, Inhabited, Repr

namespace Machine

/-- A value as plain data, below the containers of `path`. -/
def toDatumWithin (m : Machine) : Nat → List Ref → Ref → Except ConvertError Datum
  | 0, _, r => .error (.cyclic (m.kind r))
  | fuel + 1, path, r =>
    let part := m.toDatumWithin fuel (r :: path)
    let o := m.object r
    let guarded (d : Unit → Except ConvertError Datum) : Except ConvertError Datum :=
      if path.contains r then .error (.cyclic o.kind) else d ()
    match o with
    | .unit | .nil => .ok .null
    | .bool w => .ok (.bool (w ≠ 0))
    | .u64 w => .ok (.uint w)
    | .i64 w => .ok (.int w.toInt64)
    | .f64 w => .ok (.float w)
    | .string t => .ok (.text t)
    | .error t => .ok (Datum.ofEntries [("error", .text t)])
    | .pair h t => guarded fun _ => do
      let head ← part h
      let tail ← part t
      return .list [head, tail]
    | .list items => guarded fun _ => do return .list (← items.mapM part)
    | .dict t => guarded fun _ => do
      let entries ← t.toList.mapM fun e => do return (e.1, ← part e.2)
      return Datum.ofEntries entries
    | .function _ | .other .. => .error (.kind o.kind)

/-- A value as plain data. -/
def toDatum (m : Machine) (r : Ref) : Except ConvertError Datum :=
  m.toDatumWithin (m.heap.slots.size + 1) [] r

def toJson (m : Machine) (r : Ref) : Except ConvertError Text := do
  return Data.Json.write (← m.toDatum r)

end Machine

namespace Act

mutual

/-- The object of plain data found at a depth. -/
def ofDatumAt (depth : Nat) : Datum → ExceptT ConvertError Act Ref
  | d@(.list items) => do
    noteType depth d
    let mark ← pinMark
    let refs ← ofItemsAt (depth + 1) items
    let r ← newList refs
    unpinTo mark
    return r
  | d@(.map entries) => do
    noteType depth d
    let dict ← newDict
    pin dict
    ofEntriesAt (depth + 1) dict entries
    return dict
  | d => do
    noteType depth d
    match d with
    | .null => return (← get).nil
    | .bool b => newBool b
    | .int i => newI64 i.toUInt64
    | .uint n => newU64 n
    | .float w => newF64 w
    | .text t => newString t
    | d => throw (.type d.typeName)
where
  noteType (depth : Nat) (d : Datum) : ExceptT ConvertError Act Unit :=
    note ("fromGo() at depth " ++ Text.ofNat depth ++ ", decoded type is " ++ d.typeName)

/-- The objects of several data, which stay pinned. -/
def ofItemsAt (depth : Nat) : List Datum → ExceptT ConvertError Act (List Ref)
  | [] => return []
  | d :: ds => do
    let r ← ofDatumAt depth d
    pin r
    return r :: (← ofItemsAt depth ds)

/-- Put the objects of entries into a dict. -/
def ofEntriesAt (depth : Nat) (dict : Ref) : List (Text × Datum) → ExceptT ConvertError Act Unit
  | [] => return ()
  | (k, d) :: ds => do
    let r ← ofDatumAt depth d
    dictPut dict k r
    ofEntriesAt depth dict ds

end

def ofDatum (d : Datum) : Act (Except ConvertError Ref) := do
  let mark ← pinMark
  let r ← (ofDatumAt 0 d).run
  unpinTo mark
  return r

/-- Read JSON, noting what was read. -/
def readJson (t : Text) : Act (Option Datum) := do
  match Data.Json.read? t with
  | none => return none
  | some d =>
    note (" decoded type : " ++ d.typeName)
    return some d

def ofJson (t : Text) : Act (Except JsonError Ref) := do
  match ← readJson t with
  | none => return .error .text
  | some d => return (← ofDatum d).mapError .convert

end Act

end TinyScript
