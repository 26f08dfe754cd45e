import TinyScript.Binary64.Print

/-!
# Plain data

A datum is a finite tree of scalars, lists and maps: what JSON and untyped MessagePack can carry, and
what values of the language are turned into on their way out. Maps have text keys; `Datum.insert`
keeps them sorted by their bytes, each key once.
-/

namespace TinyScript.Data

/-- Plain data. -/
inductive Datum where
  | null
  | bool (b : Bool)
  | int (i : Int64)
  | uint (n : UInt64)
  /-- A floating point number, given by its word. -/
  | float (word : UInt64)
  | text (t : Text)
  | list (items : List Datum)
  /-- A map with its entries in the order of their keys. -/
  | map (entries : List (Text × Datum))
  /-- Something that has a type but no counterpart among values. -/
  | foreign (type : Text)
  deriving Inhabited, Repr

namespace Datum

/-- The name of the type of a datum, as messages give it. -/
def typeName : Datum → Text
  | null => "<nil>"
  | bool _ => "bool"
  | int _ => "int64"
  | uint _ => "uint64"
  | float _ => "float64"
  | text _ => "string"
  | list _ => "[]interface \x7b\x7d"
  | map _ => "map[string]interface \x7b\x7d"
  | foreign t => t

/-- Put an entry into a sorted list of entries, in place of an entry with the same key. -/
def insert (key : Text) (value : Datum) : List (Text × Datum) → List (Text × Datum)
  | [] => [(key, value)]
  | (k, v) :: rest =>
    if k = key then (key, value) :: rest
    else if key.le k then (key, value) :: (k, v) :: rest
    else (k, v) :: insert key value rest

/-- The map with the given entries, a later entry winning over an earlier one. -/
def ofEntries (entries : List (Text × Datum)) : Datum :=
  .map (entries.foldl (fun acc e => insert e.1 e.2 acc) [])

/-- The value of a key, if the datum is a map that has it. -/
def field? (d : Datum) (key : Text) : Option Datum :=
  match d with
  | .map entries => (entries.find? fun e => e.1 = key).map Prod.snd
  | _ => none

mutual

/-- How deep lists and maps are nested in a datum. -/
def depth : Datum → Nat
  | list items => depthItems items + 1
  | map entries => depthEntries entries + 1
  | _ => 0

def depthItems : List Datum → Nat
  | [] => 0
  | d :: ds => max d.depth (depthItems ds)

def depthEntries : List (Text × Datum) → Nat
  | [] => 0
  | (_, d) :: ds => max d.depth (depthEntries ds)

end

mutual

/-- A datum in words, without quotes around texts. -/
def describe : Datum → Text
  | null => "<nil>"
  | bool b => Text.ofBool b
  | int i => Text.ofInt i.toInt
  | uint n => Text.ofNat n.toNat
  | float w => Binary64.general w
  | text t => t
  | list items => "[" ++ Text.join " " (describeItems items) ++ "]"
  | map entries => "map[" ++ Text.join " " (describeEntries entries) ++ "]"
  | foreign t => t

def describeItems : List Datum → List Text
  | [] => []
  | d :: ds => describe d :: describeItems ds

def describeEntries : List (Text × Datum) → List Text
  | [] => []
  | (k, d) :: ds => (k ++ ":" ++ describe d) :: describeEntries ds

end

end Datum

end TinyScript.Data
