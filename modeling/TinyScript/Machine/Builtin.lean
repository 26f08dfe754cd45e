import TinyScript.Digest.Blake2b
import TinyScript.Machine.Convert
import TinyScript.Machine.Packed
import TinyScript.Machine.Render
import TinyScript.Outline
import TinyScript.Regex.Search

/-!
# Native functions

What the primitive operations do, and the groups of functions that a machine can start with. A primitive
finds its arguments in the frame of the call and knows the name it was registered under; some primitives
serve several names and go by it. `timeit` calls back into the language and is defined with evaluation.
-/

namespace TinyScript

/-! ## Groups -/

namespace Builtin

/-- A group of functions by name. -/
abbrev Group := List (Text × Primitive)

/-- Functions on values. -/
def core : Group :=
  [("del", .del), ("get", .get), ("head", .member), ("keys", .keys), ("len", .len), ("pair", .pair),
   ("print", .print), ("put", .put), ("tail", .member), ("typename", .typename)]

/-- Functions between values and text. -/
def encoding : Group :=
  [("blake2", .blake2), ("json", .json), ("msgpack", .msgpack), ("unjson", .json),
   ("unmsgpack", .msgpack)]

/-- Functions that reach outside. -/
def system : Group := [("bload", .bload), ("bsave", .bsave), ("dump", .dump)]

/-- Further functions, in the order in which they are added. -/
def extensions : Group :=
  [("random", .random), ("randint", .randint), ("regexp_find_index", .regexp), ("regexp_find", .regexp),
   ("regexp_match", .regexp), ("now", .now), ("timeit", .timeit)]

/-- A function that two groups define. -/
structure DuplicateError where
  name : Text
  deriving DecidableEq, Inhabited, Repr

def DuplicateError.message (e : DuplicateError) : Text :=
  "duplicate function " ++ e.name.quoted ++ " not allowed"

def sorted (g : Group) : Group := g.mergeSort fun a b => a.1.le b.1

/-- Join groups, which must not share a name. -/
def merge (gs : List Group) : Except DuplicateError Group := do
  let joined ← gs.foldlM (fun acc g =>
    match g.find? fun f => acc.any fun h => h.1 = f.1 with
    | some f => .error ⟨f.1⟩
    | none => .ok (acc ++ g)) []
  return sorted joined

/-- The functions that stay inside. -/
def sandboxed : Group := sorted (core ++ encoding)

/-- The functions of a machine that is not sandboxed. -/
def all : Group := sorted (core ++ encoding ++ system)

end Builtin

/-! ## Faults -/

/-- Why a native function gives an error. -/
inductive CallFault where
  | argCount (wanted : Text) (got : Nat)
  | pairNeeded
  | noLength (kind : Kind)
  | keyKind (kind : Kind)
  | noKey (key : Text)
  | indexKind (kind : Kind)
  | indexRange (index : Int) (size : Nat)
  | containerNeeded (kind : Kind)
  | dictAndKeyNeeded (d k : Kind)
  /-- There is nothing to remove under the key. -/
  | noRemoval (key : Text)
  | dictNeeded
  | stringNeeded (kind : Kind)
  | pathNeeded (kind : Kind)
  | secondPathNeeded (kind : Kind)
  | outputRefused
  /-- The value has no counterpart in plain data. -/
  | convert (e : ConvertError)
  | badJson
  | pack (e : PackError)
  | unpack (e : UnpackError)
  | save (e : SaveError)
  | load (e : LoadError)
  /-- The function does not know what to do under its name. -/
  | nameless (group : Text)
  | oneNeeded
  | positiveNeeded
  | patternNeeded
  | stringsNeeded
  | pattern (pattern : Text) (e : Regex.PatternError)
  | unknownSearch
  /-- A function and perhaps a count are needed. -/
  | timingNeeded
  | functionNeeded
  | countNeeded
  deriving DecidableEq, Inhabited, Repr

/-- A fault in words, for a function called by a name. -/
def CallFault.message (name : Text) : CallFault → Text
  | argCount wanted got =>
    name ++ "() wrong number of arguments: takes " ++ wanted ++ ", got " ++ Text.ofNat got
  | pairNeeded => name ++ "() takes only one argument and must be a pair"
  | noLength k => name ++ "() of " ++ k.name ++ " is not defined"
  | keyKind k => name ++ "(): dict key must be a string, not " ++ k.name
  | noKey key => name ++ "(): key " ++ key.quoted ++ " not found"
  | indexKind k => name ++ "(): list index must be an integer, not " ++ k.name
  | indexRange i n =>
    name ++ "(): index " ++ Text.ofInt i ++ " out of range [0, " ++ Text.ofNat n ++ ")"
  | containerNeeded k => name ++ "() needs a dict or a list, not " ++ k.name
  | dictAndKeyNeeded d k =>
    name ++ "() needs a dict and a string key, not " ++ d.name ++ " and " ++ k.name
  | noRemoval key => name ++ "(): key " ++ key.quoted ++ ": " ++ TableError.keyNotFound.message
  | dictNeeded => name ++ "() takes one dict argument"
  | stringNeeded k => name ++ "() needs a string, not " ++ k.name
  | pathNeeded k => name ++ "() requires a string path, not " ++ k.name
  | secondPathNeeded k => name ++ "() requires a string path as the second argument, not " ++ k.name
  | outputRefused => name ++ "(): write refused"
  | convert e => name ++ "(): " ++ e.message
  | badJson => name ++ "(): json decode error"
  | pack e => name ++ "(): " ++ e.message
  | unpack e => name ++ "(): " ++ e.message
  | save e => name ++ "(): " ++ e.message
  | load e => name ++ "(): " ++ e.message
  | nameless group => group ++ ": unrecognized function name " ++ name.quoted
  | oneNeeded => name ++ "() takes one argument"
  | positiveNeeded => name ++ "() needs a positive integer"
  | patternNeeded => name ++ "() wrong number of arguments: takes pattern and haystack"
  | stringsNeeded => name ++ "() arguments should be strings"
  | pattern p e => name ++ "(): error compiling " ++ p.quoted ++ ": " ++ e.message
  | unknownSearch => "unknown function " ++ name
  | timingNeeded => name ++ "() wrong number of arguments: takes a function and an optional count"
  | functionNeeded => "argument of " ++ name ++ " should be a function"
  | countNeeded => name ++ "() count must be a positive integer"

namespace Act

/-- The result of a native function. -/
abbrev Result := ExceptT CallFault Act Ref

def one (args : List Ref) : ExceptT CallFault Act Ref :=
  match args with
  | [a] => return a
  | args => throw (.argCount "one argument" args.length)

def two (args : List Ref) : ExceptT CallFault Act (Ref × Ref) :=
  match args with
  | [a, b] => return (a, b)
  | args => throw (.argCount "two arguments" args.length)

def stringArg (fault : Kind → CallFault) (r : Ref) : ExceptT CallFault Act Text := do
  match ← object r with
  | .string t => return t
  | o => throw (fault o.kind)

/-- The index that an object stands for. -/
def index? : Object → Option Int
  | .i64 w | .u64 w => some w.toInt64.toInt
  | _ => none

/-! ## Values -/

/-- Print the plain forms of values with blanks between them. The result is the number of bytes. -/
def printValues (args : List Ref) : Result := do
  let m ← get
  let line := Text.join " " (args.map (m.render .plain)) ++ "\n"
  if ← print line then newInt line.size else throw .outputRefused

def typenameOf (args : List Ref) : Result := do
  let r ← one args
  newString (← object r).kind.name

/-- A pair of two values, or of `nil` twice. -/
def makePair (args : List Ref) : Result := do
  match args with
  | [] =>
    let nil := (← get).nil
    newPair nil nil
  | [a, b] => newPair a b
  | args => throw (.argCount "zero or two arguments" args.length)

/-- The second member of a pair for `tail`, the first for any other name. -/
def memberOf (name : Text) (args : List Ref) : Result := do
  match args with
  | [a] =>
    match ← object a with
    | .pair head tail => return if name = "tail" then tail else head
    | _ => throw .pairNeeded
  | _ => throw .pairNeeded

/-- The number of bytes, items, entries or members. -/
def lengthOf (args : List Ref) : Result := do
  let r ← one args
  match ← object r with
  | .string t => newInt t.size
  | .list items => newInt items.length
  | .dict t => newInt t.count
  | .pair .. => newInt 2
  | o => throw (.noLength o.kind)

/-- A value of a dict or an item of a list. -/
def lookIn (args : List Ref) : Result := do
  let (c, k) ← two args
  let key ← object k
  match ← object c with
  | .dict t =>
    match key with
    | .string key =>
      match t.get? key with
      | some r => return r
      | none => throw (.noKey key)
    | key => throw (.keyKind key.kind)
  | .list items =>
    match index? key with
    | none => throw (.indexKind key.kind)
    | some i =>
      match if i < 0 then none else items[i.toNat]? with
      | some r => return r
      | none => throw (.indexRange i items.length)
  | o => throw (.containerNeeded o.kind)

/-- Store a value in a dict. The result is the dict. -/
def store (args : List Ref) : Result := do
  match args with
  | [d, k, v] =>
    match ← object d, ← object k with
    | .dict _, .string key =>
      dictPut d key v
      return d
    | o, key => throw (.dictAndKeyNeeded o.kind key.kind)
  | args => throw (.argCount "three arguments" args.length)

/-- Remove a key from a dict. The result is the dict. -/
def remove (args : List Ref) : Result := do
  let (d, k) ← two args
  match ← object d, ← object k with
  | .dict _, .string key => if ← dictErase d key then return d else throw (.noRemoval key)
  | o, key => throw (.dictAndKeyNeeded o.kind key.kind)

/-- Strings, which stay pinned. -/
def newStrings : List Text → List Ref → Act (List Ref)
  | [], acc => return acc.reverse
  | t :: ts, acc => do
    let r ← newString t
    pin r
    newStrings ts (r :: acc)

/-- The keys of a dict, sorted. -/
def keysOf (args : List Ref) : Result := do
  match args with
  | [d] =>
    match ← object d with
    | .dict t =>
      let mark ← pinMark
      let refs ← newStrings (Text.sort t.keys) []
      let r ← newList refs
      unpinTo mark
      return r
    | _ => throw .dictNeeded
  | _ => throw .dictNeeded

/-! ## Encodings and files -/

/-- To JSON or back, by name. -/
def jsonCall (name : Text) (args : List Ref) : Result := do
  let r ← one args
  if name = "json" then
    match (← get).toJson r with
    | .ok t => newString t
    | .error e => throw (.convert e)
  else if name = "unjson" then
    let t ← stringArg .stringNeeded r
    match ← ofJson t with
    | .ok r => return r
    | .error .text => throw .badJson
    | .error (.convert e) => throw (.convert e)
  else throw (.nameless "JsonFunction")

/-- To the packed form or back, by name. -/
def packCall (name : Text) (args : List Ref) : Result := do
  let r ← one args
  if name = "msgpack" then
    match (← get).pack r with
    | .ok t => newString t
    | .error e => throw (.pack e)
  else if name = "unmsgpack" then
    let t ← stringArg .stringNeeded r
    match ← unpack t with
    | .ok r => return r
    | .error e => throw (.unpack e)
  else throw (.nameless "MsgpackFunction")

/-- A digest of the tagged form of a value. -/
def digestOf (args : List Ref) : Result := do
  let r ← one args
  newU64 (Blake2b.digest ((← get).render .tagged r))

/-- Save a value. The result is the size of the file. -/
def saveCall (args : List Ref) : Result := do
  let (r, p) ← two args
  let path ← stringArg .secondPathNeeded p
  match ← save r path with
  | .ok n => newInt n
  | .error e => throw (.save e)

def loadCall (args : List Ref) : Result := do
  let path ← stringArg .pathNeeded (← one args)
  match ← load path with
  | .ok r => return r
  | .error e => throw (.load e)

/-- Print the outline of a value. -/
def dumpCall (args : List Ref) : Result := do
  let r ← one args
  let outline ← match ← object r with
    | .function f => pure f.outline
    | _ =>
      match (← get).toDatum r with
      | .ok d => pure d.outline
      | .error e => throw (.convert e)
  let _ ← print outline.write
  return (← get).unit

/-! ## Chance, time and search -/

/-- The next random word. -/
def nextRandom : Act UInt64 := modifyGet fun m =>
  let seed : UInt64 := m.seed + 0x9E3779B97F4A7C15
  let z : UInt64 := (seed ^^^ (seed >>> 30)) * 0xBF58476D1CE4E5B9
  let z : UInt64 := (z ^^^ (z >>> 27)) * 0x94D049BB133111EB
  (z ^^^ (z >>> 31), { m with seed := seed })

/-- A random number from zero up to one. -/
def randomNumber : Result := do
  let w ← nextRandom
  newF64 (Binary64.ofRatio false (w >>> 11).toNat 0x20000000000000)

/-- A positive integer argument. -/
def positiveArg (fault : CallFault) (r : Ref) : ExceptT CallFault Act Nat := do
  match index? (← object r) with
  | some i => if i ≤ 0 then throw fault else return i.toNat
  | none => throw fault

/-- A random integer below a bound. -/
def randomBelow (args : List Ref) : Result := do
  match args with
  | [a] =>
    let n ← positiveArg .positiveNeeded a
    newInt ((← nextRandom).toNat % n)
  | _ => throw .oneNeeded

/-- Integers, which stay pinned. -/
def newInts : List Nat → List Ref → Act (List Ref)
  | [], acc => return acc.reverse
  | n :: ns, acc => do
    let r ← newInt n
    pin r
    newInts ns (r :: acc)

/-- Search with a regular expression; the name says what to tell of the match. -/
def searchCall (name : Text) (args : List Ref) : Result := do
  match args with
  | [p, h] =>
    match ← object p, ← object h with
    | .string pattern, .string haystack =>
      match Regex.parse pattern with
      | .error e => throw (.pattern pattern e)
      | .ok r =>
        let found := r.find? haystack
        if name = "regexp_find" then
          match found with
          | some (a, b) => newString ⟨(haystack.bytes.take b).drop a⟩
          | none => newString Text.empty
        else if name = "regexp_find_index" then
          let mark ← pinMark
          let refs ← newInts ((found.map fun (a, b) => [a, b]).getD []) []
          let r ← newList refs
          unpinTo mark
          return r
        else if name = "regexp_match" then newBool found.isSome
        else throw .unknownSearch
    | _, _ => throw .stringsNeeded
  | _ => throw .patternNeeded

/-- What a primitive does with its arguments. `timeit` has no part in this. -/
def primitive (op : Primitive) (name : Text) (args : List Ref) : Result :=
  match op with
  | .print => printValues args
  | .typename => typenameOf args
  | .pair => makePair args
  | .member => memberOf name args
  | .len => lengthOf args
  | .get => lookIn args
  | .put => store args
  | .del => remove args
  | .keys => keysOf args
  | .json => jsonCall name args
  | .msgpack => packCall name args
  | .blake2 => digestOf args
  | .bsave => saveCall args
  | .bload => loadCall args
  | .dump => dumpCall args
  | .random => randomNumber
  | .randint => randomBelow args
  | .regexp => searchCall name args
  | .now => do newI64 (← readClock)
  | .timeit => return .zero
  | .ownName => newString name
  | .nothing => return .zero
  | .argCount => newInt args.length

/-- The result of a native function, an error object if it has none. -/
def settle (name : Text) (result : Result) : Act Ref := do
  match ← result.run with
  | .ok r => return r
  | .error e => newError (e.message name)

end Act

end TinyScript
