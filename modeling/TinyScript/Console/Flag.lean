import TinyScript.Binary64.Arithmetic
import TinyScript.Text.Quoted

/-!
# Flags on a command line

A flag is an argument that begins with one or two dashes. Its value follows an equals sign or, unless it
is a truth value, is the next argument. The first argument that is no flag ends the flags, and so does a
pair of dashes, which is dropped.
-/

namespace TinyScript.Console

/-- The sorts of values that flags have. -/
inductive FlagType where
  | text
  | bool
  | int
  | duration
  deriving DecidableEq, Inhabited, Repr

inductive FlagValue where
  | text (t : Text)
  | bool (b : Bool)
  | int (i : Int)
  | duration (ns : Int)
  deriving DecidableEq, Inhabited, Repr

/-- Why a text is no value. -/
inductive ValueFault where
  | malformed
  | tooLarge
  deriving DecidableEq, Inhabited, Repr

def ValueFault.message : ValueFault → Text
  | malformed => "parse error"
  | tooLarge => "value out of range"

/-- Why flags cannot be read. -/
inductive FlagError where
  | badSyntax (arg : Text)
  | undefined (name : Text)
  | help
  | badBool (name value : Text)
  | missingValue (name : Text)
  | badValue (name value : Text) (fault : ValueFault)
  deriving DecidableEq, Inhabited, Repr

def FlagError.message : FlagError → Text
  | badSyntax arg => "bad flag syntax: " ++ arg
  | undefined name => "flag provided but not defined: -" ++ name
  | help => "flag: help requested"
  | badBool name value =>
    "invalid boolean value " ++ value.quote ++ " for -" ++ name ++ ": " ++ ValueFault.malformed.message
  | missingValue name => "flag needs an argument: -" ++ name
  | badValue name value fault =>
    "invalid value " ++ value.quote ++ " for flag -" ++ name ++ ": " ++ fault.message

/-! ## Values -/

/-- The largest magnitude of a negative integer of 64 bits. -/
def maxMagnitude : Nat := 0x8000000000000000

/-- The truth value that a text spells. -/
def readBool? (t : Text) : Option Bool :=
  let spelled (words : List String) : Bool := words.any fun w => Text.ofString w = t
  if spelled ["1", "t", "T", "TRUE", "true", "True"] then some true
  else if spelled ["0", "f", "F", "FALSE", "false", "False"] then some false
  else none

/-- The base that digits are written in, and the digits. -/
def splitBase (bs : List UInt8) : Nat × List UInt8 :=
  match bs with
  | 48 :: x :: d :: ds =>
    if x = 98 || x = 66 then (2, d :: ds)
    else if x = 111 || x = 79 then (8, d :: ds)
    else if x = 120 || x = 88 then (16, d :: ds)
    else (8, x :: d :: ds)
  | 48 :: ds => (8, ds)
  | ds => (10, ds)

/-- The number that digits spell in a base, underscores left out. The first digit that makes it too large
decides. -/
def readDigits (base : Nat) : Nat → List UInt8 → Except ValueFault Nat
  | n, [] => .ok n
  | n, 95 :: ds => readDigits base n ds
  | n, d :: ds =>
    match Text.digitValue? d with
    | none => .error .malformed
    | some v =>
      if v ≥ base then .error .malformed
      else if n * base + v ≥ 0x10000000000000000 then .error .tooLarge
      else readDigits base (n * base + v) ds

/-- Whether every underscore stands between digits; `afterDigit` tells whether one came just before. -/
def underscoresFit : Bool → List UInt8 → Bool
  | _, [] => true
  | _, [95] => false
  | afterDigit, 95 :: d :: ds => afterDigit && d ≠ 95 && underscoresFit false (d :: ds)
  | _, _ :: ds => underscoresFit true ds

/-- Whether the digits of a number have their underscores in place; a mark of the base counts as a digit. -/
def wellSpaced (bs : List UInt8) : Bool :=
  match bs with
  | 48 :: x :: ds =>
    if [98, 66, 111, 79, 120, 88].contains x then underscoresFit true ds
    else underscoresFit false bs
  | bs => underscoresFit false bs

/-- A natural number in any base. -/
def readNat (bs : List UInt8) : Except ValueFault Nat :=
  if bs.isEmpty then .error .malformed
  else
    let (base, ds) := splitBase bs
    match readDigits base 0 ds with
    | .ok n => if bs.contains 95 && !wellSpaced bs then .error .malformed else .ok n
    | .error e => .error e

/-- An integer of 64 bits with an optional sign. -/
def readInt (t : Text) : Except ValueFault Int :=
  let (negative, bs) := match t.bytes with
    | 45 :: bs => (true, bs)
    | 43 :: bs => (false, bs)
    | bs => (false, bs)
  match readNat bs with
  | .error e => .error e
  | .ok n =>
    if negative then if n > maxMagnitude then .error .tooLarge else .ok (-(n : Int))
    else if n ≥ maxMagnitude then .error .tooLarge
    else .ok n

/-! ## Spans of time -/

/-- The units of time with their nanoseconds. -/
def units : List (Text × Nat) :=
  [("ns", 1), ("us", 1000), ("µs", 1000), ("μs", 1000), ("ms", 1000000), ("s", 1000000000),
   ("m", 60000000000), ("h", 3600000000000)]

def isDecimal (b : UInt8) : Bool := 48 ≤ b && b ≤ 57

/-- The number that decimal digits spell. -/
def decimal (ds : List UInt8) : Nat := ds.foldl (fun n d => n * 10 + (d.toNat - 48)) 0

/-- The digits of a fraction as a number and a power of ten; digits are left out once the number would
exceed 63 bits. -/
def readFraction : Nat → Nat → List UInt8 → Nat × Nat
  | n, scale, [] => (n, scale)
  | n, scale, d :: ds =>
    let next := n * 10 + (d.toNat - 48)
    if n > (maxMagnitude - 1) / 10 || next > maxMagnitude then (n, scale) else readFraction next (scale * 10) ds

/-- A fraction of a unit in nanoseconds, computed with floating point numbers. -/
def fractionOf (f scale unit : Nat) : Nat :=
  if f = 0 then 0
  else
    Binary64.wholePart (Binary64.mul (Binary64.ofInt f)
      (Binary64.div (Binary64.ofInt unit) (Binary64.ofInt scale)))

/-- Numbers with their units, added up; each takes a byte at least. -/
def readSpans : Nat → Nat → List UInt8 → Option Nat
  | _, total, [] => some total
  | 0, _, _ => none
  | fuel + 1, total, bs => do
    let whole := bs.takeWhile isDecimal
    let rest := bs.dropWhile isDecimal
    let (part, rest) := match rest with
      | 46 :: rest => (rest.takeWhile isDecimal, rest.dropWhile isDecimal)
      | rest => ([], rest)
    if whole.isEmpty && part.isEmpty then none
    let isUnit (b : UInt8) : Bool := b ≠ 46 && !isDecimal b
    let unit ← (units.find? fun u => u.1 = Text.mk (rest.takeWhile isUnit)).map Prod.snd
    let n := decimal whole
    if n > maxMagnitude || n > maxMagnitude / unit then none
    let (f, scale) := readFraction 0 1 part
    let span := n * unit + fractionOf f scale unit
    let total := total + span
    if span > maxMagnitude || total > maxMagnitude then none
    readSpans fuel total (rest.dropWhile isUnit)

/-- A span of time in nanoseconds, with an optional sign. -/
def readDuration? (t : Text) : Option Int := do
  let (negative, bs) := match t.bytes with
    | 45 :: bs => (true, bs)
    | 43 :: bs => (false, bs)
    | bs => (false, bs)
  if bs = [48] then return 0
  if bs.isEmpty then none
  let n ← readSpans bs.length 0 bs
  if negative then return -(n : Int)
  if n ≥ maxMagnitude then none
  return n

/-! ## Parsing -/

/-- A flag that may be given. -/
structure FlagSpec where
  name : Text
  type : FlagType

/-- The value of a type that a text spells. -/
def FlagType.read (type : FlagType) (t : Text) : Except ValueFault FlagValue :=
  match type with
  | .text => .ok (.text t)
  | .bool =>
    match readBool? t with
    | some b => .ok (.bool b)
    | none => .error .malformed
  | .int => (readInt t).map .int
  | .duration =>
    match readDuration? t with
    | some ns => .ok (.duration ns)
    | none => .error .malformed

/-- A name and the text behind the first equals sign, which does not come first. -/
def splitValue (name : Text) : Text × Option Text :=
  match name.bytes with
  | [] => (name, none)
  | b :: bs =>
    let front := bs.takeWhile (· ≠ 61)
    match bs.dropWhile (· ≠ 61) with
    | [] => (name, none)
    | _ :: value => (⟨b :: front⟩, some ⟨value⟩)

/-- The name part of an argument that is a flag; none if it is no flag. -/
def flagBody? (arg : Text) : Option Text :=
  match arg.bytes with
  | 45 :: 45 :: rest => some ⟨rest⟩
  | 45 :: b :: rest => some ⟨b :: rest⟩
  | _ => none

/-- Read flags from the front of arguments. The results are the flags given, in order, and the arguments
left over. -/
def parseFlags (specs : List FlagSpec) :
    Nat → List Text → List (Text × FlagValue) → Except FlagError (List (Text × FlagValue) × List Text)
  | 0, args, acc => .ok (acc.reverse, args)
  | _ + 1, [], acc => .ok (acc.reverse, [])
  | fuel + 1, arg :: args, acc =>
    if arg = "--" then .ok (acc.reverse, args)
    else
      match flagBody? arg with
      | none => .ok (acc.reverse, arg :: args)
      | some body =>
        if body.isEmpty || body.startsWith "-" || body.startsWith "=" then .error (.badSyntax arg)
        else
          let (name, value) := splitValue body
          match specs.find? fun s => s.name = name with
          | none => .error (if name = "help" || name = "h" then .help else .undefined name)
          | some spec =>
            match spec.type, value, args with
            | .bool, none, args => parseFlags specs fuel args ((name, .bool true) :: acc)
            | .bool, some value, args =>
              match readBool? value with
              | some b => parseFlags specs fuel args ((name, .bool b) :: acc)
              | none => .error (.badBool name value)
            | _, none, [] => .error (.missingValue name)
            | type, none, value :: args =>
              match type.read value with
              | .ok v => parseFlags specs fuel args ((name, v) :: acc)
              | .error e => .error (.badValue name value e)
            | type, some value, args =>
              match type.read value with
              | .ok v => parseFlags specs fuel args ((name, v) :: acc)
              | .error e => .error (.badValue name value e)

end TinyScript.Console
