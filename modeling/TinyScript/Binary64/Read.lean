import TinyScript.Text.Quoted
import TinyScript.Binary64.Basic

/-!
# Reading binary floating point numbers

`read?` takes a decimal number with an optional point and an optional exponent to the base ten, or a
number in base sixteen, marked `0x`, whose exponent to the base two is not optional. Underscores may
stand between digits. The value is rounded once; a value beyond the largest number is an error, one
below the smallest is zero.
-/

namespace TinyScript.Binary64

/-- What has been read of a mantissa. -/
structure Mantissa where
  value : Nat := 0
  count : Nat := 0
  /-- How many of them stand behind the point, if there was one. -/
  places : Option Nat := none
  underscores : Bool := false

/-- Read digits of a base, one point and underscores, as far as they go. -/
def readMantissa (base : Nat) : Mantissa → List UInt8 → Mantissa × List UInt8
  | m, [] => (m, [])
  | m, b :: bs =>
    if b = 95 then readMantissa base { m with underscores := true } bs
    else if b = 46 then
      match m.places with
      | none => readMantissa base { m with places := some 0 } bs
      | some _ => (m, b :: bs)
    else
      match Text.digitValue? b with
      | none => (m, b :: bs)
      | some d =>
        if d < base then
          readMantissa base
            { m with value := m.value * base + d, count := m.count + 1, places := m.places.map (· + 1) } bs
        else (m, b :: bs)

/-- Digits and underscores of an exponent; from ten thousand on further digits change nothing. -/
def readDigits : Nat → Bool → List UInt8 → Nat × Bool × List UInt8
  | v, u, [] => (v, u, [])
  | v, u, b :: bs =>
    if b = 95 then readDigits v true bs
    else if 48 ≤ b && b ≤ 57 then
      readDigits (if v < 10000 then v * 10 + (b.toNat - 48) else v) u bs
    else (v, u, b :: bs)

/-- An exponent behind its letter: a sign, then at least one digit. -/
def readExponent? (bs : List UInt8) : Option (Int × Bool × List UInt8) :=
  let (negative, bs) := match bs with
    | 43 :: rest => (false, rest)
    | 45 :: rest => (true, rest)
    | _ => (false, bs)
  match bs with
  | b :: _ =>
    if 48 ≤ b && b ≤ 57 then
      let (v, u, rest) := readDigits 0 false bs
      some (if negative then -(v : Int) else v, u, rest)
    else none
  | [] => none

/-- Where an underscore check stands: at the start, behind a digit, behind an underscore, or behind
anything else. -/
inductive Seen where
  | start
  | digit
  | underscore
  | other
  deriving DecidableEq

/-- Whether every underscore stands between digits. -/
def underscoresBetween (hex : Bool) : Seen → List UInt8 → Bool
  | s, [] => s ≠ .underscore
  | s, b :: bs =>
    if (48 ≤ b && b ≤ 57) || (hex && (Text.digitValue? b).isSome) then underscoresBetween hex .digit bs
    else if b = 95 then if s = .digit then underscoresBetween hex .underscore bs else false
    else if s = .underscore then false
    else underscoresBetween hex .other bs

/-- Whether the underscores of a number without its sign are where they may be. A base mark counts as
a digit. -/
def underscoresOk (bs : List UInt8) : Bool :=
  match bs with
  | 48 :: c :: rest =>
    let lower := c ||| 0x20
    if lower = 98 || lower = 111 || lower = 120 then underscoresBetween (lower = 120) .digit rest
    else underscoresBetween false .start bs
  | _ => underscoresBetween false .start bs

/-- The number nearest to `value * base ^ exponent`, without computing powers that cannot matter. -/
def round? (negative : Bool) (value base : Nat) (exponent : Int) : Option UInt64 :=
  if value = 0 then some (withSign negative 0)
  else
    match exponent with
    | .ofNat k => if 2000 < k then none else ofRatio? negative (value * Nat.pow base k) 1
    | .negSucc k =>
      if Nat.log2 value + 2000 < k then some (withSign negative 0)
      else ofRatio? negative value (Nat.pow base (k + 1))

/-- Read the magnitude of a number in a base, marked already read. -/
def readMagnitude? (negative hex : Bool) (bs : List UInt8) : Option (UInt64 × Bool) :=
  let base := if hex then 16 else 10
  let (m, rest) := readMantissa base {} bs
  if m.count = 0 then none
  else
    let letter : UInt8 := if hex then 112 else 101
    let tail? : Option (Option Int × Bool × List UInt8) := match rest with
      | c :: rest' =>
        if c ||| 0x20 = letter then (readExponent? rest').map fun (e, u, r) => (some e, u, r)
        else some (none, false, rest)
      | [] => some (none, false, [])
    match tail? with
    | none => none
    | some (e, u, rest) =>
      if rest ≠ [] || (hex && e.isNone) then none
      else
        let places : Int := m.places.getD 0
        let value? :=
          if hex then round? negative m.value 2 (e.getD 0 - 4 * places)
          else round? negative m.value 10 (e.getD 0 - places)
        value?.map fun w => (w, m.underscores || u)

/-- The number that a text stands for, if it stands for one within range. -/
def read? (t : Text) : Option UInt64 :=
  let (negative, bs) := match t.bytes with
    | 43 :: rest => (false, rest)
    | 45 :: rest => (true, rest)
    | bs => (false, bs)
  let (hex, digits) := match bs with
    | 48 :: c :: rest => if c ||| 0x20 = 120 && rest ≠ [] then (true, rest) else (false, bs)
    | _ => (false, bs)
  match readMagnitude? negative hex digits with
  | some (w, underscores) => if underscores && !underscoresOk bs then none else some w
  | none => none

end TinyScript.Binary64
