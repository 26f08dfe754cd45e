import TinyScript.Data.Datum
import TinyScript.Binary64.Read

/-!
# Numbers in JSON

A number is read in two ways. A quick scan keeps a value and a power of ten, as long as both stay
small enough to be exact, and takes some liberties: zeros in front, a point without digits, an
exponent mark with nothing behind it. A number that the scan cannot hold is left to the strict reader
of `Binary64`. The scan counts digits in a signed byte, so behind 127 of them the count goes on from
-128 and the power of ten with it.
-/

namespace TinyScript.Data.Json

def isDigit (b : UInt8) : Bool := 48 ≤ b && b ≤ 57

/-- Whether a byte can be part of a number. -/
def isNumberByte (b : UInt8) : Bool := isDigit b || b = 43 || b = 45 || b = 46 || b = 101 || b = 69

/-- Whether a byte is the mark of an exponent. -/
def isMark (b : UInt8) : Bool := b = 101 || b = 69

/-- The first number too large for a word. -/
def wordSize : Nat := 0x10000000000000000

/-- The value of digits in base ten. -/
def digitsValue (bs : List UInt8) : Nat := bs.foldl (fun n b => n * 10 + (b.toNat - 48)) 0

/-- The value of a run of digits that fits a word. -/
def digits? (bs : List UInt8) : Option Nat :=
  if bs.all isDigit && digitsValue bs < wordSize then some (digitsValue bs) else none

/-- A magnitude with a sign, if it fits a signed word. -/
def signed? (negative : Bool) (n : Nat) : Option Int64 :=
  if negative then if n ≤ 0x8000000000000000 then some (Int64.ofInt (-(n : Int))) else none
  else if n < 0x8000000000000000 then some (Int64.ofNat n) else none

/-- Whether a number has a minus in front, and what follows the sign. -/
def splitSign : List UInt8 → Bool × List UInt8
  | 45 :: rest => (true, rest)
  | bs => (false, bs)

/-! ## The quick scan -/

/-- Why a scan ends without a number. -/
inductive Flaw where
  | malformed
  /-- The number is beyond what a scan can hold. -/
  | beyond
  deriving DecidableEq, Repr

/-- What a scan can hold. -/
structure Precision where
  /-- From this value on only zeros may follow, and they are counted but not taken. -/
  full : Nat
  bound : Nat
  least : Int
  greatest : Int

/-- Values and powers of ten whose product or quotient is rounded once. -/
def Precision.float : Precision := ⟨0xFFFFFFFFFFFFF, 0x10000000000000, -22, 37⟩

/-- Values that fit a word. -/
def Precision.word : Precision := ⟨1844674407370955162, wordSize, -19, 19⟩

/-- The digits seen so far. -/
structure Scan where
  value : Nat := 0
  /-- How many there are from the first one that is not zero. -/
  digits : Int8 := 0
  taken : Int8 := 0
  /-- Where the point is, counted in digits; zeros behind it that come first count against it. -/
  point : Int8 := 0
  pointed : Bool := false

/-- Take one more byte in front of the exponent. -/
def Scan.step (p : Precision) (s : Scan) (b : UInt8) : Except Flaw Scan :=
  if b = 46 then
    if s.pointed then .error .malformed else .ok { s with pointed := true, point := s.digits }
  else if !isDigit b then .error .malformed
  else if b = 48 && s.digits = 0 then .ok { s with point := s.point - 1 }
  else if s.value < p.full then
    let value := s.value * 10 + (b.toNat - 48)
    if wordSize ≤ value then .error .beyond
    else .ok { s with value, digits := s.digits + 1, taken := s.taken + 1 }
  else if b = 48 then .ok { s with digits := s.digits + 1 }
  else .error .beyond

/-- The exponent behind its mark, of at most two digits; without digits it is zero. -/
def exponent (bs : List UInt8) : Except Flaw Int8 :=
  let (negative, ds) := match bs with
    | 43 :: rest => (false, rest)
    | bs => splitSign bs
  if 2 < ds.length then .error .beyond
  else if !ds.all isDigit then .error .malformed
  else .ok (Int8.ofInt (if negative then -(digitsValue ds : Int) else digitsValue ds))

/-- The magnitude of a number as a value and a power of ten. -/
def scan (p : Precision) (bs : List UInt8) : Except Flaw (Nat × Int) := do
  let body := (splitSign bs).2
  let s ← (body.takeWhile (!isMark ·)).foldlM (Scan.step p) {}
  let e ← exponent (body.dropWhile (!isMark ·)).tail
  let power := ((if s.pointed then s.point else s.digits) + e - s.taken).toInt
  if s.value = 0 then .ok (0, 0)
  else if p.bound ≤ s.value || power < p.least || p.greatest < power then .error .beyond
  else .ok (s.value, power)

/-! ## Numbers -/

/-- Whether a value times a power of ten is rounded once: powers up to 22 are exact, and a greater one
is split into 22 and a rest that has to leave the value at most `10 ^ 15`. -/
def roundsOnce (value : Nat) (power : Int) : Bool :=
  power ≤ 22 || value * Nat.pow 10 (power - 22).toNat ≤ 1000000000000000

/-- A number with a point or an exponent. -/
def float? (bs : List UInt8) : Option UInt64 :=
  match scan .float bs with
  | .ok (value, power) =>
    if roundsOnce value power then Binary64.round? (splitSign bs).1 value 10 power
    else Binary64.read? ⟨bs⟩
  | .error .beyond => Binary64.read? ⟨bs⟩
  | .error .malformed => none

/-- A number: an integer if it is all digits and fits a word, which must then fit a signed word. -/
def number? (bs : List UInt8) : Option Datum :=
  let (negative, body) := splitSign bs
  match digits? body with
  | some n => (signed? negative n).map .int
  | none => (float? bs).map .float

/-! ## Numbers that have to be integers -/

/-- The positive integer below `2 ^ 52` that a floating point number is. -/
def whole? (w : UInt64) : Option Nat :=
  let n := Binary64.wholePart w
  if 1 ≤ n && n < Binary64.hiddenBit && Binary64.ofInt n = w then some n else none

/-- The magnitude of an integer. It may have a point and an exponent as long as it comes out whole; a
product too large for a word loses what is above it. -/
def magnitude? (bs : List UInt8) : Option Nat :=
  match digits? bs with
  | some n => some n
  | none =>
    match scan .word bs with
    | .ok (value, .ofNat k) => some (value * Nat.pow 10 k % wordSize)
    | .ok (value, .negSucc k) =>
      let unit := Nat.pow 10 (k + 1)
      if value % unit = 0 then some (value / unit) else (float? bs).bind whole?
    | .error _ => none

/-- An integer; no bytes at all stand for zero. -/
def integer? (bs : List UInt8) : Option Int64 :=
  let (negative, body) := splitSign bs
  if negative && body.isEmpty then none else (magnitude? body).bind (signed? negative)

end TinyScript.Data.Json
