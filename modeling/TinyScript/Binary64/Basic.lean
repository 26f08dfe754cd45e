/-!
# Binary floating point numbers of 64 bits

A number is its word: one sign bit, eleven bits of exponent and fifty-two of fraction. Everything
here is exact integer arithmetic on the parts of the word. A finite number is `m * 2 ^ q` with its
sign in front, and `ofRatio` is the one place where a value that need not be representable is
rounded, to the nearest number and on a tie to the one whose last bit is zero.
-/

namespace TinyScript.Binary64

def isNegative (w : UInt64) : Bool := w >>> 63 = 1

/-- The exponent field, between 0 and 2047. -/
def exponentField (w : UInt64) : Nat := ((w >>> 52) &&& 0x7FF).toNat

def fraction (w : UInt64) : Nat := (w &&& 0xFFFFFFFFFFFFF).toNat

/-- Whether the word stands for no number. -/
def isNaN (w : UInt64) : Bool := exponentField w = 2047 && fraction w ≠ 0

def isInfinite (w : UInt64) : Bool := exponentField w = 2047 && fraction w = 0

def isZero (w : UInt64) : Bool := exponentField w = 0 && fraction w = 0

/-- The bit before the fraction of a normal number: two to the power 52. -/
def hiddenBit : Nat := 0x10000000000000

/-- The integer `m` of a finite number `m * 2 ^ q`. -/
def mantissa (w : UInt64) : Nat :=
  if exponentField w = 0 then fraction w else fraction w + hiddenBit

/-- The power `q` of a finite number `m * 2 ^ q`. -/
def scale (w : UInt64) : Int :=
  if exponentField w = 0 then -1074 else (exponentField w : Int) - 1075

/-- The magnitude of a finite number, rounded down. -/
def wholePart (w : UInt64) : Nat :=
  match scale w with
  | .ofNat k => mantissa w * Nat.pow 2 k
  | .negSucc k => mantissa w / Nat.pow 2 (k + 1)

/-- A word with the sign bit set as asked. -/
def withSign (negative : Bool) (magnitude : UInt64) : UInt64 :=
  if negative then magnitude ||| 0x8000000000000000 else magnitude

def infinity (negative : Bool) : UInt64 := withSign negative 0x7FF0000000000000

/-- What an operation gives when its result is no number. -/
def invalid : UInt64 := 0xFFF8000000000000

def neg (w : UInt64) : UInt64 := w ^^^ 0x8000000000000000

/-- The quotient of two natural numbers, rounded to the nearest one, a tie going to the even one. -/
def roundDiv (num den : Nat) : Nat :=
  let q := num / den
  let r := num % den
  if 2 * r < den then q
  else if den < 2 * r then q + 1
  else if q % 2 = 0 then q else q + 1

/-- The quotient `num / den / 2 ^ q`, rounded. -/
def roundAt (num den : Nat) (q : Int) : Nat :=
  match q with
  | .ofNat k => roundDiv num (den * Nat.pow 2 k)
  | .negSucc k => roundDiv (num * Nat.pow 2 (k + 1)) den

/-- The quotient `num / den / 2 ^ q`, rounded down. -/
def floorAt (num den : Nat) (q : Int) : Nat :=
  match q with
  | .ofNat k => num / (den * Nat.pow 2 k)
  | .negSucc k => (num * Nat.pow 2 (k + 1)) / den

/-- The number nearest to `num / den`, or none if that is beyond the largest one. -/
def ofRatio? (negative : Bool) (num den : Nat) : Option UInt64 :=
  if num = 0 then some (withSign negative 0)
  else
    let q₀ : Int := (Nat.log2 num : Int) - (Nat.log2 den : Int) - 53
    let q₁ : Int := if 2 * hiddenBit ≤ floorAt num den q₀ then q₀ + 1 else q₀
    let q : Int := max q₁ (-1074)
    let m := roundAt num den q
    let (m, q) := if m = 2 * hiddenBit then (hiddenBit, q + 1) else (m, q)
    if m < hiddenBit then some (withSign negative m.toUInt64)
    else
      let field := (q + 1075).toNat
      if 2047 ≤ field then none
      else some (withSign negative (((field * hiddenBit) + (m - hiddenBit)).toUInt64))

/-- The number nearest to `num / den`, an infinity if that is beyond the largest one. -/
def ofRatio (negative : Bool) (num den : Nat) : UInt64 :=
  (ofRatio? negative num den).getD (infinity negative)

def ofInt (i : Int) : UInt64 := ofRatio (i < 0) i.natAbs 1

/-- The number nearest to `i * 2 ^ q`; `zeroNegative` is the sign that a zero gets. -/
def ofScaled (zeroNegative : Bool) (i : Int) (q : Int) : UInt64 :=
  if i = 0 then withSign zeroNegative 0
  else
    match q with
    | .ofNat k => ofRatio (i < 0) (i.natAbs * Nat.pow 2 k) 1
    | .negSucc k => ofRatio (i < 0) i.natAbs (Nat.pow 2 (k + 1))

end TinyScript.Binary64
