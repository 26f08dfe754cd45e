import TinyScript.Binary64.Basic

/-!
# Arithmetic and order of binary floating point numbers

Each operation computes the exact result and rounds once. An operand that is no number is handed on,
the left one first, with the bit set that says it has been used; an operation without a result gives
`invalid`.
-/

namespace TinyScript.Binary64

/-- A word that is no number, as an operation hands it on. -/
def quiet (w : UInt64) : UInt64 := w ||| 0x8000000000000

/-- Hand on an operand that is no number; otherwise go on. -/
def propagate (a b : UInt64) (k : Unit → UInt64) : UInt64 :=
  if isNaN a then quiet a else if isNaN b then quiet b else k ()

/-- The signed integer `m` of a finite number `m * 2 ^ q`. -/
def signedMantissa (w : UInt64) : Int :=
  if isNegative w then -(mantissa w : Int) else mantissa w

def add (a b : UInt64) : UInt64 :=
  propagate a b fun _ =>
    if isInfinite a then
      if isInfinite b && isNegative a != isNegative b then invalid else a
    else if isInfinite b then b
    else
      let q := min (scale a) (scale b)
      let i := signedMantissa a * Nat.pow 2 (scale a - q).toNat + signedMantissa b * Nat.pow 2 (scale b - q).toNat
      ofScaled (isNegative a && isNegative b) i q

def sub (a b : UInt64) : UInt64 := propagate a b fun _ => add a (neg b)

def mul (a b : UInt64) : UInt64 :=
  propagate a b fun _ =>
    let negative := isNegative a != isNegative b
    if isInfinite a || isInfinite b then
      if isZero a || isZero b then invalid else infinity negative
    else ofScaled negative (signedMantissa a * signedMantissa b) (scale a + scale b)

def div (a b : UInt64) : UInt64 :=
  propagate a b fun _ =>
    let negative := isNegative a != isNegative b
    if isInfinite a then if isInfinite b then invalid else infinity negative
    else if isInfinite b then withSign negative 0
    else if isZero b then if isZero a then invalid else infinity negative
    else
      let q := scale a - scale b
      match q with
      | .ofNat k => ofRatio negative (mantissa a * Nat.pow 2 k) (mantissa b)
      | .negSucc k => ofRatio negative (mantissa a) (mantissa b * Nat.pow 2 (k + 1))

/-- An integer that grows with the number; equal numbers have equal keys, the two zeros too. -/
def orderKey (w : UInt64) : Int :=
  let magnitude : Int := (w &&& 0x7FFFFFFFFFFFFFFF).toNat
  if isNegative w then -magnitude else magnitude

/-- Equality of numbers; no word that is no number equals any word. -/
def eq (a b : UInt64) : Bool := !isNaN a && !isNaN b && orderKey a == orderKey b

def lt (a b : UInt64) : Bool := !isNaN a && !isNaN b && orderKey a < orderKey b

def le (a b : UInt64) : Bool := !isNaN a && !isNaN b && orderKey a ≤ orderKey b

end TinyScript.Binary64
