import TinyScript.Text.Basic
import TinyScript.Binary64.Shortest

/-!
# Writing binary floating point numbers

Three forms are in use. `fixed` has six decimals and all digits of the integer part; rendered values
and string concatenation use it. `positional` and `scientific` write the shortest decimal that reads
back without and with an exponent, and `general` chooses between the two by the size of the number.
-/

namespace TinyScript.Binary64

/-- The text of a word that is not a finite number. -/
def special? (w : UInt64) : Option Text :=
  if isNaN w then some "NaN"
  else if isInfinite w then some (if isNegative w then "-Inf" else "+Inf")
  else none

/-- A minus sign for a negative number, the negative zero included. -/
def signText (w : UInt64) : Text := if isNegative w then "-" else Text.empty

/-- The digits of a number, with zeros in front up to a width. -/
def padded (width n : Nat) : Text :=
  let ds := Text.ofNat n
  Text.replicate (width - ds.size) "0" ++ ds

/-- The magnitude of a finite number in millionths, rounded to the nearest, a tie to the even one. -/
def millionths (w : UInt64) : Nat :=
  match scale w with
  | .ofNat k => mantissa w * Nat.pow 2 k * 1000000
  | .negSucc k => roundDiv (mantissa w * 1000000) (Nat.pow 2 (k + 1))

/-- Six decimals. -/
def fixed (w : UInt64) : Text :=
  match special? w with
  | some t => t
  | none =>
    let n := millionths w
    signText w ++ Text.ofNat (n / 1000000) ++ "." ++ padded 6 (n % 1000000)

/-- A decimal without exponent: zeros fill the places up to the point. -/
def Decimal.positional (d : Decimal) : Text :=
  match d.exponent with
  | .ofNat k => Text.ofNat d.digits ++ (if d.digits = 0 then Text.empty else Text.replicate k "0")
  | .negSucc k =>
    Text.ofNat (d.digits / Nat.pow 10 (k + 1)) ++ "." ++ padded (k + 1) (d.digits % Nat.pow 10 (k + 1))

/-- The power of ten of the first digit. -/
def Decimal.leading (d : Decimal) : Int := d.exponent + (digitCount d.digits : Int) - 1

/-- A decimal with one digit before the point and an exponent of at least two digits. -/
def Decimal.scientific (d : Decimal) : Text :=
  let n := digitCount d.digits
  let first := d.digits / Nat.pow 10 (n - 1)
  let rest := d.digits % Nat.pow 10 (n - 1)
  let e := d.leading
  Text.ofNat first ++ (if n = 1 then Text.empty else "." ++ padded (n - 1) rest)
    ++ "e" ++ (if e < 0 then "-" else "+") ++ padded 2 e.natAbs

/-- The shortest decimal that reads back, without exponent when its first digit stands between the
fourth place behind the point and the sixth before it. -/
def general (w : UInt64) : Text :=
  match special? w with
  | some t => t
  | none =>
    let d := shortest w
    signText w ++ (if d.leading < -4 || 6 ≤ d.leading then d.scientific else d.positional)

end TinyScript.Binary64
