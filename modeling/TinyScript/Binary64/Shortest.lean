import TinyScript.Binary64.Basic

/-!
# The fewest digits that read back

`shortest` finds the decimal `d * 10 ^ k` with the fewest digits that rounds to a given number, and of those the one
nearest to it. The reals that round to `m * 2 ^ q` form an interval, whose ends belong to it exactly when `m` is even.
On the grid of decimals with `n` digits only the two neighbours of the number have to be tried; seventeen digits always
suffice.
-/

namespace TinyScript.Binary64

/-- A decimal number `digits * 10 ^ exponent`. -/
structure Decimal where
  digits : Nat
  exponent : Int
  deriving DecidableEq, Repr

/-- The number of decimal digits of a natural number, zero having one. -/
def digitCount (n : Nat) : Nat := (Nat.toDigits 10 n).length

/-- The interval of reals that round to a number, in units of a common denominator: the numerators of
its lower end, of the number itself and of its upper end, and the denominator. -/
structure Interval where
  low : Nat
  mid : Nat
  high : Nat
  den : Nat
  closed : Bool

/-- The interval of a finite number other than zero. -/
def interval (w : UInt64) : Interval :=
  let m := mantissa w
  let below := if m = hiddenBit && 1 < exponentField w then 1 else 2
  match scale w - 2 with
  | .ofNat k => ⟨(4 * m - below) * Nat.pow 2 k, 4 * m * Nat.pow 2 k, (4 * m + 2) * Nat.pow 2 k, 1, m % 2 = 0⟩
  | .negSucc k => ⟨4 * m - below, 4 * m, 4 * m + 2, Nat.pow 2 (k + 1), m % 2 = 0⟩

/-- Whether `d * 10 ^ e` lies in the interval. -/
def Interval.contains (i : Interval) (d : Nat) (e : Int) : Bool :=
  let (x, den) : Nat × Nat := match e with
    | .ofNat k => (d * Nat.pow 10 k, 1)
    | .negSucc k => (d, Nat.pow 10 (k + 1))
  -- compare `x / den` with the ends over `i.den`
  if i.closed then i.low * den ≤ x * i.den && x * i.den ≤ i.high * den
  else i.low * den < x * i.den && x * i.den < i.high * den

/-- The quotient of the number by `10 ^ e`, rounded down, and twice the remainder compared with the
divisor. -/
def Interval.gridPoint (i : Interval) (e : Int) : Nat × Ordering :=
  let (num, den) : Nat × Nat := match e with
    | .ofNat k => (i.mid, i.den * Nat.pow 10 k)
    | .negSucc k => (i.mid * Nat.pow 10 (k + 1), i.den)
  (num / den, compare (2 * (num % den)) den)

/-- The power of ten of the leading digit of `num / den`. -/
def leadingPower (num den : Nat) : Int :=
  if den ≤ num then (digitCount (num / den) : Int) - 1
  else
    -- the number of zeros before the first digit: `den / num` rounded up, less one digit
    let k := digitCount ((den - 1) / num)
    if num * Nat.pow 10 k < den then -(k : Int) - 1 else -(k : Int)

/-- The decimal with `n` digits in the interval that is nearest to the number, if there is one. -/
def Interval.nearest? (i : Interval) (n : Nat) : Option Decimal :=
  let e : Int := leadingPower i.mid i.den - (n : Int) + 1
  let (d, half) := i.gridPoint e
  let below := i.contains d e
  let above := i.contains (d + 1) e
  let up := match half with
    | .lt => false
    | .gt => true
    | .eq => d % 2 = 1
  if below && above then some ⟨if up then d + 1 else d, e⟩
  else if below then some ⟨d, e⟩
  else if above then some ⟨d + 1, e⟩
  else none

/-- Move trailing zeros of the digits into the exponent, at most `fuel` of them. -/
def Decimal.trim : Nat → Decimal → Decimal
  | 0, d => d
  | fuel + 1, d =>
    if d.digits ≠ 0 && d.digits % 10 = 0 then Decimal.trim fuel ⟨d.digits / 10, d.exponent + 1⟩
    else d

/-- The shortest decimal that rounds to the magnitude of a finite number. -/
def shortest (w : UInt64) : Decimal :=
  if isZero w then ⟨0, 0⟩
  else
    let i := interval w
    match (List.range 17).findSome? fun n => i.nearest? (n + 1) with
    | some d => d.trim 20
    | none => ⟨0, 0⟩

end TinyScript.Binary64
