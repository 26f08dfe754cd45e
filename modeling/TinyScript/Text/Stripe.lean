import TinyScript.Text.Basic

/-!
# Stripes of code points

A stripe is a run of code points at equal distances. Characters of one property often stand at every
second code point, upper and lower case in turn, so that stripes give shorter tables than ranges.
-/

namespace TinyScript.Text

/-- The code points `low`, `low + step`, … up to `high`. -/
structure Stripe where
  low : Nat
  high : Nat
  step : Nat
  deriving DecidableEq, Inhabited, Repr

/-- The value of a hexadecimal numeral. -/
def hexValue (t : String) : Nat :=
  t.foldl (fun n c => 16 * n + (if c.isDigit then c.toNat - '0'.toNat else c.toNat - 'A'.toNat + 10)) 0

/-- A stripe as it stands in a table: how far it begins behind `last`, after a hyphen how far it goes, if it has
more than one code point, and after a slash their distance, if it is not one. -/
def Stripe.read (last : Nat) (t : String) : Stripe :=
  match (t.splitOn "-").map (·.splitOn "/") with
  | [[gap], [extent, step]] => ⟨last + hexValue gap, last + hexValue gap + hexValue extent, hexValue step⟩
  | [[gap], [extent]] => ⟨last + hexValue gap, last + hexValue gap + hexValue extent, 1⟩
  | _ => ⟨last + hexValue t, last + hexValue t, 1⟩

/-- The stripes of a table, in ascending order. Each begins behind the one before it, the first behind zero. -/
def stripes (lines : List String) : List Stripe :=
  go 0 (lines.flatMap (·.splitOn " "))
where
  go (last : Nat) : List String → List Stripe
    | [] => []
    | t :: ts => let s := Stripe.read last t; s :: go s.high ts

def Stripe.contains (s : Stripe) (n : Nat) : Bool :=
  s.low ≤ n && n ≤ s.high && (n - s.low) % s.step = 0

/-- Whether a code point is in one of several stripes. -/
def inStripes (stripes : List Stripe) (n : Nat) : Bool := stripes.any (·.contains n)

end TinyScript.Text
