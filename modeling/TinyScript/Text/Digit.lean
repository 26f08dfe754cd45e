import TinyScript.Text.Category

/-!
# Decimal digits

The general category Nd of Unicode 15. Only the ASCII digits can be part of a number; the others begin a
number that is then refused.
-/

namespace TinyScript.Text

/-- Whether a character is a decimal digit of some script. The table is for what is not Latin. -/
def isDigit (c : Char) : Bool :=
  if c.toNat < 0x100 then '0' ≤ c && c ≤ '9' else inStripes Category.decimalDigit c.toNat

end TinyScript.Text
