import TinyScript.Text.Category

/-!
# Characters that show

Letters, marks, numbers, punctuation and symbols of Unicode 15, and the space. A quoted text writes
every other character as an escape.
-/

namespace TinyScript.Text

/-- The letters, marks, numbers, punctuation and symbols. -/
def graphics : List Stripe :=
  (["L", "M", "N", "P", "S"] : List Text).flatMap fun group => (Category.find? group).getD []

/-- Whether a character is written as itself in a quoted text. The table is for what is not ASCII. -/
def isGraphic (c : Char) : Bool :=
  if c.toNat < 0x80 then ' ' ≤ c && c ≤ '~' else inStripes graphics c.toNat

end TinyScript.Text
