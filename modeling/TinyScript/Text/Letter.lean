import TinyScript.Text.Category
import TinyScript.Text.Range

/-!
# Letters

The general category L of Unicode 15: upper and lower case, title case, modifier letters and all
other letters.
-/

namespace TinyScript.Text

/-- The letters within one byte. -/
def latinRanges : List (Nat × Nat) :=
  [(0x41, 0x5A), (0x61, 0x7A), (0xAA, 0xAA), (0xB5, 0xB5), (0xBA, 0xBA), (0xC0, 0xD6), (0xD8, 0xF6),
   (0xF8, 0xFF)]

def letters : List Stripe := (Category.find? "L").getD []

/-- Whether a character is a letter. The whole table is for what is not Latin. -/
def isLetter (c : Char) : Bool :=
  if c.toNat < 0x100 then inRanges latinRanges c.toNat else inStripes letters c.toNat

end TinyScript.Text
