import TinyScript.Text.Category
import TinyScript.Text.Fold
import TinyScript.Text.Script

/-!
# Sets of characters

What one character of a text may be, as regular expressions describe it: listed code points, the
characters of a Unicode property, and unions and complements of these. A set closed under case contains
a character when it contains any character that differs from it only in case.
-/

namespace TinyScript.Regex

open Text (Stripe)

/-- A set of code points. -/
inductive CharSet where
  | stripes (ss : List Stripe)
  | union (a b : CharSet)
  | complement (s : CharSet)
  /-- Everything that differs only in case from a member. -/
  | folded (s : CharSet)
  deriving Inhabited, Repr

namespace CharSet

def contains : CharSet → Nat → Bool
  | stripes ss, n => Text.inStripes ss n
  | union a b, n => a.contains n || b.contains n
  | complement s, n => !s.contains n
  | folded s, n => (Text.orbit n).any s.contains

/-- The code points from `low` to `high`. -/
def range (low high : Nat) : CharSet := stripes [⟨low, high, 1⟩]

def single (n : Nat) : CharSet := range n n

def empty : CharSet := stripes []

def maxCode : Nat := 0x10FFFF

def all : CharSet := range 0 maxCode

/-- A set as it is or its complement. -/
def signed (positive : Bool) (s : CharSet) : CharSet := if positive then s else complement s

/-- The set with the ranges between neighbours of a list. -/
def ofRanges (rs : List (Nat × Nat)) : CharSet := stripes (rs.map fun r => ⟨r.1, r.2, 1⟩)

def digit : CharSet := range 0x30 0x39

/-- White space within one byte. -/
def space : CharSet := ofRanges [(0x9, 0xA), (0xC, 0xD), (0x20, 0x20)]

/-- Letters, digits and the underscore. -/
def word : CharSet := ofRanges [(0x30, 0x39), (0x41, 0x5A), (0x5F, 0x5F), (0x61, 0x7A)]

/-- The set that an escaped letter stands for. -/
def escape? (b : UInt8) : Option CharSet :=
  match Char.ofNat b.toNat with
  | 'd' => some digit
  | 'D' => some (complement digit)
  | 's' => some space
  | 'S' => some (complement space)
  | 'w' => some word
  | 'W' => some (complement word)
  | _ => none

/-- The sets with names between colons. -/
def named : List (String × CharSet) :=
  [("alnum", ofRanges [(0x30, 0x39), (0x41, 0x5A), (0x61, 0x7A)]),
   ("alpha", ofRanges [(0x41, 0x5A), (0x61, 0x7A)]),
   ("ascii", range 0 0x7F),
   ("blank", ofRanges [(0x9, 0x9), (0x20, 0x20)]),
   ("cntrl", ofRanges [(0, 0x1F), (0x7F, 0x7F)]),
   ("digit", digit),
   ("graph", range 0x21 0x7E),
   ("lower", range 0x61 0x7A),
   ("print", range 0x20 0x7E),
   ("punct", ofRanges [(0x21, 0x2F), (0x3A, 0x40), (0x5B, 0x60), (0x7B, 0x7E)]),
   ("space", ofRanges [(0x9, 0xD), (0x20, 0x20)]),
   ("upper", range 0x41 0x5A),
   ("word", word),
   ("xdigit", ofRanges [(0x30, 0x39), (0x41, 0x46), (0x61, 0x66)])]

/-- The set with a name, or its complement if the name begins with a caret. -/
def named? (name : Text) : Option CharSet :=
  match name.stripStart? "^" with
  | some rest => (named.find? fun e => Text.ofString e.1 = rest).map fun e => complement e.2
  | none => (named.find? fun e => Text.ofString e.1 = name).map Prod.snd

/-- The characters of a Unicode category or script. -/
def property? (name : Text) : Option CharSet :=
  if name = "Any" then some all
  else
    match Text.Category.find? name with
    | some ss => some (stripes ss)
    | none => (Text.Script.find? name).map stripes

end CharSet

end TinyScript.Regex
