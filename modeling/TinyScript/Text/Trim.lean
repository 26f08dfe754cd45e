import TinyScript.Text.Blank
import TinyScript.Text.Utf8

/-!
# Blanks at the ends and between words

Cutting a text at its blank characters. Stray bytes are not blank.
-/

namespace TinyScript.Text

/-- The bytes of each character; `skip` bytes belong to the character before. -/
def piecesFrom : Nat → List UInt8 → List (Bool × List UInt8)
  | _, [] => []
  | skip + 1, _ :: rest => piecesFrom skip rest
  | 0, a :: rest =>
    let (c, n) := front a rest
    (c.any isBlank, a :: rest.take (n - 1)) :: piecesFrom (n - 1) rest

/-- The bytes of each character, with whether it is blank. -/
def pieces (t : Text) : List (Bool × List UInt8) := piecesFrom 0 t.bytes

/-- The text of pieces. -/
def ofPieces (ps : List (Bool × List UInt8)) : Text := ⟨ps.flatMap Prod.snd⟩

/-- A text without the blanks at its ends. -/
def trim (t : Text) : Text :=
  ofPieces (((t.pieces.dropWhile Prod.fst).reverse.dropWhile Prod.fst).reverse)

/-- Cut pieces at blanks; `word` is the word under way, its latest piece first. -/
def wordsOf : List (Bool × List UInt8) → List (Bool × List UInt8) → List Text
  | [], word => if word.isEmpty then [] else [ofPieces word.reverse]
  | p :: ps, word =>
    if p.1 then
      if word.isEmpty then wordsOf ps [] else ofPieces word.reverse :: wordsOf ps []
    else wordsOf ps (p :: word)

/-- The words of a text, which blanks divide. -/
def words (t : Text) : List Text := wordsOf t.pieces []

end TinyScript.Text
