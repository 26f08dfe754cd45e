/-!
# Text

Programs of the language, and the strings they work with, are sequences of bytes. They are UTF-8 by
convention only: a string literal can spell any byte, a file can hold any byte, and nothing that
moves text around looks at its encoding. `Text` is such a sequence, and the operations here never
leave the level of bytes. `TinyScript.Text.Utf8` reads a text as characters.
-/

namespace TinyScript

/-- A sequence of bytes. -/
structure Text where
  bytes : List UInt8
  deriving DecidableEq, Inhabited, Repr

namespace Text

def empty : Text := ⟨[]⟩

/-- The UTF-8 encoding of a sequence of characters. -/
def ofChars (cs : List Char) : Text := ⟨cs.flatMap String.utf8EncodeChar⟩

/-- The UTF-8 encoding of a string. -/
def ofString (s : String) : Text := ofChars s.toList

instance : Coe String Text := ⟨ofString⟩

instance : Append Text := ⟨fun a b => ⟨a.bytes ++ b.bytes⟩⟩

@[simp] theorem bytes_append (a b : Text) : (a ++ b).bytes = a.bytes ++ b.bytes := rfl

theorem append_assoc (a b c : Text) : a ++ b ++ c = a ++ (b ++ c) :=
  congrArg Text.mk (List.append_assoc _ _ _)

theorem append_empty (a : Text) : a ++ empty = a := congrArg Text.mk (List.append_nil _)

def size (t : Text) : Nat := t.bytes.length

def isEmpty (t : Text) : Bool := t.bytes.isEmpty

/-- Texts one after the other. -/
def concat (ts : List Text) : Text := ⟨ts.flatMap bytes⟩

/-- Texts one after the other, with a separator between neighbours. -/
def join (sep : Text) : List Text → Text
  | [] => empty
  | t :: ts => t ++ concat (ts.map (sep ++ ·))

/-- `n` copies of a text. -/
def replicate (n : Nat) (t : Text) : Text := concat (List.replicate n t)

/-- Compare byte by byte; a proper beginning comes first. -/
def leBytes : List UInt8 → List UInt8 → Bool
  | [], _ => true
  | _ :: _, [] => false
  | x :: xs, y :: ys => x < y || (x == y && leBytes xs ys)

/-- Whether `a` comes before `b`, or equals it, in the order of their bytes. -/
def le (a b : Text) : Bool := leBytes a.bytes b.bytes

/-- What follows the bytes of the first list, when the second begins with them. -/
def stripBytes? : List UInt8 → List UInt8 → Option (List UInt8)
  | [], bs => some bs
  | _ :: _, [] => none
  | p :: ps, b :: bs => if p = b then stripBytes? ps bs else none

/-- What follows the bytes of `p`, when `t` begins with them. -/
def stripStart? (t p : Text) : Option Text := (stripBytes? p.bytes t.bytes).map Text.mk

/-- Whether `t` begins with the bytes of `p`. -/
def startsWith (t p : Text) : Bool := (t.stripStart? p).isSome

/-- Whether `t` ends with the byte `b`. -/
def endsWithByte (t : Text) (b : UInt8) : Bool := t.bytes.getLast? == some b

/-- Sort texts by their bytes. -/
def sort (ts : List Text) : List Text := ts.mergeSort le

/-- The decimal digits of a natural number. -/
def ofNat (n : Nat) : Text := ⟨(Nat.toDigits 10 n).map fun c => c.toNat.toUInt8⟩

/-- The decimal digits of an integer, after a minus sign if it is negative. -/
def ofInt : Int → Text
  | .ofNat n => ofNat n
  | .negSucc n => ⟨[45]⟩ ++ ofNat (n + 1)

def ofBool (b : Bool) : Text := if b then "true" else "false"

/-- The lower case digits of a number in base sixteen, at least `width` of them. -/
def ofHex (width n : Nat) : Text :=
  let ds := (Nat.toDigits 16 n).map fun c => c.toNat.toUInt8
  ⟨List.replicate (width - ds.length) 48 ++ ds⟩

/-- A text between single quotes. -/
def quoted (t : Text) : Text := "'" ++ t ++ "'"

/-- A text cut at every newline; the newlines themselves are dropped. -/
def lines (t : Text) : List Text :=
  let (last, before) := t.bytes.foldl (fun (cur, acc) b =>
    if b = 10 then ([], Text.mk cur.reverse :: acc) else (b :: cur, acc)) ([], [])
  (Text.mk last.reverse :: before).reverse

end Text

end TinyScript
