import TinyScript.Text.Basic

/-!
# Lines of input

The lines that a console reads from a stream. A newline ends a line, and a carriage return before it belongs
to the line's end. A line is gathered in blocks; a stream that stops right after a full block has no more to
give, and the line gathered so far is lost.
-/

namespace TinyScript.Console

/-- What a reader of lines can give. -/
inductive Input where
  | line (t : Text)
  /-- A failure, which ends the entry under way. -/
  | failure (message : Text)
  deriving DecidableEq, Inhabited, Repr

def blockSize : Nat := 4096

/-- Whether bytes without a newline end right after a full block. A carriage return at the end of a block is
left for the next one. The first argument bounds the number of blocks. -/
def endsWithBlock : Nat → List UInt8 → Bool
  | 0, _ => false
  | fuel + 1, bs =>
    if bs.length < blockSize then false
    else if (bs.take blockSize).getLast? = some 13 then endsWithBlock fuel (bs.drop (blockSize - 1))
    else if bs.length = blockSize then true
    else endsWithBlock fuel (bs.drop blockSize)

/-- A line that a newline ended, without its carriage return. -/
def closedLine (t : Text) : Text := if t.endsWithByte 13 then ⟨t.bytes.dropLast⟩ else t

/-- What a stream gives after its last newline. -/
def openLine (t : Text) : List Text :=
  if t.isEmpty || endsWithBlock t.size t.bytes then [] else [t]

def inputLines (t : Text) : List Input :=
  let parts := t.lines
  (parts.dropLast.map closedLine ++ (parts.getLast?.map openLine).getD []).map .line

end TinyScript.Console
