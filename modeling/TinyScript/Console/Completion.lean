import TinyScript.Text.Basic

/-!
# Completion

What the last word of a line may be meant to become: a keyword, a native function or a command.
-/

namespace TinyScript.Console

/-- What can be completed. -/
def completions : List Text :=
  let words : List String :=
    ["def ", "let ", "in ", "if ", "then ", "elif ", "else ", "for ", "do ", "reduce ", "fn(", "true",
     "false", "nil", "print(", "typename(", "pair(", "head(", "tail(", "len(", "get(", "put(", "del(",
     "keys(", "json(", "unjson(", "msgpack(", "unmsgpack(", "blake2(", "bsave(", "bload(", "dump(",
     ".quit", ".ast ", ".gc", ".verb", ".ls"]
  words.map Text.ofString

/-- Whether a byte ends the word before it: a blank, an opening bracket or a comma. -/
def isWordEnd (b : UInt8) : Bool := b = 32 || b = 40 || b = 91 || b = 123 || b = 44

/-- A line with its last word completed in every way. -/
def complete (line : Text) : List Text :=
  let word := (line.bytes.reverse.takeWhile fun b => !isWordEnd b).reverse
  let front : Text := ⟨line.bytes.take (line.size - word.length)⟩
  (completions.filter fun c => c.startsWith ⟨word⟩).map (front ++ ·)

end TinyScript.Console
