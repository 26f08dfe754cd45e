import TinyScript.Data.Json.Number

/-!
# Reading JSON

`read?` takes the first value of a text and ignores what follows it. It is lenient: every control character is white
space, strings may hold any raw byte, and a key may be a bare scalar. Lists and maps nest at most `maxDepth - 1` deep.

A key may come again. Its new value is then read in place of the older one and keeps its kind: a text takes a number by
its spelling, a number takes a quoted number, a list is overwritten item by item and never grows, and entries are added
to a map. Only `null` takes the place of anything, and anything takes the place of `null`.
-/

namespace TinyScript.Data.Json

/-- A value this deep inside lists and maps is refused. -/
def maxDepth : Nat := 1024

def isSpace (b : UInt8) : Bool := b ≤ 32

def skip (bs : List UInt8) : List UInt8 := bs.dropWhile isSpace

/-! ## Strings -/

/-- Four digits of base sixteen; anything else is read as the replacement character. -/
def unit4 (a b c d : UInt8) : Nat :=
  match Text.digitValue? a, Text.digitValue? b, Text.digitValue? c, Text.digitValue? d with
  | some a, some b, some c, some d => ((a * 16 + b) * 16 + c) * 16 + d
  | _, _, _, _ => 0xFFFD

/-- Whether a number is half of a surrogate pair. -/
def isSurrogate (n : Nat) : Bool := 0xD800 ≤ n && n < 0xE000

/-- The character of a surrogate pair. -/
def joinPair (high low : Nat) : Char :=
  if 0xD800 ≤ high && high < 0xDC00 && 0xDC00 ≤ low && low < 0xE000 then
    Char.ofNat ((high - 0xD800) * 1024 + (low - 0xDC00) + 0x10000)
  else Text.replacement

/-- The byte that a one-letter escape stands for. -/
def letterEscape? (c : UInt8) : Option UInt8 :=
  if c = 34 || c = 92 || c = 47 || c = 39 then some c
  else if c = 98 then some 8
  else if c = 102 then some 12
  else if c = 110 then some 10
  else if c = 114 then some 13
  else if c = 116 then some 9
  else none

/-- The bytes of a string behind its opening quote, and what follows the closing one. The bytes read
so far are in `acc`, last first. -/
def stringBody? : List UInt8 → List UInt8 → Option (Text × List UInt8)
  | _, [] => none
  | acc, 34 :: rest => some (⟨acc.reverse⟩, rest)
  | acc, 92 :: 117 :: a :: b :: c :: d :: rest =>
    let n := unit4 a b c d
    if isSurrogate n then
      match rest with
      | x :: y :: a :: b :: c :: d :: rest =>
        let ch := if x = 92 && y = 117 then joinPair n (unit4 a b c d) else Text.replacement
        stringBody? ((String.utf8EncodeChar ch).reverse ++ acc) rest
      | _ => none
    else stringBody? ((String.utf8EncodeChar (Char.ofNat n)).reverse ++ acc) rest
  | acc, 92 :: c :: rest =>
    match letterEscape? c with
    | some b => stringBody? (b :: acc) rest
    | none => none
  | acc, b :: rest => stringBody? (b :: acc) rest

/-! ## Scalars -/

/-- What follows a literal, if it stands at the front. -/
def literal? (word : Text) (bs : List UInt8) : Option (List UInt8) := Text.stripBytes? word.bytes bs

/-- A key: a string, or a bare scalar taken by its text. -/
def key? (bs : List UInt8) : Option (Text × List UInt8) :=
  match skip bs with
  | [] => none
  | 34 :: rest => stringBody? [] rest
  | 110 :: rest => (literal? "ull" rest).map fun r => (Text.empty, r)
  | 116 :: rest => (literal? "rue" rest).map fun r => (("true" : Text), r)
  | 102 :: rest => (literal? "alse" rest).map fun r => (("false" : Text), r)
  | bs => some (⟨bs.takeWhile isNumberByte⟩, bs.dropWhile isNumberByte)

/-- A string, a truth value or a number. -/
def scalar? : List UInt8 → Option (Datum × List UInt8)
  | 34 :: rest => (stringBody? [] rest).map fun (t, r) => (.text t, r)
  | 116 :: rest => (literal? "rue" rest).map fun r => (.bool true, r)
  | 102 :: rest => (literal? "alse" rest).map fun r => (.bool false, r)
  | bs =>
    let run := bs.takeWhile isNumberByte
    if run.isEmpty then none else (number? run).map fun d => (d, bs.dropWhile isNumberByte)

/-! ## Scalars in place of older ones -/

/-- The bytes of a number: what is between quotes, as it stands, or a run that may be empty. -/
def numeral? : List UInt8 → Option (List UInt8 × List UInt8)
  | 34 :: rest =>
    match rest.dropWhile (· ≠ 34) with
    | _ :: after => some (rest.takeWhile (· ≠ 34), after)
    | [] => none
  | bs => some (bs.takeWhile isNumberByte, bs.dropWhile isNumberByte)

/-- A truth value; `null` counts as false. -/
def truth? : List UInt8 → Option (Bool × List UInt8)
  | 116 :: rest => (literal? "rue" rest).map fun r => (true, r)
  | 102 :: rest => (literal? "alse" rest).map fun r => (false, r)
  | 110 :: rest => (literal? "ull" rest).map fun r => (false, r)
  | _ => none

/-- A truth value, which may be quoted where a key is expected. One byte is taken for the closing
quote, whatever it is. -/
def truthAt? (atKey : Bool) : List UInt8 → Option (Bool × List UInt8)
  | 34 :: rest =>
    if atKey then
      match truth? rest with
      | some (b, _ :: after) => some (b, after)
      | _ => none
    else none
  | bs => truth? bs

/-! ## Values that are passed over -/

/-- What follows a string, given what is behind its opening quote. -/
def passString? : List UInt8 → Option (List UInt8)
  | [] => none
  | 34 :: rest => some rest
  | [92] => none
  | 92 :: _ :: rest => passString? rest
  | _ :: rest => passString? rest

/-- Where a byte stands inside brackets that are passed over. -/
inductive Within where
  | brackets
  | string
  | escape

/-- What follows the last of some open brackets. Brackets are counted without looking at their kind. -/
def passBrackets? : Within → Nat → List UInt8 → Option (List UInt8)
  | _, _, [] => none
  | .escape, n, _ :: rest => passBrackets? .string n rest
  | .string, n, b :: rest =>
    passBrackets? (if b = 34 then .brackets else if b = 92 then .escape else .string) n rest
  | .brackets, n, b :: rest =>
    if b = 34 then passBrackets? .string n rest
    else if b = 91 || b = 123 then passBrackets? .brackets (n + 1) rest
    else if b = 93 || b = 125 then
      if n ≤ 1 then some rest else passBrackets? .brackets (n - 1) rest
    else passBrackets? .brackets n rest

/-- What follows a value. Numbers and the inside of lists and maps are not checked. -/
def pass? (bs : List UInt8) : Option (List UInt8) :=
  match skip bs with
  | [] => none
  | 34 :: rest => passString? rest
  | 110 :: rest => literal? "ull" rest
  | 116 :: rest => literal? "rue" rest
  | 102 :: rest => literal? "alse" rest
  | 91 :: rest => passBrackets? .brackets 1 rest
  | 123 :: rest => passBrackets? .brackets 1 rest
  | bs => some (bs.dropWhile isNumberByte)

/-! ## Lists and maps

Each reader is given the reader of what is inside: `value atKey older bs` reads a value in place of
`older`, where `older` is `null` for a value of its own. -/

/-- How the values inside a list or map are read. -/
abbrev Inner := Bool → Datum → List UInt8 → Option (Datum × List UInt8)

/-- What follows a separator, which the first item does without. -/
def separator? (first : Bool) (mark : UInt8) (bs : List UInt8) : Option (List UInt8) :=
  if first then some bs
  else match skip bs with
    | b :: rest => if b = mark then some rest else none
    | [] => none

/-- The items of a list behind its first bracket, at most `fuel` of them. -/
def items? (value : Inner) : Nat → List Datum → List UInt8 → Option (List Datum × List UInt8)
  | 0, _, _ => none
  | fuel + 1, acc, bs =>
    match skip bs with
    | 93 :: rest => some (acc.reverse, rest)
    | bs =>
      match (separator? acc.isEmpty 44 bs).bind (value false .null) with
      | none => none
      | some (d, rest) => items? value fuel (d :: acc) rest

/-- Read the entries of a map behind its first bracket, at most `fuel` of them, into the entries that
there are. -/
def entries? (value : Inner) :
    Nat → Bool → List (Text × Datum) → List UInt8 → Option (List (Text × Datum) × List UInt8)
  | 0, _, _, _ => none
  | fuel + 1, first, acc, bs =>
    match skip bs with
    | 125 :: rest => some (acc, rest)
    | bs =>
      match (separator? first 44 bs).bind key? with
      | none => none
      | some (k, rest) =>
        let older := ((Datum.map acc).field? k).getD .null
        match (separator? false 58 rest).bind (value false older) with
        | none => none
        | some (d, rest) => entries? value fuel false (Datum.insert k d acc) rest

/-- Read the items of a list, or the keys and values of a map in turn, in place of older items. Older
items without a newer one stay, and newer ones without an older one are passed over. -/
def itemsOver? (value : Inner) (ofMap : Bool) :
    Nat → Nat → List Datum → List Datum → List UInt8 → Option (List Datum × List UInt8)
  | 0, _, _, _, _ => none
  | fuel + 1, index, acc, older, bs =>
    match skip bs with
    | [] => none
    | b :: rest =>
      if b = 93 || b = 125 then
        if b = (if ofMap then 125 else 93) then some (acc.reverse ++ older, rest) else none
      else
        let atKey := ofMap && index % 2 = 0
        let mark := if ofMap && !atKey then 58 else 44
        match separator? (index = 0) mark (b :: rest) with
        | none => none
        | some bs =>
          match older with
          | [] =>
            match pass? bs with
            | none => none
            | some rest => itemsOver? value ofMap fuel (index + 1) acc [] rest
          | o :: older =>
            match value atKey o bs with
            | none => none
            | some (d, rest) => itemsOver? value ofMap fuel (index + 1) (d :: acc) older rest

/-! ## Values -/

/-- The value at the front, read in place of `older`, with lists and maps nested at most `room` deep,
and what follows it. -/
def value? (room : Nat) (atKey : Bool) (older : Datum) (bs : List UInt8) :
    Option (Datum × List UInt8) :=
  match skip bs with
  | [] => none
  | b :: rest =>
    if b = 110 then (literal? "ull" rest).map fun r => (.null, r)
    else
      match older with
      | .bool _ => (truthAt? atKey (b :: rest)).map fun (v, r) => (.bool v, r)
      | .int _ => (numeral? (b :: rest)).bind fun (n, r) => (integer? n).map fun i => (.int i, r)
      | .float _ => (numeral? (b :: rest)).bind fun (n, r) => (float? n).map fun w => (.float w, r)
      | .text _ => (key? (b :: rest)).map fun (t, r) => (.text t, r)
      | .list items =>
        match room with
        | 0 => none
        | room + 1 =>
          if b = 91 || b = 123 then
            (itemsOver? (value? room) (b = 123) (rest.length + 1) 0 [] items rest).map
              fun (ds, r) => (.list ds, r)
          else none
      | .map entries =>
        match room with
        | 0 => none
        | room + 1 =>
          if b = 123 then
            (entries? (value? room) (rest.length + 1) true entries rest).map
              fun (es, r) => (.map es, r)
          else none
      | _ =>
        if b = 91 then
          match room with
          | 0 => none
          | room + 1 =>
            (items? (value? room) (rest.length + 1) [] rest).map fun (ds, r) => (.list ds, r)
        else if b = 123 then
          match room with
          | 0 => none
          | room + 1 =>
            (entries? (value? room) (rest.length + 1) true [] rest).map fun (es, r) => (.map es, r)
        else scalar? (b :: rest)

/-- The first value of a text. -/
def read? (t : Text) : Option Datum := (value? (maxDepth - 1) false .null t.bytes).map Prod.fst

end TinyScript.Data.Json
