import TinyScript.Regex.Basic
import TinyScript.Text.Utf8

/-!
# Reading regular expressions

A pattern is read from left to right. Groups that are still open are kept as a stack of levels; each
level has the branches finished so far and the items of the branch under way. An error names the part of
the pattern that caused it.
-/

namespace TinyScript.Regex

/-- What can be wrong with a pattern. -/
inductive Flaw where
  | missingParen
  | missingBracket
  | missingArgument
  | nestedRepeat
  /-- Too many rounds, or fewer at most than at least. -/
  | repeatCount
  | trailingBackslash
  | groupName
  /-- A range that runs downwards, or a set of unknown name. -/
  | charRange
  | strayParen
  | groupSyntax
  | escape
  | encoding
  | depth
  | size
  deriving DecidableEq, Inhabited, Repr

def Flaw.message : Flaw → Text
  | missingParen => "missing closing )"
  | missingBracket => "missing closing ]"
  | missingArgument => "missing argument to repetition operator"
  | nestedRepeat => "invalid nested repetition operator"
  | repeatCount => "invalid repeat count"
  | trailingBackslash => "trailing backslash at end of expression"
  | groupName => "invalid named capture"
  | charRange => "invalid character class range"
  | strayParen => "unexpected )"
  | groupSyntax => "invalid or unsupported Perl syntax"
  | escape => "invalid escape sequence"
  | encoding => "invalid UTF-8"
  | depth => "expression nests too deeply"
  | size => "expression too large"

/-- A flaw and the part of the pattern that has it. -/
structure PatternError where
  flaw : Flaw
  fragment : Text
  deriving DecidableEq, Inhabited, Repr

def PatternError.message (e : PatternError) : Text :=
  "error parsing regexp: " ++ e.flaw.message ++ ": `" ++ e.fragment ++ "`"

/-- A result or an error. -/
abbrev Parsed (α : Type) := Except PatternError α

/-- Fail with a flaw in the bytes given. -/
def flawed {α : Type} (flaw : Flaw) (fragment : List UInt8) : Parsed α := .error ⟨flaw, ⟨fragment⟩⟩

/-- The bytes of `before` that come before its end `after`. -/
def consumed (before after : List UInt8) : List UInt8 := before.take (before.length - after.length)

/-- The byte of a character within one byte. -/
def byte (c : Char) : UInt8 := c.toNat.toUInt8

/-! ## Characters -/

/-- The next code point. At the end of the pattern it is the replacement character. -/
def nextCode (bs : List UInt8) : Parsed (Nat × List UInt8) :=
  match bs with
  | [] => .ok (Text.replacement.toNat, [])
  | b :: rest =>
    match Text.front b rest with
    | (some c, n) => .ok (c.toNat, bs.drop n)
    | (none, _) => flawed .encoding bs

/-- Check that bytes are characters; the flaw is shown from the first bad byte on. -/
def checkCodes : Nat → List UInt8 → Parsed Unit
  | 0, _ => .ok ()
  | _ + 1, [] => .ok ()
  | fuel + 1, bs => do
    let (_, rest) ← nextCode bs
    checkCodes fuel rest

/-- Check that all bytes are characters. -/
def checkAll (bs : List UInt8) : Parsed Unit := checkCodes bs.length bs

/-- The value of a digit in base sixteen. -/
def hexValue? (n : Nat) : Option Nat :=
  if 0x30 ≤ n && n ≤ 0x39 then some (n - 0x30)
  else if 0x41 ≤ n && n ≤ 0x46 then some (n - 0x41 + 10)
  else if 0x61 ≤ n && n ≤ 0x66 then some (n - 0x61 + 10)
  else none

/-- Whether a byte is a digit in base eight. -/
def isOctal (b : UInt8) : Bool := 0x30 ≤ b && b ≤ 0x37

/-- At most `n` more digits in base eight. -/
def octal : Nat → Nat → List UInt8 → Nat × List UInt8
  | n + 1, value, b :: bs => if isOctal b then octal n (value * 8 + (b.toNat - 0x30)) bs else (value, b :: bs)
  | _, value, bs => (value, bs)

/-- Digits in base sixteen up to a closing brace. On failure the bytes left over are given. -/
def braced : Nat → Nat → Nat → List UInt8 → Parsed (Except (List UInt8) (Nat × List UInt8))
  | 0, _, _, bs => .ok (.error bs)
  | _ + 1, _, _, [] => .ok (.error [])
  | fuel + 1, count, value, bs => do
    let (c, rest) ← nextCode bs
    if c = '\x7d'.toNat then
      return if count = 0 then .error rest else .ok (value, rest)
    match hexValue? c with
    | none => return .error rest
    | some d =>
      let value := value * 16 + d
      if value > CharSet.maxCode then return .error rest
      braced fuel (count + 1) value rest

/-- The code point of a letter that stands for a control character. -/
def controlEscape? (c : Char) : Option Nat :=
  match c with
  | 'a' => some 7
  | 'f' => some 12
  | 'n' => some 10
  | 'r' => some 13
  | 't' => some 9
  | 'v' => some 11
  | _ => none

/-- A code point written in base sixteen behind `\x`. On failure the bytes left over are given. -/
def hexEscape (bs : List UInt8) : Parsed (Except (List UInt8) (Nat × List UInt8)) :=
  match bs with
  | [] => .ok (.error [])
  | _ => do
    let (c, rest) ← nextCode bs
    if c = '\x7b'.toNat then braced (rest.length + 1) 0 0 rest
    else
      let (d, rest) ← nextCode rest
      match hexValue? c, hexValue? d with
      | some x, some y => return .ok (x * 16 + y, rest)
      | _, _ => return .error rest

/-- The code point that an escape stands for; `bs` begins with the backslash. -/
def escaped (bs : List UInt8) : Parsed (Nat × List UInt8) :=
  match bs with
  | [] | [_] => flawed .trailingBackslash []
  | _ :: tail => do
    let (n, rest) ← nextCode tail
    let bad (left : List UInt8) : Parsed (Nat × List UInt8) := flawed .escape (consumed bs left)
    if n ≥ 0x80 then bad rest
    else
      let c := Char.ofNat n
      if c = '0' || ('1' ≤ c && c ≤ '7' && (rest.head?.any isOctal)) then
        return octal 2 (n - 0x30) rest
      else if c = 'x' then
        match ← hexEscape rest with
        | .ok r => return r
        | .error left => bad left
      else
        match controlEscape? c with
        | some m => return (m, rest)
        | none => if c.isAlphanum then bad rest else return (n, rest)

/-! ## Sets -/

/-- The ways in which parts of a pattern are read. -/
structure Mode where
  fold : Bool := false
  multiline : Bool := false
  dotAll : Bool := false
  reluctant : Bool := false
  deriving DecidableEq, Inhabited, Repr

/-- A set as the mode has it. -/
def Mode.set (m : Mode) (s : CharSet) : CharSet := if m.fold then .folded s else s

/-- A set read with a mode: the complement of a set is taken after case is dropped. -/
def Mode.signedSet (m : Mode) : CharSet → CharSet
  | .complement s => .complement (m.set s)
  | s => m.set s

/-- The bytes up to the first place where a text begins, and what follows that text. -/
def cutAt (mark : Text) : List UInt8 → List UInt8 → Option (List UInt8 × List UInt8)
  | acc, bs =>
    match Text.stripBytes? mark.bytes bs with
    | some rest => some (acc.reverse, rest)
    | none =>
      match bs with
      | [] => none
      | b :: bs => cutAt mark (b :: acc) bs
termination_by _ bs => bs.length

/-- A set with a property behind `\p` or `\P`, a letter or a name in braces, if there is one here. -/
def property? (m : Mode) (bs : List UInt8) : Parsed (Option (CharSet × List UInt8)) :=
  match bs with
  | a :: b :: tail =>
    if a = byte '\\' && (b = byte 'p' || b = byte 'P') then do
      let (c, rest) ← nextCode tail
      let (name, rest) ←
        if c ≠ '\x7b'.toNat then pure (consumed tail rest, rest)
        else
          match cutAt "\x7d" [] tail with
          | none => do
            checkAll bs
            flawed .charRange bs
          | some (inner, rest) => do
            let name := inner.drop 1
            checkAll name
            pure (name, rest)
      let positive := b = byte 'p'
      let (positive, bare) := match name with
        | 0x5E :: bare => (!positive, bare)
        | bare => (positive, bare)
      match CharSet.property? ⟨bare⟩ with
      | none => flawed .charRange (consumed bs rest)
      | some s => return some (.signed positive (m.set s), rest)
    else return none
  | _ => return none

/-- A set such as `\d`, if there is one here. -/
def letterSet? (m : Mode) (bs : List UInt8) : Option (CharSet × List UInt8) :=
  match bs with
  | 0x5C :: b :: rest => (CharSet.escape? b).map fun s => (m.signedSet s, rest)
  | _ => none

/-- A set with a name between colons, if there is one here. -/
def namedSet? (m : Mode) (bs : List UInt8) : Parsed (Option (CharSet × List UInt8)) :=
  match bs with
  | 0x5B :: 0x3A :: tail =>
    match cutAt ":]" [] tail with
    | none => return none
    | some (name, rest) =>
      match CharSet.named? ⟨name⟩ with
      | some s => return some (m.signedSet s, rest)
      | none => flawed .charRange (consumed bs rest)
  | _ => return none

/-- One code point within brackets. `whole` begins with the opening bracket. -/
def bracketCode (whole bs : List UInt8) : Parsed (Nat × List UInt8) :=
  match bs with
  | [] => flawed .missingBracket whole
  | b :: _ => if b = byte '\\' then escaped bs else nextCode bs

/-- One code point or a range of them within brackets. -/
def bracketRange (m : Mode) (whole bs : List UInt8) : Parsed (CharSet × List UInt8) := do
  let (low, rest) ← bracketCode whole bs
  match rest with
  | 0x2D :: b :: tail =>
    if b = byte ']' then return (m.set (.single low), rest)
    else
      let (high, rest) ← bracketCode whole (b :: tail)
      if high < low then flawed .charRange (consumed bs rest)
      else return (m.set (.range low high), rest)
  | rest => return (m.set (.single low), rest)

/-- One part of a set in brackets. -/
def bracketPart (m : Mode) (whole bs : List UInt8) : Parsed (CharSet × List UInt8) := do
  match ← namedSet? m bs with
  | some r => return r
  | none =>
    match ← property? m bs with
    | some r => return r
    | none =>
      match letterSet? m bs with
      | some r => return r
      | none => bracketRange m whole bs

/-- The parts of a set in brackets, up to the closing one. A closing bracket that comes first is an
ordinary character. -/
def bracketParts (m : Mode) (whole : List UInt8) :
    Nat → Bool → CharSet → List UInt8 → Parsed (CharSet × List UInt8)
  | 0, _, _, _ => flawed .missingBracket whole
  | fuel + 1, first, acc, bs =>
    match bs, first with
    | 0x5D :: rest, false => return (acc, rest)
    | bs, _ => do
      let (s, rest) ← bracketPart m whole bs
      bracketParts m whole fuel false (.union acc s) rest

/-- A set in brackets; `bs` begins with the opening one. -/
def bracketSet (m : Mode) (bs : List UInt8) : Parsed (CharSet × List UInt8) := do
  let tail := bs.drop 1
  let (negated, tail) := match tail with
    | 0x5E :: rest => (true, rest)
    | rest => (false, rest)
  let (s, rest) ← bracketParts m bs (tail.length + 1) true .empty tail
  return (.signed (!negated) s, rest)

/-! ## Levels -/

/-- A group that is open. -/
structure Level where
  outer : Mode := {}
  captures : Bool := false
  branches : List Regex := []
  /-- The items of the branch under way, the latest first. -/
  items : List Regex := []
  deriving Inhabited

namespace Level

def push (l : Level) (r : Regex) : Level := { l with items := r :: l.items }

/-- Finish a branch and begin another. -/
def branch (l : Level) : Level :=
  { l with branches := ofItems l.items.reverse :: l.branches, items := [] }

def close (l : Level) : Regex :=
  let body := ofBranches (l.branch.branches.reverse)
  if l.captures then .group body else body

end Level

/-- The progress of reading a pattern. -/
structure State where
  mode : Mode := {}
  level : Level := {}
  outer : List Level := []
  /-- Where the repetition just read began, if the last thing read was one. -/
  lastRepeat : Option (List UInt8) := none
  deriving Inhabited

namespace State

def push (s : State) (r : Regex) : State := { s with level := s.level.push r, lastRepeat := none }

def literal (s : State) (n : Nat) : State := s.push (.chars (s.mode.set (.single n)))

/-- Open a group, inside which a mode holds. -/
def openGroup (s : State) (captures : Bool) (mode : Mode) : State where
  mode := mode
  level := { outer := s.mode, captures := captures }
  outer := s.level :: s.outer
  lastRepeat := none

end State

/-! ## Repetitions -/

def maxRounds : Nat := 1000

/-- A number without leading zeros. -/
def number? (bs : List UInt8) : Option (Nat × List UInt8) :=
  let isDigit (b : UInt8) : Bool := 0x30 ≤ b && b ≤ 0x39
  let digits := bs.takeWhile isDigit
  if digits.isEmpty || (digits.length ≥ 2 && digits.head? = some 0x30) then none
  else some (digits.foldl (fun n d => n * 10 + (d.toNat - 0x30)) 0, bs.dropWhile isDigit)

/-- The least and the greatest number of rounds in braces, if that is what stands here. -/
def bounds? (bs : List UInt8) : Option (Nat × Option Nat × List UInt8) := do
  let (min, rest) ← number? (bs.drop 1)
  match rest with
  | 0x2C :: 0x7D :: rest => some (min, none, rest)
  | 0x2C :: rest =>
    let (max, rest) ← number? rest
    match rest with
    | 0x7D :: rest => some (min, some max, rest)
    | _ => none
  | 0x7D :: rest => some (min, some min, rest)
  | _ => none

/-- Repeat the item just read. `before` begins with the repetition and `after` follows it. -/
def State.repeatLast (s : State) (min : Nat) (max : Option Nat) (before after : List UInt8) :
    Parsed (State × List UInt8) :=
  let (marked, after) := match after with
    | 0x3F :: rest => (true, rest)
    | rest => (false, rest)
  match s.lastRepeat with
  | some last => flawed .nestedRepeat (consumed last after)
  | none =>
    match s.level.items with
    | [] => flawed .missingArgument (consumed before after)
    | r :: items =>
      let greedy := marked == s.mode.reluctant
      let r := Regex.repeated min max greedy r
      if (min ≥ 2 || max.any (· ≥ 2)) && !r.copiesWithin maxRounds then
        flawed .repeatCount (consumed before after)
      else
        .ok ({ s with level := { s.level with items := r :: items }, lastRepeat := some before }, after)

/-- A repetition in braces, or a brace that stands for itself. -/
def State.braces (s : State) (bs : List UInt8) : Parsed (State × List UInt8) :=
  match bounds? bs with
  | none => .ok (s.literal 0x7B, bs.drop 1)
  | some (min, max, after) =>
    if min > maxRounds || max.any (fun n => n > maxRounds || min > n) then
      flawed .repeatCount (consumed bs after)
    else s.repeatLast min max bs after

/-! ## Groups -/

/-- Whether a byte may stand in the name of a group. -/
def isGroupNameByte (b : UInt8) : Bool := CharSet.word.contains b.toNat

/-- A group with a name; `start` bytes come before the name. -/
def State.namedGroup (s : State) (start : Nat) (bs : List UInt8) : Parsed (State × List UInt8) :=
  match cutAt ">" [] bs with
  | none => do
    checkAll bs
    flawed .groupName bs
  | some (front, rest) => do
    let name := front.drop start
    checkAll name
    if name.isEmpty || !name.all isGroupNameByte then flawed .groupName (consumed bs rest)
    return (s.openGroup true s.mode, rest)

/-- Turn an option on or off. -/
def Mode.with (m : Mode) (c : Char) (on : Bool) : Option Mode :=
  match c with
  | 'i' => some { m with fold := on }
  | 'm' => some { m with multiline := on }
  | 's' => some { m with dotAll := on }
  | 'U' => some { m with reluctant := on }
  | _ => none

/-- Options behind `(?`, up to the colon that opens a group or the parenthesis that sets them for the rest
of the group around. `saw` tells whether there was one since the beginning or the minus sign. -/
def State.options (s : State) (bs : List UInt8) :
    Nat → Mode → Bool → Bool → List UInt8 → Parsed (State × List UInt8)
  | 0, _, _, _, rest => flawed .groupSyntax (consumed bs rest)
  | fuel + 1, mode, on, saw, rest =>
    match rest with
    | [] => flawed .groupSyntax bs
    | _ => do
      let (n, rest) ← nextCode rest
      let c := Char.ofNat n
      match mode.with c on with
      | some mode => s.options bs fuel mode on true rest
      | none =>
        if c = '-' && on then s.options bs fuel mode false false rest
        else if (c = ':' || c = ')') && (on || saw) then
          if c = ':' then return (s.openGroup false mode, rest)
          else return ({ s with mode := mode, lastRepeat := none }, rest)
        else flawed .groupSyntax (consumed bs rest)

/-- A group; `bs` begins with the opening parenthesis. -/
def State.paren (s : State) (bs : List UInt8) : Parsed (State × List UInt8) :=
  match bs.drop 1 with
  | 0x3F :: 0x50 :: 0x3C :: _ :: _ => s.namedGroup 4 bs
  | 0x3F :: 0x3C :: _ :: _ => s.namedGroup 3 bs
  | 0x3F :: rest => s.options bs (rest.length + 1) s.mode true false rest
  | rest => .ok (s.openGroup true s.mode, rest)

def State.closeGroup (whole : Text) (s : State) : Parsed State :=
  match s.outer with
  | [] => .error ⟨.strayParen, whole⟩
  | around :: outer =>
    .ok ⟨s.level.outer, around.push s.level.close, outer, none⟩

/-! ## Patterns -/

/-- Characters that stand for themselves. -/
def State.literals (s : State) : Nat → List UInt8 → Parsed State
  | 0, _ => .ok s
  | _ + 1, [] => .ok s
  | fuel + 1, bs => do
    let (n, rest) ← nextCode bs
    (s.literal n).literals fuel rest

/-- What a backslash begins. -/
def State.backslash (s : State) (bs : List UInt8) : Parsed (State × List UInt8) := do
  let rest := bs.drop 2
  match bs[1]?.map fun b => Char.ofNat b.toNat with
  | some 'A' => return (s.push (.place .textStart), rest)
  | some 'b' => return (s.push (.place .wordEdge), rest)
  | some 'B' => return (s.push (.place .noWordEdge), rest)
  | some 'z' => return (s.push (.place .textEnd), rest)
  | some 'C' => flawed .escape (bs.take 2)
  | some 'Q' =>
    let (quoted, rest) := (cutAt "\\E" [] rest).getD (rest, [])
    let s ← ({ s with lastRepeat := none } : State).literals quoted.length quoted
    return (s, rest)
  | _ =>
    match ← property? s.mode bs with
    | some (set, rest) => return (s.push (.chars set), rest)
    | none =>
      match letterSet? s.mode bs with
      | some (set, rest) => return (s.push (.chars set), rest)
      | none =>
        let (n, rest) ← escaped bs
        return (s.literal n, rest)

/-- Read one item of a pattern. -/
def State.step (whole : Text) (s : State) (bs : List UInt8) : Parsed (State × List UInt8) := do
  let rest := bs.drop 1
  match bs.head?.map fun b => Char.ofNat b.toNat with
  | none => return (s, [])
  | some '(' => s.paren bs
  | some '|' => return ({ s with level := s.level.branch, lastRepeat := none }, rest)
  | some ')' => return (← s.closeGroup whole, rest)
  | some '^' => return (s.push (.place (if s.mode.multiline then .lineStart else .textStart)), rest)
  | some '$' => return (s.push (.place (if s.mode.multiline then .lineEnd else .textEnd)), rest)
  | some '.' =>
    let set := if s.mode.dotAll then CharSet.all else .complement (.single 10)
    return (s.push (.chars set), rest)
  | some '[' =>
    let (set, rest) ← bracketSet s.mode bs
    return (s.push (.chars set), rest)
  | some '*' => s.repeatLast 0 none bs rest
  | some '+' => s.repeatLast 1 none bs rest
  | some '?' => s.repeatLast 0 (some 1) bs rest
  | some '\x7b' => s.braces bs
  | some '\\' => s.backslash bs
  | some _ =>
    let (n, rest) ← nextCode bs
    return (s.literal n, rest)

/-- Read a pattern to its end; every item takes a byte at least. -/
def State.steps (whole : Text) : Nat → State → List UInt8 → Parsed State
  | _, s, [] => .ok s
  | 0, s, _ => .ok s
  | fuel + 1, s, bs => do
    let (s, rest) ← s.step whole bs
    steps whole fuel s rest

def maxHeight : Nat := 1000

/-- The greatest number of steps of an expression. -/
def maxSize : Nat := 3355443

/-- The regular expression that a pattern describes. -/
def parse (pattern : Text) : Parsed Regex := do
  let s ← State.steps pattern pattern.size {} pattern.bytes
  if !s.outer.isEmpty then throw ⟨.missingParen, pattern⟩
  let r := s.level.close
  if r.size > maxSize then throw ⟨.size, pattern⟩
  if r.height > maxHeight then throw ⟨.depth, pattern⟩
  return r

end TinyScript.Regex
