import TinyScript.Regex.CharSet

/-!
# Regular expressions

The structure of a regular expression. Of two branches of a choice the first is preferred, a greedy
repetition prefers one more round and a reluctant one prefers to stop. `simplify` leaves only the three
repetitions that a search knows: any number, at least one, at most one.
-/

namespace TinyScript.Regex

/-- What can be required of a place in a text. -/
inductive Place where
  | textStart
  | textEnd
  | lineStart
  | lineEnd
  /-- A place with a word character on one side only. -/
  | wordEdge
  /-- A place with a word character on both sides or on none. -/
  | noWordEdge
  deriving DecidableEq, Inhabited, Repr

/-- Whether a place between two characters is as required; at either end of the text there is none. -/
def Place.holds (p : Place) (before after : Option Nat) : Bool :=
  let isWord : Option Nat → Bool := fun c => c.any CharSet.word.contains
  match p with
  | textStart => before.isNone
  | textEnd => after.isNone
  | lineStart => before.isNone || before = some 10
  | lineEnd => after.isNone || after = some 10
  | wordEdge => isWord before != isWord after
  | noWordEdge => isWord before == isWord after

end TinyScript.Regex

namespace TinyScript

inductive Regex where
  | empty
  | chars (s : Regex.CharSet)
  | place (p : Regex.Place)
  | seq (items : List Regex)
  | alt (branches : List Regex)
  | group (body : Regex)
  | repeated (min : Nat) (max : Option Nat) (greedy : Bool) (body : Regex)
  deriving Inhabited, Repr

namespace Regex

/-- Items one after the other. -/
def ofItems : List Regex → Regex
  | [] => empty
  | [r] => r
  | rs => seq rs

/-- One of several branches. -/
def ofBranches : List Regex → Regex
  | [r] => r
  | rs => alt rs

mutual

/-- How deeply an expression is nested. -/
def height : Regex → Nat
  | empty | chars _ | place _ => 1
  | seq rs | alt rs => 1 + heights rs
  | group r | repeated _ _ _ r => 1 + height r

/-- How deeply the deepest of several expressions is nested. -/
def heights : List Regex → Nat
  | [] => 0
  | r :: rs => max (height r) (heights rs)

end

mutual

/-- How many steps a search for an expression has at most, with repetitions written out. -/
def size : Regex → Nat
  | empty | chars _ | place _ => 1
  | seq rs => max 1 (sizes rs)
  | alt rs => max 1 (sizes rs + (rs.length - 1))
  | group r => 2 + size r
  | repeated 0 none _ r => 2 + size r
  | repeated (min + 1) none _ r => 1 + (min + 1) * size r
  | repeated min (some max) _ r => Max.max 1 (max * size r + (max - min))

/-- How many steps several expressions have together. -/
def sizes : List Regex → Nat
  | [] => 0
  | r :: rs => size r + sizes rs

end

mutual

/-- Whether nested repetitions multiply to at most `n` copies of what is innermost. -/
def copiesWithin : Regex → Nat → Bool
  | empty, _ | chars _, _ | place _, _ => true
  | seq rs, n | alt rs, n => allCopiesWithin rs n
  | group r, n => copiesWithin r n
  | repeated min max _ r, n =>
    let m := max.getD min
    if max = some 0 then true
    else if m > n then false
    else copiesWithin r (if m > 0 then n / m else n)

/-- Whether nested repetitions in each expression multiply to at most `n`. -/
def allCopiesWithin : List Regex → Nat → Bool
  | [], _ => true
  | r :: rs, n => copiesWithin r n && allCopiesWithin rs n

end

/-- Whether an expression is a repetition of the given sort. -/
def isRepeated (min : Nat) (max : Option Nat) (greedy : Bool) : Regex → Bool
  | repeated min' max' greedy' _ => min = min' && max = max' && greedy = greedy'
  | _ => false

/-- A repetition of which one round of the same sort, or of nothing, is enough. -/
def loop (min : Nat) (max : Option Nat) (greedy : Bool) (r : Regex) : Regex :=
  match r with
  | empty => empty
  | r => if r.isRepeated min max greedy then r else repeated min max greedy r

/-- At most `n` rounds, nested. -/
def optional (greedy : Bool) (r : Regex) : Nat → Regex
  | 0 => empty
  | 1 => loop 0 (some 1) greedy r
  | n + 1 => loop 0 (some 1) greedy (seq [r, optional greedy r n])

/-- A repetition by the three simple ones. -/
def unroll (min : Nat) (max : Option Nat) (greedy : Bool) (r : Regex) : Regex :=
  match max with
  | none =>
    match min with
    | 0 => loop 0 none greedy r
    | 1 => loop 1 none greedy r
    | n + 1 => seq (List.replicate n r ++ [loop 1 none greedy r])
  | some 0 => empty
  | some max =>
    ofItems (List.replicate min r ++ if max > min then [optional greedy r (max - min)] else [])

mutual

/-- The same expression with simple repetitions only. -/
def simplify : Regex → Regex
  | empty => empty
  | chars s => chars s
  | place p => place p
  | seq rs => seq (simplifyAll rs)
  | alt rs => alt (simplifyAll rs)
  | group r => group (simplify r)
  | repeated min max greedy r => unroll min max greedy (simplify r)

def simplifyAll : List Regex → List Regex
  | [] => []
  | r :: rs => simplify r :: simplifyAll rs

end

mutual

/-- Whether an expression matches the empty text at some place. -/
def nullable : Regex → Bool
  | empty | place _ => true
  | chars _ => false
  | seq rs => allNullable rs
  | alt rs => anyNullable rs
  | group r => nullable r
  | repeated min _ _ r => min = 0 || nullable r

def allNullable : List Regex → Bool
  | [] => true
  | r :: rs => nullable r && allNullable rs

def anyNullable : List Regex → Bool
  | [] => false
  | r :: rs => nullable r || anyNullable rs

end

end Regex

end TinyScript
