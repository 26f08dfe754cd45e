import TinyScript.Syntax.Expr
import TinyScript.Syntax.Lexer

/-!
# From tokens to syntax trees

A parser reads from the front of the remaining tokens. Everything below an expression is given the parser for
expressions as an argument, and `expr` ties the knot: the argument is `expr` itself with one unit of fuel less. Each
nested expression stands behind at least one token of its own, so the number of tokens is fuel enough.

Operators are parsed by climbing their precedences. Behind an operand, `binary` takes operators from a level on, each
with a right operand in which only tighter operators stand.
-/

namespace TinyScript.Syntax

/-- The binary operator that a token spells. Two operators are words. -/
def Token.operator? (t : Token) : Option BinOp :=
  if t.kind = .operator || t.kind = .symbol then BinOp.ofSymbol? t.text else none

/-- A parser: it may fail, it moves through the tokens, and it knows where the input ends. -/
abbrev Parse := ReaderT Pos (StateT (List Token) (Except SyntaxError))

namespace Parse

/-! ## Single tokens -/

def peek : Parse (Option Token) := do return (← get).head?

/-- Take the token at the front; at the end of the input there is none. -/
def next : Parse (Option Token) := do
  match ← get with
  | [] => return none
  | t :: ts => set ts; return some t

/-- Report a problem with a token, or with the end of the input. -/
def fail {α : Type} (t : Option Token) (problem : Text → Problem) : Parse α := do
  match t with
  | some t => throw ⟨t.pos, problem t.text, false⟩
  | none => throw ⟨← read, problem endText, true⟩

/-- Whether the token at the front is of a class. -/
def atKind (kind : TokenKind) : Parse Bool := do
  return (← peek).any fun t => t.kind = kind

/-- Whether the token at the front is a given word. -/
def atWord (word : Text) : Parse Bool := do
  return (← peek).any fun t => t.kind = .symbol && t.text = word

/-- Whether the token at the front is a given operator. -/
def atOperator (op : Text) : Parse Bool := do
  return (← peek).any fun t => t.kind = .operator && t.text = op

/-- Take a token of a class; `what` names the class in an error. -/
def expectKind (kind : TokenKind) (what : Text) : Parse Unit := do
  let t ← next
  if t.any fun t => t.kind = kind then return ()
  else fail t (.expected what ·)

def expectWord (word : Text) : Parse Unit := do
  let t ← next
  if t.any fun t => t.kind = .symbol && t.text = word then return ()
  else fail t (.expected word.quoted ·)

def expectOperator (op : Text) : Parse Unit := do
  let t ← next
  if t.any fun t => t.kind = .operator && t.text = op then return ()
  else fail t (.expected op.quoted ·)

def name : Parse Text := do
  match ← next with
  | some t => if t.kind = .symbol && !isKeyword t.text then return t.text else fail (some t) .expectedName
  | none => fail none .expectedName

/-! ## Sequences -/

/-- Items between commas, up to and including a closing token; `what` names what may follow an item.
At most `fuel` items are read, and those read so far are in `acc`, last first. -/
def itemsLoop {α : Type} (closing : TokenKind) (what : Text) (item : Parse α) :
    Nat → List α → Parse (List α)
  | 0, acc => return acc.reverse
  | fuel + 1, acc => do
    if ← atKind closing then
      let _ ← next
      return acc.reverse
    if !acc.isEmpty then expectKind .comma what
    let x ← item
    itemsLoop closing what item fuel (x :: acc)

/-- Items between commas, up to and including a closing token. -/
def items {α : Type} (closing : TokenKind) (what : Text) (item : Parse α) : Parse (List α) := do
  itemsLoop closing what item ((← get).length + 1) []

/-- Items between separators, at least one and at most `fuel`; those read so far are in `acc`, last
first. -/
def separatedLoop {α : Type} (sep : Token → Bool) (item : Parse α) : Nat → List α → Parse (List α)
  | 0, acc => return acc.reverse
  | fuel + 1, acc => do
    let x ← item
    if (← peek).any sep then
      let _ ← next
      separatedLoop sep item fuel (x :: acc)
    else return (x :: acc).reverse

/-- Items between separators, at least one. -/
def separated {α : Type} (sep : Token → Bool) (item : Parse α) : Parse (List α) := do
  separatedLoop sep item ((← get).length + 1) []

/-- The parameters of a function, with their parentheses. -/
def params : Parse (List Text) := do
  expectKind .leftParen "'('"
  items .rightParen "','" name

/-! ## Expressions -/

def key : Parse Text := do
  match ← next with
  | some t =>
    if t.kind = .symbol then return t.text
    else if t.kind = .string then return Text.unquote t.text
    else fail (some t) .expectedKey
  | none => fail none .expectedKey

/-- A key of a dict with its value. -/
def entry (expr : Parse Expr) : Parse (Text × Expr) := do
  let k ← key
  expectKind .colon "':'"
  return (k, ← expr)

/-- A name, a call, or a word that is a literal. -/
def word (expr : Parse Expr) (t : Token) : Parse Expr := do
  if t.text = "true" || t.text = "false" then return .lit .bool t.text
  else if t.text = "nil" then return .lit .nil t.text
  else if isKeyword t.text then fail (some t) .strayKeyword
  else if ← atKind .leftParen then
    let _ ← next
    return .call t.text (← items .rightParen "',' or ')'" expr)
  else return .lookup t.text

/-- What stands behind an opening parenthesis. -/
def parens (expr : Parse Expr) : Parse Expr := do
  if ← atKind .rightParen then
    let _ ← next
    return .lit .unit "()"
  else
    let e ← expr
    expectKind .rightParen "')'"
    return e

/-- An expression that no operator takes apart. -/
def primary (expr : Parse Expr) : Parse Expr := do
  match ← next with
  | none => fail none .strayToken
  | some t =>
    match t.kind with
    | .decimal => return .lit .number t.text
    | .float => return .lit .number t.text
    | .string => return .lit .string t.text
    | .leftParen => parens expr
    | .leftSquare => return .list (← items .rightSquare "',' or ']'" expr)
    | .leftCurly => return .dict (← items .rightCurly "',' or '\x7d'" (entry expr))
    | .symbol => word expr t
    | _ => fail (some t) .strayToken

/-- Unary operators in front of a primary expression, at most `fuel` of them. -/
def unaryLoop (expr : Parse Expr) : Nat → Parse Expr
  | 0 => primary expr
  | fuel + 1 => do
    if ← atOperator "-" then
      let _ ← next
      return .unary .neg (← unaryLoop expr fuel)
    else if ← atOperator "!" then
      let _ ← next
      return .unary .not (← unaryLoop expr fuel)
    else primary expr

/-- Unary operators in front of a primary expression. -/
def unary (expr : Parse Expr) : Parse Expr := do
  unaryLoop expr ((← get).length + 1)

/-- The operator at the front, if it is of a level or a tighter one. -/
def operatorFrom? (level : Nat) : Parse (Option BinOp) := do
  return ((← peek).bind Token.operator?).filter fun op => level ≤ op.precedence

/-- Operators of a level or tighter ones, at most `fuel` of them, joined to the expression on their
left. Their right operands are read by `operand`, which is told from which level on. -/
def climbLoop (operand : Nat → Parse Expr) (level : Nat) : Nat → Expr → Parse Expr
  | 0, left => return left
  | fuel + 1, left => do
    match ← operatorFrom? level with
    | none => return left
    | some op =>
      let _ ← next
      let right ← operand (op.precedence + 1)
      climbLoop operand level fuel (.bin op left right)

/-- Operators of a level or tighter ones with their operands. The first argument bounds how many levels
there are. -/
def binary (expr : Parse Expr) : Nat → Nat → Parse Expr
  | 0, _ => unary expr
  | k + 1, level => do
    let left ← unary expr
    climbLoop (binary expr k) level ((← get).length + 1) left

/-- An assignment of a `let`. -/
def assign (expr : Parse Expr) : Parse (Text × Expr) := do
  let n ← name
  expectOperator "="
  return (n, ← expr)

/-- A `let` behind its keyword. -/
def letIn (expr : Parse Expr) : Parse Expr := do
  let assigns ← separated (fun t => t.kind = .comma) (assign expr)
  expectWord "in"
  return .letIn assigns (← expr)

/-- A condition of an `if` with its branch. -/
def branch (expr : Parse Expr) : Parse (Expr × Expr) := do
  let c ← expr
  expectWord "then"
  return (c, ← expr)

/-- An `if` behind its keyword. -/
def ifElse (expr : Parse Expr) : Parse Expr := do
  let conds ← separated (fun t => t.kind = .symbol && t.text = "elif") (branch expr)
  expectWord "else"
  return .ifElse conds (← expr)

/-- The parts of a loop behind the keyword `for`. -/
structure Loop where
  handle : Text
  iter : Expr
  filter : Option Expr
  body : Expr

/-- The condition on the items of a loop, if there is one. -/
def filter (expr : Parse Expr) : Parse (Option Expr) := do
  if ← atWord "if" then
    let _ ← next
    return some (← expr)
  else return none

/-- A loop behind the keyword `for`. -/
def loop (expr : Parse Expr) : Parse Loop := do
  let handle ← name
  expectWord "in"
  let iter ← expr
  let f ← filter expr
  expectWord "do"
  return ⟨handle, iter, f, ← expr⟩

/-- A `reduce` behind its keyword. -/
def reduce (expr : Parse Expr) : Parse Expr := do
  let carry ← name
  expectOperator "="
  let init ← expr
  expectWord "for"
  let l ← loop expr
  return .reduce carry init l.handle l.iter l.filter l.body

/-- A function without a name, behind its keyword. -/
def lambda (expr : Parse Expr) : Parse Expr := do
  let ps ← params
  expectOperator "=>"
  return .lambda ps (← expr)

/-- A definition, with its keyword. -/
def define (expr : Parse Expr) : Parse Def := do
  expectWord "def"
  let n ← name
  let ps ← params
  expectOperator "="
  return ⟨n, ps, ← expr⟩

/-- An expression: one of the forms that begin with a keyword, or operators and their operands. -/
def form (expr : Parse Expr) : Parse Expr := do
  if ← atWord "let" then
    let _ ← next
    letIn expr
  else if ← atWord "if" then
    let _ ← next
    ifElse expr
  else if ← atWord "for" then
    let _ ← next
    let l ← loop expr
    return .forIn l.handle l.iter l.filter l.body
  else if ← atWord "reduce" then
    let _ ← next
    reduce expr
  else if ← atWord "fn" then
    let _ ← next
    lambda expr
  else if ← atWord "def" then
    return (← define expr).toExpr
  else binary expr BinOp.tightest 1

/-- An expression whose parts are nested at most `fuel` deep. -/
def expr : Nat → Parse Expr
  | 0 => do fail (← peek) .strayToken
  | fuel + 1 => form (expr fuel)

/-- The definitions of a program, up to the end of the input. -/
def defsLoop (e : Parse Expr) : Nat → List Def → Parse (List Def)
  | 0, acc => return acc.reverse
  | fuel + 1, acc => do
    match ← peek with
    | none => return acc.reverse
    | some _ =>
      let d ← define e
      defsLoop e fuel (d :: acc)

end Parse

/-! ## Whole texts -/

/-- The single expression that the tokens spell. -/
def Tokens.expr (ts : Tokens) : Except SyntaxError Expr := do
  let (e, rest) ← (Parse.expr (ts.items.length + 1)).run ts.stop |>.run ts.items
  match rest with
  | [] => return e
  | t :: _ => throw ⟨t.pos, .trailing t.text, false⟩

/-- The definitions that the tokens spell. -/
def Tokens.program (ts : Tokens) : Except SyntaxError Program := do
  let n := ts.items.length + 1
  let (ds, _) ← (Parse.defsLoop (Parse.expr n) n []).run ts.stop |>.run ts.items
  return ⟨ds⟩

/-- The definitions that the tokens spell if they begin with the word `def`, and the single expression
otherwise. -/
def Tokens.line (ts : Tokens) : Except SyntaxError Line := do
  if ts.items.head?.any fun (t : Token) => t.kind = .symbol && t.text = "def" then return .program (← ts.program)
  else return .expr (← ts.expr)

def parseExpr (src : Text) : Except SyntaxError Expr := do (← tokenize src).expr

/-- Parse a text that is a sequence of definitions. -/
def parseProgram (src : Text) : Except SyntaxError Program := do (← tokenize src).program

/-- Parse a text that is definitions if it begins with the word `def`, and an expression otherwise. -/
def parseLine (src : Text) : Except SyntaxError Line := do (← tokenize src).line

end TinyScript.Syntax
