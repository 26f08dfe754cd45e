import TinyScript.Syntax.Parser

/-!
# The grammar

Which token sequences spell which trees, one relation per nonterminal and one constructor per
production:

```
program := { "def" IDENT params "=" expr }
params  := "(" [IDENT {"," IDENT}] ")"
expr    := "let" IDENT "=" expr {"," IDENT "=" expr} "in" expr
         | "if" expr "then" expr {"elif" expr "then" expr} "else" expr
         | "for" IDENT "in" expr ["if" expr] "do" expr
         | "reduce" IDENT "=" expr "for" IDENT "in" expr ["if" expr] "do" expr
         | "fn" params "=>" expr
         | "def" IDENT params "=" expr
         | level 1
level k := level k OPERATOR(k) level (k + 1) | level (k + 1)        for k from 1 to 9
level 10 := unary
unary   := "-" unary | "!" unary | primary
primary := NUMBER | STRING | "true" | "false" | "nil" | "(" ")" | "(" expr ")"
         | IDENT | IDENT "(" [expr {"," expr}] ")" | "[" [expr {"," expr}] "]"
         | "{" [key ":" expr {"," key ":" expr}] "}"
```

An identifier is a symbol that is no keyword, and the key of a dict is any symbol or string. The
relations look at the classes and texts of tokens only, never at their positions. Everything below an
expression has the relation of expressions as a parameter, and `IsExpr` ties the knot.
-/

namespace TinyScript.Syntax.Grammar

/-- What a nonterminal derives: tokens, and what they stand for. -/
abbrev Phrase (α : Type) := List Token → α → Prop

/-! ## Terminals -/

/-- A keyword. -/
def Word (w : Text) (t : Token) : Prop := t.kind = .symbol ∧ t.text = w

/-- An operator sign. -/
def Sign (s : Text) (t : Token) : Prop := t.kind = .operator ∧ t.text = s

/-- A token of a class. -/
def Mark (kind : TokenKind) (t : Token) : Prop := t.kind = kind

/-- An identifier. -/
def Ident (t : Token) : Prop := t.kind = .symbol ∧ isKeyword t.text = false

/-- The binary operators with their spellings, from the loosest level to the tightest. -/
def operatorLevels : List (List (Text × BinOp)) :=
  [[("||", .or), ("or", .or)],
   [("&&", .and), ("and", .and)],
   [("|", .bitOr)],
   [("^", .bitXor)],
   [("&", .bitAnd)],
   [("==", .eq), ("!=", .ne)],
   [("<", .lt), ("<=", .le), (">", .gt), (">=", .ge)],
   [("+", .add), ("-", .sub)],
   [("*", .mul), ("/", .div), ("%", .mod)]]

/-- A token that spells a binary operator of a level. Operators are told by their text; it may be the
text of a sign or of a word. -/
def Joins (level : Nat) (op : BinOp) (t : Token) : Prop :=
  (t.kind = .operator ∨ t.kind = .symbol) ∧
    ∃ row, operatorLevels[level - 1]? = some row ∧ 1 ≤ level ∧ (t.text, op) ∈ row

/-! ## Sequences -/

section Sequences

variable {α : Type}

/-- `p {sep p}` -/
inductive Separated (sep : Token → Prop) (p : Phrase α) : Phrase (List α)
  | one {ts x} : p ts x → Separated sep p ts [x]
  | cons {ts us t x xs} : p ts x → sep t → Separated sep p us xs →
      Separated sep p (ts ++ t :: us) (x :: xs)

/-- `[p {"," p}]` -/
inductive Listed (p : Phrase α) : Phrase (List α)
  | none : Listed p [] []
  | some {ts xs} : Separated (Mark .comma) p ts xs → Listed p ts xs

end Sequences

/-- `IDENT` -/
inductive Name : Phrase Text
  | mk {t} : Ident t → Name [t] t.text

/-- `"(" [IDENT {"," IDENT}] ")"` -/
inductive Params : Phrase (List Text)
  | mk {t u ts ns} : Mark .leftParen t → Listed Name ts ns → Mark .rightParen u →
      Params (t :: (ts ++ [u])) ns

/-! ## Expressions -/

section Parts

variable (E : Phrase Expr)

/-- `IDENT "=" expr` -/
inductive Assign : Phrase (Text × Expr)
  | mk {n t ts x} : Ident n → Sign "=" t → E ts x → Assign (n :: t :: ts) (n.text, x)

/-- `expr "then" expr` -/
inductive Branch : Phrase (Expr × Expr)
  | mk {ts t us c x} : E ts c → Word "then" t → E us x → Branch (ts ++ t :: us) (c, x)

/-- `["if" expr]` -/
inductive Filter : Phrase (Option Expr)
  | none : Filter [] none
  | some {t ts x} : Word "if" t → E ts x → Filter (t :: ts) (some x)

/-- `IDENT "in" expr ["if" expr] "do" expr` -/
inductive Loop : Phrase Parse.Loop
  | mk {n t ts us u vs iter filter body} : Ident n → Word "in" t → E ts iter → Filter E us filter →
      Word "do" u → E vs body → Loop (n :: t :: (ts ++ (us ++ u :: vs))) ⟨n.text, iter, filter, body⟩

/-- `"def" IDENT params "=" expr` -/
inductive Definition : Phrase Def
  | mk {t n ps u ts names body} : Word "def" t → Ident n → Params ps names → Sign "=" u → E ts body →
      Definition (t :: n :: (ps ++ u :: ts)) ⟨n.text, names, body⟩

/-- `key ":" expr` -/
inductive Entry : Phrase (Text × Expr)
  | symbol {t u ts x} : Mark .symbol t → Mark .colon u → E ts x → Entry (t :: u :: ts) (t.text, x)
  | string {t u ts x} : Mark .string t → Mark .colon u → E ts x →
      Entry (t :: u :: ts) (Text.unquote t.text, x)

/-- An expression that no operator takes apart. -/
inductive Primary : Phrase Expr
  | number {t} : Mark .decimal t ∨ Mark .float t → Primary [t] (.lit .number t.text)
  | string {t} : Mark .string t → Primary [t] (.lit .string t.text)
  | truth {t} : Word "true" t ∨ Word "false" t → Primary [t] (.lit .bool t.text)
  | nil {t} : Word "nil" t → Primary [t] (.lit .nil t.text)
  | unit {t u} : Mark .leftParen t → Mark .rightParen u → Primary [t, u] (.lit .unit "()")
  | parens {t ts u x} : Mark .leftParen t → E ts x → Mark .rightParen u → Primary (t :: (ts ++ [u])) x
  | lookup {t} : Ident t → Primary [t] (.lookup t.text)
  | call {n t ts u xs} : Ident n → Mark .leftParen t → Listed E ts xs → Mark .rightParen u →
      Primary (n :: t :: (ts ++ [u])) (.call n.text xs)
  | list {t ts u xs} : Mark .leftSquare t → Listed E ts xs → Mark .rightSquare u →
      Primary (t :: (ts ++ [u])) (.list xs)
  | dict {t ts u es} : Mark .leftCurly t → Listed (Entry E) ts es → Mark .rightCurly u →
      Primary (t :: (ts ++ [u])) (.dict es)

/-- Unary operators in front of a primary expression. -/
inductive Unary : Phrase Expr
  | neg {t ts x} : Sign "-" t → Unary ts x → Unary (t :: ts) (.unary .neg x)
  | not {t ts x} : Sign "!" t → Unary ts x → Unary (t :: ts) (.unary .not x)
  | primary {ts x} : Primary E ts x → Unary ts x

/-- The levels of binary operators. Those of one level group to the left, and a right operand holds
tighter ones only. -/
inductive Level : Nat → Phrase Expr
  | unary {ts x} : Unary E ts x → Level 10 ts x
  | operand {k ts x} : k ≤ 9 → Level (k + 1) ts x → Level k ts x
  | join {k ts t us op l r} : Level k ts l → Joins k op t → Level (k + 1) us r →
      Level k (ts ++ t :: us) (.bin op l r)

end Parts

/-- The expressions. -/
inductive IsExpr : Phrase Expr
  | letIn {t ts u us assigns body} : Word "let" t → Separated (Mark .comma) (Assign IsExpr) ts assigns →
      Word "in" u → IsExpr us body → IsExpr (t :: (ts ++ u :: us)) (.letIn assigns body)
  | ifElse {t ts u us conds other} : Word "if" t → Separated (Word "elif") (Branch IsExpr) ts conds →
      Word "else" u → IsExpr us other → IsExpr (t :: (ts ++ u :: us)) (.ifElse conds other)
  | forIn {t ts l} : Word "for" t → Loop IsExpr ts l →
      IsExpr (t :: ts) (.forIn l.handle l.iter l.filter l.body)
  | reduce {t n u ts v us init l} : Word "reduce" t → Ident n → Sign "=" u → IsExpr ts init →
      Word "for" v → Loop IsExpr us l →
      IsExpr (t :: n :: u :: (ts ++ v :: us)) (.reduce n.text init l.handle l.iter l.filter l.body)
  | lambda {t ps u ts names body} : Word "fn" t → Params ps names → Sign "=>" u → IsExpr ts body →
      IsExpr (t :: (ps ++ u :: ts)) (.lambda names body)
  | define {ts d} : Definition IsExpr ts d → IsExpr ts d.toExpr
  | binary {ts x} : Level IsExpr 1 ts x → IsExpr ts x

/-- The programs: any number of definitions. -/
inductive IsProgram : Phrase (List Def)
  | nil : IsProgram [] []
  | cons {ts us d ds} : Definition IsExpr ts d → IsProgram us ds → IsProgram (ts ++ us) (d :: ds)

end TinyScript.Syntax.Grammar
