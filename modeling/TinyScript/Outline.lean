import TinyScript.Data.Datum
import TinyScript.Heap.Object
import TinyScript.Syntax.Codec
import TinyScript.Syntax.Printer
import TinyScript.Text.Quoted

/-!
# Outlines

An outline shows a structure with the type of every part: `(type)(value)`, where the value of a compound
part lists its own parts, one a line and one step further in. Plain data, functions and syntax trees have
outlines.
-/

namespace TinyScript

/-- A structure with the types of its parts. -/
inductive Outline where
  /-- A part without parts of its own: its type and its value. -/
  | atom (type value : Text)
  /-- A compound part: its type, what stands before the brace, and its parts, each behind a label. -/
  | node (type opening : Text) (parts : List (Text × Outline))
  deriving Inhabited, Repr

namespace Outline

mutual

/-- An outline as text, at a depth. -/
def writeAt (depth : Nat) : Outline → Text
  | atom type value => "(" ++ type ++ ")(" ++ value ++ ")"
  | node type opening [] => "(" ++ type ++ ")(" ++ opening ++ "\x7b\x7d)"
  | node type opening (p :: ps) =>
    "(" ++ type ++ ")(" ++ opening ++ "\x7b\n" ++ Text.concat (writeParts (depth + 1) (p :: ps))
      ++ Text.replicate depth "\t" ++ "\x7d)"

def writeParts (depth : Nat) : List (Text × Outline) → List Text
  | [] => []
  | (label, o) :: ps =>
    (Text.replicate depth "\t" ++ label ++ writeAt depth o ++ ",\n") :: writeParts depth ps

end

/-- An outline as text, with a newline behind it. -/
def write (o : Outline) : Text := writeAt 0 o ++ "\n"

def string (t : Text) : Outline := atom "string" t.quote

def bool (b : Bool) : Outline := atom "bool" (Text.ofBool b)

/-- The number that stands for a member of an enumeration. -/
def code (type : Text) (n : Nat) : Outline := atom type (Text.ofNat n)

/-- A list whose empty form is nothing at all. -/
def sequence (item : Text) (items : List Outline) : Outline :=
  let type := "[]" ++ item
  if items.isEmpty then atom type "nil"
  else node type type (items.map fun o => (Text.empty, o))

def strings (ts : List Text) : Outline := sequence "string" (ts.map string)

/-- A record with its fields. -/
def record (type : Text) (fields : List (Text × Outline)) : Outline :=
  node type type (fields.map fun f => (f.1 ++ ": ", f.2))

/-- A record that is referred to. -/
def pointer (type : Text) (fields : List (Text × Outline)) : Outline :=
  node ("*" ++ type) ("&" ++ type) (fields.map fun f => (f.1 ++ ": ", f.2))

end Outline

/-! ## Plain data -/

namespace Data.Datum

mutual

def outline : Datum → Outline
  | null => .atom "interface\x7b\x7d" "nil"
  | bool b => .bool b
  | int i => .atom "int64" (Text.ofInt i.toInt)
  | uint n => .atom "uint64" (Text.ofNat n.toNat)
  | float w => .atom "float64" (Binary64.general w)
  | text t => .string t
  | list items => .node "[]interface\x7b\x7d" "[]interface\x7b\x7d" (outlineItems items)
  | map entries =>
    .node "map[string]interface\x7b\x7d" "map[string]interface\x7b\x7d" (outlineEntries entries)
  | foreign t => .atom t "nil"

def outlineItems : List Datum → List (Text × Outline)
  | [] => []
  | d :: ds => (Text.empty, outline d) :: outlineItems ds

/-- The parts of a map, each behind its key. -/
def outlineEntries : List (Text × Datum) → List (Text × Outline)
  | [] => []
  | (k, d) :: ds => ("(string)(" ++ k.quote ++ "): ", outline d) :: outlineEntries ds

end

end Data.Datum

/-! ## Functions -/

/-- The outline of a function: its name and parameters, and its body as source text. -/
def Function.outline (f : Function) : Outline :=
  let body := match f.code with
    | .native _ => Text.empty
    | .script _ e _ => e.print
  .record "bee.functionSummary"
    [("Name", .string f.name), ("Native", .bool f.isNative), ("Params", .strings f.params),
     ("Body", .string body)]

/-! ## Syntax trees -/

namespace Syntax

mutual

def Expr.outline : Expr → Outline
  | .missing => .atom "bee.Expr" "nil"
  | .lit kind raw =>
    .pointer "bee.LitExpr" [("Kind", .code "bee.LitKind" kind.code), ("Raw", .string raw)]
  | .lookup name => .pointer "bee.LookupExpr" [("Name", .string name)]
  | .bin op l r =>
    .pointer "bee.BinExpr" [("Op", .code "bee.BinOp" op.code), ("Left", l.outline), ("Right", r.outline)]
  | .unary op r =>
    .pointer "bee.UnaryExpr" [("Op", .code "bee.UnaryOp" op.code), ("Right", r.outline)]
  | .letIn assigns body =>
    .pointer "bee.LetExpr"
      [("Assigns", .sequence "bee.Assign" (outlineAssigns assigns)), ("Body", body.outline)]
  | .ifElse conds e =>
    .pointer "bee.IfExpr"
      [("Conds", .sequence "bee.CondExpr" (outlineConds conds)), ("Else", e.outline)]
  | .call callee args =>
    .pointer "bee.CallExpr"
      [("Callee", .string callee), ("Args", .sequence "bee.Expr" (outlineItems args))]
  | .list items => .pointer "bee.ListExpr" [("Items", .sequence "bee.Expr" (outlineItems items))]
  | .dict entries =>
    .pointer "bee.DictExpr" [("Entries", .sequence "bee.DictEntry" (outlineEntries entries))]
  | .lambda params body =>
    .pointer "bee.LambdaExpr" [("Params", .strings params), ("Body", body.outline)]
  | .forIn handle iter filter body =>
    loopOutline handle iter.outline (outlineFilter filter) body.outline
  | .reduce carry init handle iter filter body =>
    .pointer "bee.ReduceExpr"
      [("Carry", .string carry), ("Init", init.outline),
       ("Loop", loopOutline handle iter.outline (outlineFilter filter) body.outline)]
  | .define name params body =>
    .pointer "bee.DefExpr"
      [("Name", .string name), ("Params", .strings params), ("Body", body.outline)]
where
  loopOutline (handle : Text) (iter filter body : Outline) : Outline :=
    .pointer "bee.ForExpr"
      [("Handle", .string handle), ("Iter", iter), ("Filter", filter), ("Body", body)]

/-- The outline of a filter that may be absent. -/
def outlineFilter : Option Expr → Outline
  | none => .atom "bee.Expr" "nil"
  | some e => e.outline

def outlineItems : List Expr → List Outline
  | [] => []
  | e :: es => e.outline :: outlineItems es

def outlineAssigns : List (Text × Expr) → List Outline
  | [] => []
  | (n, e) :: rest =>
    .record "bee.Assign" [("Name", .string n), ("Value", e.outline)] :: outlineAssigns rest

def outlineConds : List (Expr × Expr) → List Outline
  | [] => []
  | (c, t) :: rest =>
    .record "bee.CondExpr" [("Cond", c.outline), ("Then", t.outline)] :: outlineConds rest

def outlineEntries : List (Text × Expr) → List Outline
  | [] => []
  | (k, e) :: rest =>
    .record "bee.DictEntry" [("Key", .string k), ("Value", e.outline)] :: outlineEntries rest

end

def Program.outline (p : Program) : Outline :=
  .pointer "bee.Program"
    [("Defs", .sequence "*bee.DefExpr" (p.defs.map fun d => d.toExpr.outline))]

def Line.outline : Line → Outline
  | .program p => p.outline
  | .expr e => e.outline

end Syntax

end TinyScript
