import TinyScript.Syntax.Expr
import TinyScript.Data.Json.Writer
import TinyScript.Data.Json.Reader

/-!
# Syntax trees as data

Every node of a syntax tree is a map whose entry `kind` names the sort of node; the other entries are
its parts. A program is a map with the list `defs`. `Expr.toDatum` writes a tree, `Expr.ofDatum?` reads
one back and refuses unknown nodes, bad names and missing parts. Names must be ASCII here, unlike in
source text.
-/

namespace TinyScript.Syntax

open Data (Datum)

/-! ## Writing -/

mutual

/-- A syntax tree as data. -/
def Expr.toDatum : Expr → Datum
  | .lit kind raw => node "lit" [("lit", .text kind.name), ("raw", .text raw)]
  | .lookup name => node "lookup" [("name", .text name)]
  | .bin op l r => node "bin" [("op", .text op.symbol), ("left", l.toDatum), ("right", r.toDatum)]
  | .unary op r => node "unary" [("op", .text op.symbol), ("right", r.toDatum)]
  | .letIn assigns body => node "let" [("assigns", .list (assignData assigns)), ("body", body.toDatum)]
  | .ifElse conds e => node "if" [("conds", .list (condData conds)), ("else", e.toDatum)]
  | .call callee args => node "call" [("callee", .text callee), ("args", .list (itemData args))]
  | .list items => node "list" [("items", .list (itemData items))]
  | .dict entries => node "dict" [("entries", .list (entryData entries))]
  | .lambda params body => node "lambda" [("params", names params), ("body", body.toDatum)]
  | .forIn handle iter filter body => loopData handle iter.toDatum (filterData filter) body.toDatum
  | .reduce carry init handle iter filter body =>
    node "reduce" [("carry", .text carry), ("init", init.toDatum),
      ("loop", loopData handle iter.toDatum (filterData filter) body.toDatum)]
  | .define name params body =>
    node "def" [("name", .text name), ("params", names params), ("body", body.toDatum)]
  | .missing => .null
where
  node (kind : Text) (parts : List (Text × Datum)) : Datum :=
    Datum.ofEntries (("kind", .text kind) :: parts)
  names (ns : List Text) : Datum := .list (ns.map .text)
  loopData (handle : Text) (iter : Datum) (filter : Option Datum) (body : Datum) : Datum :=
    node "for" (("handle", .text handle) :: ("iter", iter) :: ("body", body)
      :: (filter.map fun f => (("filter" : Text), f)).toList)

def itemData : List Expr → List Datum
  | [] => []
  | e :: es => e.toDatum :: itemData es

def assignData : List (Text × Expr) → List Datum
  | [] => []
  | (n, e) :: rest => Datum.ofEntries [("name", .text n), ("value", e.toDatum)] :: assignData rest

def entryData : List (Text × Expr) → List Datum
  | [] => []
  | (k, e) :: rest => Datum.ofEntries [("key", .text k), ("value", e.toDatum)] :: entryData rest

def condData : List (Expr × Expr) → List Datum
  | [] => []
  | (c, t) :: rest => Datum.ofEntries [("cond", c.toDatum), ("then", t.toDatum)] :: condData rest

def filterData : Option Expr → Option Datum
  | none => none
  | some f => some f.toDatum

end

def Program.toDatum (p : Program) : Datum :=
  Datum.ofEntries [("defs", .list (p.defs.map fun d => d.toExpr.toDatum))]

def Expr.toJson (e : Expr) : Text := Data.Json.write e.toDatum

def Program.toJson (p : Program) : Text := Data.Json.write p.toDatum

/-! ## Errors -/

/-- Why a datum is no syntax tree. -/
inductive TreeError where
  /-- A program that is no map but of another type. -/
  | notProgram (type : Text)
  /-- A program without its list of definitions. -/
  | noDefs
  | inDef (index : Nat) (cause : TreeError)
  /-- The node at an index of a program is no definition. -/
  | notDef (index : Nat) (type : Text)
  | notNode (type : Text)
  | noKind
  | noText (kind key : Text)
  | noList (kind key : Text)
  | noPart (kind key : Text)
  | badName (kind name : Text)
  /-- Something in a list of names that is no name. -/
  | badParam (kind found : Text)
  | inPart (kind key : Text) (cause : TreeError)
  | inItem (kind key : Text) (index : Nat) (cause : TreeError)
  | itemNotMap (kind key type : Text)
  | unknownLiteral (name : Text)
  | unknownBinary (symbol : Text)
  | unknownUnary (symbol : Text)
  | notLoop (type : Text)
  | unknownKind (kind : Text)
  deriving Inhabited, Repr

def TreeError.message : TreeError → Text
  | notProgram type => "program must be a json object, not " ++ type
  | noDefs => "program needs a \"defs\" array"
  | inDef i cause => "defs[" ++ Text.ofNat i ++ "]: " ++ cause.message
  | notDef i type => "defs[" ++ Text.ofNat i ++ "]: expected a def, got " ++ type
  | notNode type => "node must be a json object, not " ++ type
  | noKind => "node has no \"kind\""
  | noText kind key => kind ++ " node needs a string \"" ++ key ++ "\""
  | noList kind key => kind ++ " node needs a \"" ++ key ++ "\" array"
  | noPart kind key => kind ++ " node needs \"" ++ key ++ "\""
  | badName kind name => kind ++ " node: '" ++ name ++ "' is not a valid name"
  | badParam kind found => kind ++ " node: " ++ found ++ " is not a valid name"
  | inPart kind key cause => kind ++ "." ++ key ++ ": " ++ cause.message
  | inItem kind key i cause => kind ++ "." ++ key ++ "[" ++ Text.ofNat i ++ "]: " ++ cause.message
  | itemNotMap kind key type => kind ++ "." ++ key ++ " items must be objects, not " ++ type
  | unknownLiteral name => "unknown literal kind '" ++ name ++ "'"
  | unknownBinary symbol => "unknown binary operator '" ++ symbol ++ "'"
  | unknownUnary symbol => "unknown unary operator '" ++ symbol ++ "'"
  | notLoop type => "reduce.loop must be a for node, not " ++ type
  | unknownKind kind => "unknown node kind '" ++ kind ++ "'"

/-- The name of the sort of a node, as messages and outlines give it. -/
def Expr.typeName : Expr → Text
  | .lit .. => "bee.LitExpr"
  | .lookup .. => "bee.LookupExpr"
  | .bin .. => "bee.BinExpr"
  | .unary .. => "bee.UnaryExpr"
  | .letIn .. => "bee.LetExpr"
  | .ifElse .. => "bee.IfExpr"
  | .call .. => "bee.CallExpr"
  | .list .. => "bee.ListExpr"
  | .dict .. => "bee.DictExpr"
  | .lambda .. => "bee.LambdaExpr"
  | .forIn .. => "bee.ForExpr"
  | .reduce .. => "bee.ReduceExpr"
  | .define .. => "bee.DefExpr"
  | .missing => "<nil>"

/-! ## Reading -/

/-- Whether a byte can begin a name. -/
def isNameStart (b : UInt8) : Bool := (65 ≤ b && b ≤ 90) || (97 ≤ b && b ≤ 122) || b = 95

/-- Whether a text is a name in ASCII. -/
def isAsciiName (t : Text) : Bool :=
  match t.bytes with
  | [] => false
  | b :: bs => isNameStart b && bs.all fun b => isNameStart b || (48 ≤ b && b ≤ 57)

/-- The entries of a map together with the kind of node that they are read for. -/
structure NodeView where
  data : Datum
  kind : Text

namespace NodeView

def text (n : NodeView) (key : Text) : Except TreeError Text :=
  match n.data.field? key with
  | some (.text t) => .ok t
  | _ => .error (.noText n.kind key)

def name (n : NodeView) (key : Text) : Except TreeError Text := do
  let t ← n.text key
  if isAsciiName t then return t else throw (.badName n.kind t)

def items (n : NodeView) (key : Text) : Except TreeError (List Datum) :=
  match n.data.field? key with
  | some (.list ds) => .ok ds
  | _ => .error (.noList n.kind key)

def names (n : NodeView) (key : Text) : Except TreeError (List Text) := do
  (← n.items key).mapM fun d =>
    match d with
    | .text t => if isAsciiName t then .ok t else .error (.badParam n.kind t)
    | d => .error (.badParam n.kind d.describe)

/-- A part that is a list of maps, each looked at as a part of this node. -/
def views (n : NodeView) (key : Text) : Except TreeError (List NodeView) := do
  (← n.items key).mapM fun d =>
    match d with
    | .map _ => .ok ⟨d, n.kind⟩
    | d => .error (.itemNotMap n.kind key d.typeName)

/-- A part that is a list of maps, each read by `read`. -/
def each {α : Type} (n : NodeView) (key : Text) (read : NodeView → Except TreeError α) :
    Except TreeError (List α) := do
  (← n.views key).mapM read

/-- A part that is a node, read by `read`. -/
def part (n : NodeView) (read : Datum → Except TreeError Expr) (key : Text) : Except TreeError Expr :=
  match n.data.field? key with
  | none => .error (.noPart n.kind key)
  | some d => (read d).mapError (.inPart n.kind key)

/-- A part that is a list of nodes, read by `read`. -/
def parts (n : NodeView) (read : Datum → Except TreeError Expr) (key : Text) :
    Except TreeError (List Expr) := do
  (← n.items key).zipIdx.mapM fun (d, i) => (read d).mapError (.inItem n.kind key i)

/-! Each kind of node has its own reader, which is given the reader of the children. -/

def lit (n : NodeView) : Except TreeError Expr := do
  let name ← n.text "lit"
  let kind ← (LitKind.ofName? name).elim (throw (.unknownLiteral name)) pure
  return .lit kind (← n.text "raw")

def lookup (n : NodeView) : Except TreeError Expr := return .lookup (← n.name "name")

def binary (n : NodeView) (read : Datum → Except TreeError Expr) : Except TreeError Expr := do
  let symbol ← n.text "op"
  let op ← (BinOp.ofSymbol? symbol).elim (throw (.unknownBinary symbol)) pure
  let l ← n.part read "left"
  return .bin op l (← n.part read "right")

def unary (n : NodeView) (read : Datum → Except TreeError Expr) : Except TreeError Expr := do
  let symbol ← n.text "op"
  let op ← (UnaryOp.ofSymbol? symbol).elim (throw (.unknownUnary symbol)) pure
  return .unary op (← n.part read "right")

def assign (n : NodeView) (read : Datum → Except TreeError Expr) : Except TreeError (Text × Expr) := do
  let name ← n.name "name"
  return (name, ← n.part read "value")

def letIn (n : NodeView) (read : Datum → Except TreeError Expr) : Except TreeError Expr := do
  let assigns ← n.each "assigns" (·.assign read)
  return .letIn assigns (← n.part read "body")

def branch (n : NodeView) (read : Datum → Except TreeError Expr) : Except TreeError (Expr × Expr) := do
  let c ← n.part read "cond"
  return (c, ← n.part read "then")

def ifElse (n : NodeView) (read : Datum → Except TreeError Expr) : Except TreeError Expr := do
  let conds ← n.each "conds" (·.branch read)
  return .ifElse conds (← n.part read "else")

def call (n : NodeView) (read : Datum → Except TreeError Expr) : Except TreeError Expr := do
  let callee ← n.name "callee"
  return .call callee (← n.parts read "args")

def list (n : NodeView) (read : Datum → Except TreeError Expr) : Except TreeError Expr :=
  return .list (← n.parts read "items")

def entry (n : NodeView) (read : Datum → Except TreeError Expr) : Except TreeError (Text × Expr) := do
  let key ← n.text "key"
  return (key, ← n.part read "value")

def dict (n : NodeView) (read : Datum → Except TreeError Expr) : Except TreeError Expr := do
  return .dict (← n.each "entries" (·.entry read))

def lambda (n : NodeView) (read : Datum → Except TreeError Expr) : Except TreeError Expr := do
  let params ← n.names "params"
  return .lambda params (← n.part read "body")

def loop (n : NodeView) (read : Datum → Except TreeError Expr) : Except TreeError Expr := do
  let handle ← n.name "handle"
  let iter ← n.part read "iter"
  let filter ← match n.data.field? "filter" with
    | none => pure none
    | some _ => some <$> n.part read "filter"
  return .forIn handle iter filter (← n.part read "body")

def reduce (n : NodeView) (read : Datum → Except TreeError Expr) : Except TreeError Expr := do
  let carry ← n.name "carry"
  let init ← n.part read "init"
  match ← n.part read "loop" with
  | .forIn handle iter filter body => return .reduce carry init handle iter filter body
  | e => throw (.notLoop ("*" ++ e.typeName))

def define (n : NodeView) (read : Datum → Except TreeError Expr) : Except TreeError Expr := do
  let name ← n.name "name"
  let params ← n.names "params"
  return .define name params (← n.part read "body")

/-- The expression of a node, its children being read by `read`. -/
def expr (n : NodeView) (read : Datum → Except TreeError Expr) : Except TreeError Expr :=
  if n.kind = "lit" then n.lit
  else if n.kind = "lookup" then n.lookup
  else if n.kind = "bin" then n.binary read
  else if n.kind = "unary" then n.unary read
  else if n.kind = "let" then n.letIn read
  else if n.kind = "if" then n.ifElse read
  else if n.kind = "call" then n.call read
  else if n.kind = "list" then n.list read
  else if n.kind = "dict" then n.dict read
  else if n.kind = "lambda" then n.lambda read
  else if n.kind = "for" then n.loop read
  else if n.kind = "reduce" then n.reduce read
  else if n.kind = "def" then n.define read
  else throw (.unknownKind n.kind)

end NodeView

/-- The syntax tree that a datum stands for, if its nodes are nested at most `fuel` deep. -/
def Expr.ofDatumWithin : Nat → Datum → Except TreeError Expr
  | 0, d => .error (.notNode d.typeName)
  | fuel + 1, d =>
    match d with
    | .map _ =>
      match d.field? "kind" with
      | some (.text kind) => NodeView.expr ⟨d, kind⟩ (Expr.ofDatumWithin fuel)
      | _ => .error .noKind
    | _ => .error (.notNode d.typeName)

def Expr.ofDatum (d : Datum) : Except TreeError Expr := Expr.ofDatumWithin d.depth d

def Program.ofDatum (d : Datum) : Except TreeError Program := do
  match d with
  | .map _ =>
    match d.field? "defs" with
    | some (.list ds) =>
      return ⟨← ds.zipIdx.mapM fun (d, i) => do
        match ← (Expr.ofDatum d).mapError (.inDef i) with
        | .define name params body => return ⟨name, params, body⟩
        | e => throw (.notDef i ("*" ++ e.typeName))⟩
    | _ => throw .noDefs
  | _ => throw (.notProgram d.typeName)

/-- Why a JSON text is no syntax tree. -/
inductive TreeTextError where
  | notJson
  | tree (cause : TreeError)
  deriving Inhabited, Repr

def TreeTextError.message : TreeTextError → Text
  | notJson => "json decode error"
  | tree cause => cause.message

/-- The expression that a JSON text stands for. -/
def Expr.ofJson (t : Text) : Except TreeTextError Expr :=
  match Data.Json.read? t with
  | none => .error .notJson
  | some d => (Expr.ofDatum d).mapError .tree

/-- The program that a JSON text stands for. -/
def Program.ofJson (t : Text) : Except TreeTextError Program :=
  match Data.Json.read? t with
  | none => .error .notJson
  | some d => (Program.ofDatum d).mapError .tree

end TinyScript.Syntax
