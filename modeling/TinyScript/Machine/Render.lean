import TinyScript.Machine.State
import TinyScript.Binary64.Print

/-!
# Values as text

A value has a tagged form, in which every scalar shows its kind, and a plain form, in which it does not.
A container met again inside itself shows as dots. A dict lists its entries in the order of its table.
-/

namespace TinyScript

/-- The two forms of a value as text. -/
inductive Style where
  | tagged
  | plain
  deriving DecidableEq, Inhabited, Repr

/-- A text with a tag around it, or alone. -/
def Style.wrap (style : Style) (tag text : Text) : Text :=
  match style with
  | tagged => tag ++ "(" ++ text ++ ")"
  | plain => text

/-- A string with a tag around it, or alone. -/
def Style.wrapString (style : Style) (tag text : Text) : Text :=
  match style with
  | tagged => tag ++ "(" ++ text.quoted ++ ")"
  | plain => text

/-- An object that is no container as text. -/
def Object.renderLeaf (style : Style) (o : Object) : Text :=
  match o with
  | .bool w => style.wrap "bool" (Text.ofBool (w ≠ 0))
  | .u64 w => style.wrap "u64" (Text.ofNat w.toNat)
  | .i64 w => style.wrap "i64" (Text.ofInt w.toInt64.toInt)
  | .f64 w => style.wrap "f64" (Binary64.fixed w)
  | .string t => style.wrapString "string" t
  | .error t => style.wrapString "error" t
  | .function f =>
    if style = .tagged && !f.name.isEmpty then "function(" ++ f.name ++ ")" else "function"
  | o => o.kind.name

/-- What stands for a container inside itself. -/
def ellipsis : Text := "..."

namespace Machine

/-- A value as text, below the containers of `path`. Nested containers are distinct, so `fuel` need not
exceed the number of objects. -/
def renderWithin (m : Machine) (style : Style) : Nat → List Ref → Ref → Text
  | 0, _, _ => ellipsis
  | fuel + 1, path, r =>
    let part := m.renderWithin style fuel (r :: path)
    let guarded (t : Unit → Text) : Text := if path.contains r then ellipsis else t ()
    match m.object r with
    | .pair h t => guarded fun _ => "pair(" ++ part h ++ "," ++ part t ++ ")"
    | .list items => guarded fun _ => "list[" ++ Text.join "," (items.map part) ++ "]"
    | .dict t => guarded fun _ =>
      "dict\x7b" ++ Text.concat (t.toList.map fun e => e.1 ++ ": " ++ part e.2 ++ ", ") ++ "\x7d"
    | o => o.renderLeaf style

def render (m : Machine) (style : Style) (r : Ref) : Text :=
  m.renderWithin style (m.heap.slots.size + 1) [] r

end Machine

end TinyScript
