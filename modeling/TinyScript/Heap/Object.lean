import TinyScript.Dict.Table
import TinyScript.Binary64.Arithmetic
import TinyScript.Syntax.Expr

/-!
# Objects

A value of the language is an object on the heap, named by a reference. Numbers and truth values share
one word of 64 bits, so that an operation may look at a number through a kind other than its own.
Compound objects hold references to their parts.

A function is either primitive or written in the language. One made by a definition runs below the
global frame; one made by a `fn` expression has a frame of its own with the names it captured.
-/

namespace TinyScript

/-- A reference to a slot of the heap. The generation must be that of the slot for the reference to be
valid; generation zero never is. -/
structure Ref where
  index : Nat
  /-- The generation of the slot when the reference was made. -/
  gen : UInt32
  deriving DecidableEq, Inhabited, Repr

namespace Ref

/-- The reference that never names anything. -/
def zero : Ref := ⟨0, 0⟩

/-- Whether a reference can never be valid. -/
def isZero (r : Ref) : Bool := r.gen = 0

def text (r : Ref) : Text := "ref(" ++ Text.ofNat r.index ++ "@" ++ Text.ofNat r.gen.toNat ++ ")"

end Ref

inductive Kind where
  | unit
  | nil
  | bool
  | u64
  | i64
  | f64
  | error
  | string
  | pair
  | list
  | dict
  | function
  | other (n : Nat)
  deriving DecidableEq, Inhabited, Repr

namespace Kind

def ofCode : Nat → Kind
  | 0 => unit
  | 1 => nil
  | 2 => bool
  | 3 => u64
  | 4 => i64
  | 5 => f64
  | 6 => error
  | 7 => string
  | 8 => pair
  | 9 => list
  | 10 => dict
  | 11 => function
  | n => other n

def code : Kind → Nat
  | unit => 0
  | nil => 1
  | bool => 2
  | u64 => 3
  | i64 => 4
  | f64 => 5
  | error => 6
  | string => 7
  | pair => 8
  | list => 9
  | dict => 10
  | function => 11
  | other n => n

def name : Kind → Text
  | unit => "unit"
  | nil => "nil"
  | bool => "bool"
  | u64 => "u64"
  | i64 => "i64"
  | f64 => "f64"
  | error => "error"
  | string => "string"
  | pair => "pair"
  | list => "list"
  | dict => "dict"
  | function => "function"
  | other n => "kind(" ++ Text.ofNat n ++ ")"

end Kind

/-- The primitive operations behind native functions. Some serve several functions and go by the name
they are called under. -/
inductive Primitive where
  | print
  | typename
  | pair
  | member
  | len
  | get
  | put
  | del
  | keys
  | json
  | msgpack
  | blake2
  | bsave
  | bload
  | dump
  | random
  | randint
  | regexp
  | now
  | timeit
  /-- The name under which the function was registered. -/
  | ownName
  | nothing
  | argCount
  deriving DecidableEq, Inhabited, Repr

abbrev FrameId := Nat

/-- What a function does. -/
inductive Code where
  | native (op : Primitive)
  /-- Parameters and a body, run below a frame of captured names or below the global frame. -/
  | script (params : List Text) (body : Syntax.Expr) (closure : Option FrameId)
  deriving Inhabited, Repr

structure Function where
  name : Text
  code : Code
  deriving Inhabited, Repr

namespace Function

def isNative (f : Function) : Bool :=
  match f.code with
  | .native _ => true
  | .script .. => false

def params (f : Function) : List Text :=
  match f.code with
  | .native _ => []
  | .script ps _ _ => ps

/-- The frame of captured names. -/
def closure? (f : Function) : Option FrameId :=
  match f.code with
  | .native _ => none
  | .script _ _ c => c

end Function

/-- A value. -/
inductive Object where
  | unit
  | nil
  /-- A truth value; any word but zero is true. -/
  | bool (word : UInt64)
  | u64 (word : UInt64)
  | i64 (word : UInt64)
  | f64 (word : UInt64)
  | error (message : Text)
  | string (text : Text)
  | pair (head tail : Ref)
  | list (items : List Ref)
  | dict (table : Table Ref)
  | function (f : Function)
  | other (kind : Nat) (word : UInt64)
  deriving Inhabited, Repr

namespace Object

def kind : Object → Kind
  | unit => .unit
  | nil => .nil
  | bool _ => .bool
  | u64 _ => .u64
  | i64 _ => .i64
  | f64 _ => .f64
  | error _ => .error
  | string _ => .string
  | pair .. => .pair
  | list _ => .list
  | dict _ => .dict
  | function _ => .function
  | other n _ => .other n

/-- The word of an object, zero for objects that are no scalars. -/
def word : Object → UInt64
  | bool w | u64 w | i64 w | f64 w | other _ w => w
  | _ => 0

/-- The word as a signed integer. -/
def int (o : Object) : Int := o.word.toInt64.toInt

def isError (o : Object) : Bool :=
  match o with
  | error _ => true
  | _ => false

/-- The object of a scalar kind with a word, and a blank object of any other kind. -/
def blank (kind : Kind) (word : UInt64) : Object :=
  match kind with
  | .unit => unit
  | .nil => nil
  | .bool => bool word
  | .u64 => u64 word
  | .i64 => i64 word
  | .f64 => f64 word
  | .error => error Text.empty
  | .string => string Text.empty
  | .pair => pair .zero .zero
  | .list => list []
  | .dict => dict Table.empty
  | .function => function ⟨Text.empty, .script [] .missing none⟩
  | .other n => other n word

def ofBool (b : Bool) : Object := bool (if b then 1 else 0)

/-- A signed integer as an object; only its lowest 64 bits are kept. -/
def ofInt (i : Int) : Object := i64 (Int64.ofInt i).toUInt64

/-- Whether a condition counts an object as true: numbers other than zero, lists that are not empty,
and everything else but `unit` and `nil`. -/
def truthy : Object → Bool
  | unit | nil => false
  | bool w | u64 w | i64 w => w ≠ 0
  | f64 w => !Binary64.isZero w
  | list items => !items.isEmpty
  | _ => true

/-- The references that an object holds itself, those of captured names not included. -/
def children : Object → List Ref
  | pair h t => [h, t]
  | list items => items
  | dict table => table.entries.map Entry.value
  | _ => []

/-- The frame that an object keeps alive. -/
def closure? : Object → Option FrameId
  | function f => f.closure?
  | _ => none

end Object

end TinyScript
