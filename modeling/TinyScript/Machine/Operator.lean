import TinyScript.Binary64.Arithmetic
import TinyScript.Binary64.Print
import TinyScript.Machine.Collect

/-!
# Operators on objects

Two unsigned integers give an unsigned one and two signed integers a signed one; one of each compute as unsigned words
and give a signed one. With a floating point number on either side the result is one too, also for comparisons. Strings
are concatenated with strings and numbers, and compared with strings for equality.

`>=` between an integer and a floating point number does not convert: it compares the integer with the
word of the other number, and on the other side reads an unsigned integer as a signed one.
-/

namespace TinyScript.Operator

open Syntax (BinOp UnaryOp)

/-- Why an operator has no result. -/
inductive Fault where
  /-- Operands of these kinds never go together. -/
  | undefined (op : BinOp) (left right : Kind)
  /-- These operands go together, but not under this operator. -/
  | unsupported (op : BinOp) (left right : Kind)
  | divisionByZero
  | unknownUnary (n : Nat)
  /-- The operand does not go with the unary operator. -/
  | unsupportedUnary (op : UnaryOp) (kind : Kind)
  deriving DecidableEq, Inhabited, Repr

def Fault.message : Fault → Text
  | undefined op l r =>
    "undefined binary operation '" ++ op.symbol ++ "' between types: " ++ l.name ++ " and " ++ r.name
  | unsupported op l r =>
    "unsupported or invalid operation '" ++ op.symbol ++ "' between " ++ l.name ++ " and " ++ r.name
  | divisionByZero => "integer division by zero"
  | unknownUnary n => "unrecognized unary operation " ++ Text.ofNat n
  | unsupportedUnary op k =>
    "unsupported unary operation '" ++ op.symbol ++ "' for type " ++ k.name

/-- The word of a truth value as an integer. -/
def bit (b : Bool) : UInt64 := if b then 1 else 0

/-- The word of a truth value as a floating point number. -/
def floatBit (b : Bool) : UInt64 := if b then 0x3FF0000000000000 else 0

/-- A result, or whether there is none because the divisor is zero or because the operator does not
apply. -/
inductive WordResult where
  | word (w : UInt64)
  | zeroDivisor
  | inapplicable

def unsigned (op : BinOp) (a b : UInt64) : WordResult :=
  match op with
  | .add => .word (a + b)
  | .sub => .word (a - b)
  | .mul => .word (a * b)
  | .div => if b = 0 then .zeroDivisor else .word (a / b)
  | .mod => if b = 0 then .zeroDivisor else .word (a % b)
  | .and => .word (bit (a ≠ 0 && b ≠ 0))
  | .or => .word (bit (a ≠ 0 || b ≠ 0))
  | .bitAnd => .word (a &&& b)
  | .bitOr => .word (a ||| b)
  | .bitXor => .word (a ^^^ b)
  | .eq => .word (bit (a = b))
  | .ne => .word (bit (a ≠ b))
  | .lt => .word (bit (a < b))
  | .le => .word (bit (a ≤ b))
  | .gt => .word (bit (b < a))
  | .ge => .word (bit (b ≤ a))
  | .other _ => .inapplicable

/-- Operators on signed words: division rounds toward zero, and everything wraps. -/
def signed (op : BinOp) (a b : UInt64) : WordResult :=
  match op with
  | .div => if b = 0 then .zeroDivisor else .word (a.toInt64 / b.toInt64).toUInt64
  | .mod => if b = 0 then .zeroDivisor else .word (a.toInt64 % b.toInt64).toUInt64
  | .lt => .word (bit (a.toInt64 < b.toInt64))
  | .le => .word (bit (a.toInt64 ≤ b.toInt64))
  | .gt => .word (bit (b.toInt64 < a.toInt64))
  | .ge => .word (bit (b.toInt64 ≤ a.toInt64))
  | op => unsigned op a b

def floating (op : BinOp) (a b : UInt64) : WordResult :=
  match op with
  | .add => .word (Binary64.add a b)
  | .sub => .word (Binary64.sub a b)
  | .mul => .word (Binary64.mul a b)
  | .div => .word (Binary64.div a b)
  | .and => .word (floatBit (!Binary64.isZero a && !Binary64.isZero b))
  | .or => .word (floatBit (!Binary64.isZero a || !Binary64.isZero b))
  | .eq => .word (floatBit (Binary64.eq a b))
  | .ne => .word (floatBit (!Binary64.eq a b))
  | .lt => .word (floatBit (Binary64.lt a b))
  | .le => .word (floatBit (Binary64.le a b))
  | .gt => .word (floatBit (Binary64.lt b a))
  | .ge => .word (floatBit (Binary64.le b a))
  | .mod | .bitAnd | .bitOr | .bitXor | .other _ => .inapplicable

/-- The number nearest to an unsigned word. -/
def ofUnsigned (w : UInt64) : UInt64 := Binary64.ofInt w.toNat

/-- The number nearest to a signed word. -/
def ofSigned (w : UInt64) : UInt64 := Binary64.ofInt w.toInt64.toInt

/-- What a number contributes to a string. -/
def numberText : Object → Text
  | .u64 w => Text.ofNat w.toNat
  | .i64 w => Text.ofInt w.toInt64.toInt
  | .f64 w => Binary64.fixed w
  | _ => Text.empty

/-- Whether an object can be an operand. -/
def isOperand : Object → Bool
  | .u64 _ | .i64 _ | .f64 _ | .string _ => true
  | _ => false

/-- The result of a binary operator on two objects that are no errors. -/
def binary (op : BinOp) (l r : Object) : Except Fault Object :=
  let wrap (make : UInt64 → Object) : WordResult → Except Fault Object
    | .word w => .ok (make w)
    | .zeroDivisor => .error .divisionByZero
    | .inapplicable => .error (.unsupported op l.kind r.kind)
  match l, r with
  | .u64 a, .u64 b => wrap .u64 (unsigned op a b)
  | .u64 a, .i64 b => wrap .i64 (unsigned op a b)
  | .i64 a, .u64 b => wrap .i64 (unsigned op a b)
  | .i64 a, .i64 b => wrap .i64 (signed op a b)
  | .u64 a, .f64 b =>
    if op = .ge then .ok (.f64 (floatBit (b ≤ a))) else wrap .f64 (floating op (ofUnsigned a) b)
  | .i64 a, .f64 b =>
    if op = .ge then .ok (.f64 (floatBit (b.toInt64 ≤ a.toInt64)))
    else wrap .f64 (floating op (ofSigned a) b)
  | .f64 a, .u64 b =>
    if op = .ge then .ok (.f64 (floatBit (Binary64.le (ofSigned b) a)))
    else wrap .f64 (floating op a (ofUnsigned b))
  | .f64 a, .i64 b => wrap .f64 (floating op a (ofSigned b))
  | .f64 a, .f64 b => wrap .f64 (floating op a b)
  | .string a, .string b =>
    match op with
    | .add => .ok (.string (a ++ b))
    | .eq => .ok (.i64 (bit (a = b)))
    | .ne => .ok (.i64 (bit (a ≠ b)))
    | _ => .error (.unsupported op l.kind r.kind)
  | l, r =>
    if isOperand l && isOperand r then
      match op, l, r with
      | .add, .string a, r => .ok (.string (a ++ numberText r))
      | .add, l, .string b => .ok (.string (numberText l ++ b))
      | op, l, r => .error (.unsupported op l.kind r.kind)
    else .error (.undefined op l.kind r.kind)

/-- The result of a unary operator on an object that is no error. -/
def unary (op : UnaryOp) (o : Object) : Except Fault Object :=
  match op with
  | .neg =>
    match o with
    | .u64 w | .i64 w => .ok (.i64 (0 - w))
    | .f64 w => .ok (.f64 (Binary64.neg w))
    | o => .error (.unsupportedUnary op o.kind)
  | .not =>
    match o with
    | .u64 w | .i64 w => .ok (.i64 (bit (w = 0)))
    | .f64 w => .ok (.f64 (floatBit (Binary64.isZero w)))
    | .bool w => .ok (.ofBool (w = 0))
    | o => .error (.unsupportedUnary op o.kind)
  | .other n => .error (.unknownUnary n)

end TinyScript.Operator

namespace TinyScript.Act

open Syntax (BinOp UnaryOp)

/-- The object of a result, or the error object of a fault. -/
def ofResult : Except Operator.Fault Object → Act Ref
  | .ok o => alloc o
  | .error e => newError e.message

/-- Whether an operand is an error, which is then the result; a reference that is not valid gives a
new error. -/
def errorOperand? (r : Ref) : Act (Option Ref) := do
  match (← get).heap.get? r with
  | none => return some (← newError Machine.staleMessage)
  | some o => return if o.isError then some r else none

/-- Apply a binary operator. An operand that is an error is the result, the left one first. -/
def applyBinary (op : BinOp) (left right : Ref) : Act Ref := do
  match ← errorOperand? left with
  | some e => return e
  | none =>
    match ← errorOperand? right with
    | some e => return e
    | none => ofResult (Operator.binary op (← object left) (← object right))

/-- Apply a unary operator. An operand that is an error is the result. -/
def applyUnary (op : UnaryOp) (right : Ref) : Act Ref := do
  match ← errorOperand? right with
  | some e => return e
  | none => ofResult (Operator.unary op (← object right))

end TinyScript.Act
