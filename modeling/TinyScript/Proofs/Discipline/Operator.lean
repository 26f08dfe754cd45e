import TinyScript.Proofs.Discipline.Native
import TinyScript.Proofs.Twin.Node

/-!
# Operators and literals obey every discipline

What operators and literals give is a number, a truth value, a text or an error.
-/

namespace TinyScript

open Syntax (BinOp UnaryOp)

/-- No object without parts is a function. -/
theorem Object.isFunction_of_isLeaf {o : Object} (ho : o.isLeaf) : o.isFunction = false := by
  cases o <;> first | rfl | cases ho

namespace Act

variable {D : Discipline}

/-- An operand that is an error gives a new error. -/
theorem obeys_errorOperand? (r : Ref) : D.Obeys (errorOperand? r) := by
  refine D.get (fun _ _ => rfl) fun m => ?_
  split
  · exact D.bind (obeys_newError _) fun _ => D.pure _
  · exact D.pure _

/-- What an operator gives is allocated if it is a leaf; a fault is an error. -/
theorem obeys_ofResult {result : Except Operator.Fault Object}
    (hresult : ∀ o, result = .ok o → o.isLeaf) : D.Obeys (ofResult result) := by
  cases result with
  | ok o => exact D.alloc (Object.isFunction_of_isLeaf (hresult o rfl))
  | error e => exact obeys_newError _

/-- Operators give leaves, whatever they are applied to. -/
theorem obeys_applyBinary (op : BinOp) (l r : Ref) : D.Obeys (applyBinary op l r) := by
  refine D.bind (obeys_errorOperand? l) fun e => ?_
  split
  · exact D.pure _
  · refine D.bind (obeys_errorOperand? r) fun e => ?_
    split
    · exact D.pure _
    · exact obeys_object l fun _ => obeys_object r fun _ => obeys_ofResult fun _ => Operator.isLeaf_of_binary

theorem obeys_applyUnary (op : UnaryOp) (r : Ref) : D.Obeys (applyUnary op r) := by
  refine D.bind (obeys_errorOperand? r) fun e => ?_
  split
  · exact D.pure _
  · exact obeys_object r fun _ => obeys_ofResult fun _ => Operator.isLeaf_of_unary

end Act

namespace Eval

variable {D : Act.Discipline}

/-- A literal is a leaf, an error or the shared `nil`. -/
theorem obeys_evalLit (kind : Syntax.LitKind) (raw : Text) : D.Obeys (evalLit kind raw) := by
  cases kind with
  | number =>
    unfold evalLit
    dsimp only
    split
    · next o ho => exact D.alloc (Object.isFunction_of_isLeaf (Literal.isLeaf_of_number? ho))
    · exact Act.obeys_newError _
  | nil => exact D.get (fun _ _ => rfl) fun m => D.pure _
  | string | bool | unit => exact D.alloc rfl
  | other n => exact Act.obeys_newError _

/-- The arguments of a timing are looked at, and no more. -/
theorem obeys_timingArgs (args : List Ref) : D.ObeysTry (timingArgs args) := by
  unfold timingArgs
  split
  · dsimp only
    split
    · exact .throw_bind _
    · refine .object _ fun o => ?_
      split
      · split
        · exact .pure _
        · exact (Act.obeys_positiveArg _ _).bind fun n => .pure _
      · exact .throw _
  · exact .throw _

end Eval

end TinyScript
