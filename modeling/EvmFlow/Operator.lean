import EvmFlow.Word

/-!
# Operators

The operators of three-address assignments and their meaning on words. Operands follow the stack:
the first one was on top.

* `Operator`: the 23 operators, and `unknown` for a code that names none of them;
* `Operator.ofCode`: the operator of a code;
* `Operator.render`: the name in listings;
* `Operator.eval`: the result on given operands.
-/

namespace EvmFlow

/-- An operator of a unary or binary assignment. -/
inductive Operator where
  | add | mul | sub | div | sdiv | mod | smod | exp | signExtend
  | lessThan | greaterThan | signedLessThan | signedGreaterThan | equal | isZero
  | and | or | xor | not | byte | shiftLeft | shiftRight | shiftArithmeticRight
  | unknown (code : UInt8)
deriving DecidableEq, Repr

namespace Operator

/-- The operators in the order of their codes. -/
def all : List Operator :=
  [add, mul, sub, div, sdiv, mod, smod, exp, signExtend,
   lessThan, greaterThan, signedLessThan, signedGreaterThan, equal, isZero,
   and, or, xor, not, byte, shiftLeft, shiftRight, shiftArithmeticRight]

/-- The operator of a code; the codes count the operators from zero. -/
def ofCode (code : UInt8) : Operator := all.getD code.toNat (unknown code)

/-- The name of an operator in listings. -/
def render : Operator → String
  | add => "Add"
  | mul => "Mul"
  | sub => "Sub"
  | div => "Div"
  | sdiv => "SDiv"
  | mod => "Mod"
  | smod => "SMod"
  | exp => "Exp"
  | signExtend => "SignExtend"
  | lessThan => "LessThan"
  | greaterThan => "GreaterThan"
  | signedLessThan => "SignedLessThan"
  | signedGreaterThan => "SignedGreaterThan"
  | equal => "Equal"
  | isZero => "IsZero"
  | and => "And"
  | or => "Or"
  | xor => "Xor"
  | not => "Not"
  | byte => "Byte"
  | shiftLeft => "ShiftLeft"
  | shiftRight => "ShiftRight"
  | shiftArithmeticRight => "ShiftArithmeticRight"
  | unknown code => s!"Operator({code.toNat})"

/-- A comparison yields a truth value. -/
def isComparison : Operator → Bool
  | lessThan | greaterThan | signedLessThan | signedGreaterThan | equal | isZero => true
  | _ => false

/-- The result of an operator on two operands, the first from the top of the stack. -/
def evalBinary? : Operator → Option (Word → Word → Word)
  | add => some fun a b => a + b
  | mul => some fun a b => a * b
  | sub => some fun a b => a - b
  | div => some fun a b => if b = 0 then 0 else a / b
  | sdiv => some fun a b => if b = 0 then 0 else a.sdiv b
  | mod => some fun a b => if b = 0 then 0 else a % b
  | smod => some fun a b => if b = 0 then 0 else a.srem b
  | exp => some Word.pow
  | signExtend => some Word.signExtendFrom
  | lessThan => some fun a b => Word.ofBool (a.ult b)
  | greaterThan => some fun a b => Word.ofBool (b.ult a)
  | signedLessThan => some fun a b => Word.ofBool (a.slt b)
  | signedGreaterThan => some fun a b => Word.ofBool (b.slt a)
  | equal => some fun a b => Word.ofBool (a == b)
  | and => some fun a b => a &&& b
  | or => some fun a b => a ||| b
  | xor => some fun a b => a ^^^ b
  | byte => some Word.byteAt
  | shiftLeft => some fun a b => if a < 256 then b <<< a.toNat else 0
  | shiftRight => some fun a b => if a < 256 then b >>> a.toNat else 0
  | shiftArithmeticRight => some fun a b =>
    if a < 256 then b.sshiftRight a.toNat else if b.msb then BitVec.allOnes 256 else 0
  | isZero | not | unknown _ => none

/-- The result of an operator on one operand. -/
def evalUnary? : Operator → Option (Word → Word)
  | isZero => some fun a => Word.ofBool (a == 0)
  | not => some fun a => ~~~a
  | _ => none

/-- The result on operands given top of stack first. Operands beyond those the operator takes are
ignored; an unknown operator has no result, nor has one with too few operands. -/
def eval (op : Operator) : List Word → Option Word
  | [] => none
  | [a] => op.evalUnary?.map (· a)
  | a :: b :: _ => (op.evalBinary?.map (· a b)).or (op.evalUnary?.map (· a))

end Operator

end EvmFlow
