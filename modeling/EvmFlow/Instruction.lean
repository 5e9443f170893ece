import EvmFlow.Operator
import EvmFlow.Symbol.Table

/-!
# Three-address code

* `Instruction`: one instruction on symbols;
* `Instruction.definition?`, `Instruction.uses`: the symbol it assigns and those it reads;
* `Instruction.branchTarget?`: the target operand of a branch;
* `Instruction.render`: its text over a table of symbols.
-/

namespace EvmFlow

/-- A three-address instruction. -/
inductive Instruction where
  /-- Does nothing. -/
  | nop
  /-- `x = y op z`. -/
  | binary (x : SymbolRef) (op : Operator) (y z : SymbolRef)
  /-- `x = op y`. -/
  | unary (x : SymbolRef) (op : Operator) (y : SymbolRef)
  /-- Jumps to the target. -/
  | branch (target : SymbolRef)
  /-- Jumps to the target if the condition is not zero. -/
  | condBranch (condition target : SymbolRef)
  /-- Calls a global without a result. -/
  | procedure (g : Global) (parameters : List SymbolRef)
  /-- Calls a global and assigns its result. -/
  | function (g : Global) (x : SymbolRef) (parameters : List SymbolRef)
  /-- `x = y`. -/
  | copy (x y : SymbolRef)
  /-- `x[index] = y`. -/
  | indexedAssign (x index y : SymbolRef)
  /-- `x = y[index]`. -/
  | indexedCopy (x y index : SymbolRef)
deriving DecidableEq

namespace Instruction

/-- The symbol an instruction assigns. -/
def definition? : Instruction → Option SymbolRef
  | binary x _ _ _ | unary x _ _ | function _ x _ | copy x _ | indexedCopy x _ _ => some x
  | nop | branch _ | condBranch _ _ | procedure _ _ | indexedAssign _ _ _ => none

/-- The symbols an instruction reads, in order. -/
def uses : Instruction → List SymbolRef
  | nop => []
  | binary _ _ y z => [y, z]
  | unary _ _ y => [y]
  | branch target => [target]
  | condBranch condition target => [condition, target]
  | procedure _ parameters => parameters
  | function _ _ parameters => parameters
  | copy _ y => [y]
  | indexedAssign x index y => [x, index, y]
  | indexedCopy _ y index => [y, index]

/-- The target operand of a branch. -/
def branchTarget? : Instruction → Option SymbolRef
  | branch target => some target
  | condBranch _ target => some target
  | _ => none

/-- Whether an instruction transfers control. -/
def isBranch (i : Instruction) : Bool := i.branchTarget?.isSome

/-- Whether an instruction does nothing besides computing the symbol it assigns. -/
def isPure : Instruction → Bool
  | function g _ _ => g.isPure
  | binary _ _ _ _ | unary _ _ _ | copy _ _ | indexedCopy _ _ _ => true
  | _ => false

/-- The parameters of a call, separated by commas. -/
def renderParameters (t : SymbolTable) (parameters : List SymbolRef) : Except Fault String :=
  return ", ".intercalate (← parameters.mapM t.render)

/-- The text of an instruction. Its symbols are looked up from left to right, so that the first
unknown one is the fault. -/
def render (t : SymbolTable) : Instruction → Except Fault String
  | nop => return "nop"
  | binary x op y z =>
    return (← t.render x) ++ " = " ++ (← t.render y) ++ " " ++ op.render ++ " " ++ (← t.render z)
  | unary x op y => return (← t.render x) ++ " = " ++ op.render ++ " " ++ (← t.render y)
  | branch target => return "branch " ++ (← t.render target)
  | condBranch condition target =>
    return "if " ++ (← t.render condition) ++ " branch " ++ (← t.render target)
  | procedure g parameters => return g.render ++ "(" ++ (← renderParameters t parameters) ++ ")"
  | function g x parameters =>
    return (← t.render x) ++ " = " ++ g.render ++ "(" ++ (← renderParameters t parameters) ++ ")"
  | copy x y => return (← t.render x) ++ " = " ++ (← t.render y)
  | indexedAssign x index y =>
    return (← t.render x) ++ "[" ++ (← t.render index) ++ "] = " ++ (← t.render y)
  | indexedCopy x y index =>
    return (← t.render x) ++ " = " ++ (← t.render y) ++ "[" ++ (← t.render index) ++ "]"

end Instruction

end EvmFlow
