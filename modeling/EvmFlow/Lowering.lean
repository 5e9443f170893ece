import EvmFlow.Bytecode
import EvmFlow.Instruction

/-!
# From opcodes to three-address code

An opcode is lowered against a model of the stack. The lowering says what is popped, pushed and
emitted; the model says what that means.

* `StackMachine`: the operations of a stack model;
* `Lowering`, `Opcode.lowering?`: the shape of the code of an opcode; undefined opcodes have none;
* `lower`, `lowerInstr`, `lowerCode`: the code of a shape, of an instruction, of several, over any
  model.
-/

namespace EvmFlow

/-- A model of the stack, as the operations of a monad `m` that also holds the table of symbols and
the code emitted so far. -/
class StackMachine (m : Type → Type) where
  /-- A fresh symbol for a result. -/
  temporary : m SymbolRef
  /-- The symbol of a constant. -/
  constant : Word → TypeHint → m SymbolRef
  /-- The symbol of a global. -/
  global : Global → m SymbolRef
  /-- Appends an instruction to the code. -/
  emit : Instruction → m Unit
  /-- Takes the top of the stack. -/
  pop : m SymbolRef
  /-- Puts a symbol on the stack. -/
  push : SymbolRef → m Unit
  /-- Discards the top of the stack. -/
  drop : m Unit
  /-- Pushes a copy of the `n`-th entry, 1 being the top. -/
  dup : (n : Nat) → m Unit
  /-- Exchanges the top with the entry `n` below it. -/
  swap : (n : Nat) → m Unit
  /-- The symbol of the result of an operator, if the model can compute it. -/
  fold : Operator → List SymbolRef → m (Option SymbolRef)

/-- The shape of the code of an opcode. -/
inductive Lowering where
  /-- No code. -/
  | skip
  /-- Pushes the data bytes. -/
  | push
  /-- Pushes the offset of the instruction. -/
  | counter
  /-- Discards the top of the stack. -/
  | drop
  /-- Copies the `n`-th entry. -/
  | dup (n : Nat)
  /-- Exchanges the top with the entry `n` below it. -/
  | swap (n : Nat)
  /-- Jumps to the popped target. -/
  | jump
  /-- Jumps to the popped target if the value popped next is not zero. -/
  | jumpIf
  /-- Stores the second popped value in a region at the first. -/
  | store (region : Global)
  /-- Pushes the value of a region at a popped index. -/
  | load (region : Global)
  /-- Pushes the result of an operator on two popped values. -/
  | binary (op : Operator)
  /-- Pushes the result of an operator on one popped value. -/
  | unary (op : Operator)
  /-- Pushes the result of a call with `operands` popped values. -/
  | function (g : Global) (operands : Nat)
  /-- Calls a global with `operands` popped values. -/
  | procedure (g : Global) (operands : Nat)
deriving DecidableEq

/-- The shape of the code of an opcode. -/
def Opcode.lowering? : Opcode → Option Lowering
  | push _ => some .push
  | dup n => some (.dup (n.val + 1))
  | swap n => some (.swap (n.val + 1))
  | log n => some (.procedure .log (2 + n.val))
  | jumpdest => some .skip
  | pop => some .drop
  | pc => some .counter
  | jump => some .jump
  | jumpi => some .jumpIf
  | mstore => some (.store .memory)
  | mload => some (.load .memory)
  | calldataload => some (.load .callData)
  | add => some (.binary .add)
  | mul => some (.binary .mul)
  | sub => some (.binary .sub)
  | div => some (.binary .div)
  | sdiv => some (.binary .sdiv)
  | mod => some (.binary .mod)
  | smod => some (.binary .smod)
  | exp => some (.binary .exp)
  | signextend => some (.binary .signExtend)
  | addmod => some (.function .addMod 3)
  | mulmod => some (.function .mulMod 3)
  | lt => some (.binary .lessThan)
  | gt => some (.binary .greaterThan)
  | slt => some (.binary .signedLessThan)
  | sgt => some (.binary .signedGreaterThan)
  | eq => some (.binary .equal)
  | iszero => some (.unary .isZero)
  | and => some (.binary .and)
  | or => some (.binary .or)
  | xor => some (.binary .xor)
  | not => some (.unary .not)
  | byte => some (.binary .byte)
  | shl => some (.binary .shiftLeft)
  | shr => some (.binary .shiftRight)
  | sar => some (.binary .shiftArithmeticRight)
  | keccak256 => some (.function .sha3 2)
  | address => some (.function .contractAddress 0)
  | balance => some (.function .balance 1)
  | origin => some (.function .origin 0)
  | caller => some (.function .caller 0)
  | callvalue => some (.function .callValue 0)
  | calldatasize => some (.function .callDataSize 0)
  | calldatacopy => some (.procedure .memoryCopy 3)
  | codesize => some (.function .codeSize 0)
  | codecopy => some (.procedure .codeCopy 3)
  | gasprice => some (.function .gasPrice 0)
  | extcodesize => some (.function .extCodeSize 1)
  | extcodecopy => some (.procedure .extCodeCopy 4)
  | returndatasize => some (.function .returnDataSize 0)
  | returndatacopy => some (.procedure .returnDataCopy 3)
  | extcodehash => some (.function .extCodeHash 1)
  | blockhash => some (.function .blockHash 1)
  | coinbase => some (.function .coinbase 0)
  | timestamp => some (.function .timestamp 0)
  | number => some (.function .blockNumber 0)
  | difficulty => some (.function .prevRanDao 0)
  | gaslimit => some (.function .gasLimit 0)
  | chainid => some (.function .chainId 0)
  | selfbalance => some (.function .selfBalance 0)
  | basefee => some (.function .baseFee 0)
  | blobhash => some (.function .blobHash 1)
  | blobbasefee => some (.function .blobBaseFee 0)
  | mstore8 => some (.procedure .mstore8 2)
  | sload => some (.function .sload 1)
  | sstore => some (.procedure .sstore 2)
  | tload => some (.function .tload 1)
  | tstore => some (.procedure .tstore 2)
  | mcopy => some (.procedure .mcopy 3)
  | msize => some (.function .memorySize 0)
  | gas => some (.function .gas 0)
  | create => some (.function .create 3)
  | create2 => some (.function .create2 4)
  | call => some (.function .call 7)
  | callcode => some (.function .callCode 7)
  | delegatecall => some (.function .delegateCall 6)
  | staticcall => some (.function .staticCall 6)
  | stop => some (.procedure .stop 0)
  | ret => some (.procedure .ret 2)
  | revert => some (.procedure .revert 2)
  | invalid => some (.procedure .invalid 0)
  | selfdestruct => some (.procedure .selfDestruct 1)
  | undefined _ _ => none

section Lower

variable {m : Type → Type} [Monad m] [StackMachine m]

open StackMachine

/-- Takes `n` entries, the top first. -/
def popN : (n : Nat) → m (List SymbolRef)
  | 0 => return []
  | n + 1 => do
    let ref ← pop
    let rest ← popN n
    return ref :: rest

/-- Pushes the result of `op` on `operands`: computed in advance if the model can, else by the
instruction that assigns it to a fresh symbol. -/
def pushResult (op : Operator) (operands : List SymbolRef) (assign : SymbolRef → Instruction) :
    m Unit := do
  match ← fold op operands with
  | some x => push x
  | none =>
    let x ← temporary
    emit (assign x)
    push x

/-- Emits the code of a shape. -/
def lower (i : Located) : Lowering → m Unit
  | .skip => return ()
  | .push => do push (← constant i.instr.value (.bytes i.instr.immediate.length))
  | .counter => do push (← constant (BitVec.ofNat 256 i.offset) .pointer)
  | .drop => drop
  | .dup n => dup n
  | .swap n => swap n
  | .jump => do emit (.branch (← pop))
  | .jumpIf => do
    let target ← pop
    let condition ← pop
    emit (.condBranch condition target)
  | .store region => do
    let index ← pop
    let value ← pop
    emit (.indexedAssign (← global region) index value)
  | .load region => do
    let index ← pop
    let x ← temporary
    emit (.indexedCopy x (← global region) index)
    push x
  | .binary op => do
    let y ← pop
    let z ← pop
    pushResult op [y, z] fun x => .binary x op y z
  | .unary op => do
    let y ← pop
    pushResult op [y] fun x => .unary x op y
  | .function g n => do
    let parameters ← popN n
    let x ← temporary
    emit (.function g x parameters)
    push x
  | .procedure g n => do emit (.procedure g (← popN n))

/-- Lowers an instruction and reports whether it has a lowering. -/
def lowerInstr (i : Located) : m Bool :=
  match i.instr.op.lowering? with
  | some l => do
    lower i l
    return true
  | none => return false

/-- Lowers instructions one after another and returns those without a lowering. -/
def lowerCode : List Located → m (List Located)
  | [] => return []
  | i :: rest => do
    let known ← lowerInstr i
    let gaps ← lowerCode rest
    return if known then gaps else i :: gaps

end Lower

end EvmFlow
