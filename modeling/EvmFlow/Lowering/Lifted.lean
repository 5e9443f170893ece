import EvmFlow.Block
import EvmFlow.Lowering

/-!
# The symbolic stack model

A block is lowered against a stack of symbols of its own. Values that the block pushes live on the
local stack. Below it lies the stack that the block is entered with; its entries are symbols with a
slot address, slot 0 being the top at entry, and each slot has one symbol. Operators on constants
are computed in advance.

* `LiftedStack`: the local stack, the entry slots read so far and the number of entries taken;
* `Lifted`: the monad of the model, which keeps the state of a computation that fails, and its
  `StackMachine` instance;
* `LiftedStack.summary`: the stack summary of the finished block;
* `LiftedStack.liftAll`: the code and the summary of an instruction list.
-/

namespace EvmFlow

/-- The state of the symbolic model. -/
structure LiftedStack where
  symbols : SymbolTable
  node : NodeId
  out : Array Instruction := #[]
  /-- The local stack, top first. -/
  stack : List SymbolRef := []
  /-- The number of entry stack entries taken so far. -/
  borrows : Nat := 0
  /-- The symbols of the entry slots read so far. -/
  arguments : List (Int32 × SymbolRef) := []
  /-- The change of height so far. -/
  height : Int32 := 0

/-- Computations on the symbolic model. They fail on symbols that the table does not know. -/
abbrev Lifted := EStateM Fault LiftedStack

/-- The entry slot at depth `n`, 0 being the top. A negative slot lies on the local stack. -/
def LiftedStack.slot (s : LiftedStack) (n : Int) : Int32 :=
  Int32.ofInt (n - (s.stack.length - s.borrows))

namespace Lifted

/-- Runs an operation on the table of symbols. -/
def onTable (f : SymbolTable → SymbolRef × SymbolTable) : Lifted SymbolRef :=
  modifyGet fun s => let (ref, t) := f s.symbols; (ref, { s with symbols := t })

/-- The symbol at a handle. -/
def symbol (ref : SymbolRef) : Lifted Symbol := do
  match (← get).symbols.symbol ref with
  | .ok s => return s
  | .error f => throw f

/-- A fresh temporary. -/
def temporary : Lifted SymbolRef := do onTable (·.temporary (.block (← get).node))

/-- The symbol of a global. -/
def global (g : Global) : Lifted SymbolRef := onTable (·.global g)

/-- The symbol of a constant. -/
def constant (value : Word) (type : TypeHint) : Lifted SymbolRef := onTable (·.constant value type)

/-- Appends an instruction to the code. -/
def emit (i : Instruction) : Lifted Unit := modify fun s => { s with out := s.out.push i }

/-- The symbol of an entry slot, put in at its first use. -/
def argument (slot : Int32) : Lifted SymbolRef := do
  let s ← get
  match s.arguments.lookup slot with
  | some ref => return ref
  | none =>
    let ref ← onTable (·.insert (.block s.node) (.stackSlot slot))
    modify fun s => { s with arguments := (slot, ref) :: s.arguments }
    return ref

/-- The symbol at depth `n`, 0 being the top. -/
def nth (n : Nat) : Lifted SymbolRef := do
  let s ← get
  match s.stack[n]? with
  | some ref => return ref
  | none => argument (s.slot n)

/-- Takes the top of the stack. -/
def pop : Lifted SymbolRef := do
  modify fun s => { s with height := s.height - 1 }
  match (← get).stack with
  | ref :: rest =>
    modify fun s => { s with stack := rest }
    return ref
  | [] =>
    let ref ← nth 0
    modify fun s => { s with borrows := s.borrows + 1 }
    return ref

/-- Puts a symbol on the stack. -/
def push (ref : SymbolRef) : Lifted Unit :=
  modify fun s => { s with stack := ref :: s.stack, height := s.height + 1 }

/-- Pushes a copy of the `n`-th entry, 1 being the top; a constant is its own copy. -/
def dup (n : Nat) : Lifted Unit := do
  let source ← nth (n - 1)
  if (← symbol source).isConstant then
    push source
  else
    let x ← temporary
    emit (.copy x source)
    push x

/-- Exchanges the top of the stack with an entry below the local stack: through the entry's slot if
the top is local, and between two slots if the local stack is empty. -/
def swapEntry (n : Nat) : Lifted Unit := do
  let other ← nth n
  match (← get).stack with
  | top :: rest =>
    let x ← temporary
    emit (.copy x other)
    emit (.copy other top)
    modify fun s => { s with stack := x :: rest }
  | [] =>
    let first ← nth 0
    let x ← temporary
    emit (.copy x first)
    emit (.copy first other)
    emit (.copy other x)

/-- Exchanges the top with the entry `n` below it. -/
def swap (n : Nat) : Lifted Unit := do
  let stack := (← get).stack
  match stack[0]?, stack[n]? with
  | some top, some other => modify fun s => { s with stack := (stack.set 0 other).set n top }
  | _, _ => swapEntry n

/-- The values of the operands, if all of them are constants. -/
def values? : List SymbolRef → Lifted (Option (List Word))
  | [] => return some []
  | ref :: rest => do
    match (← symbol ref).value? with
    | some v => return (← values? rest).map (v :: ·)
    | none => return none

/-- The constant that an operator yields on constants. -/
def fold (op : Operator) (operands : List SymbolRef) : Lifted (Option SymbolRef) := do
  match (← values? operands).bind op.eval with
  | some w => return some (← constant w .word)
  | none => return none

instance : StackMachine Lifted where
  temporary := temporary
  constant := constant
  global := global
  emit := emit
  pop := pop
  push := push
  drop := do let _ ← pop
  dup := dup
  swap := swap
  fold := fold

end Lifted

namespace LiftedStack

/-- What the block takes from the stack and leaves on it. -/
def info (s : LiftedStack) : StackInfo := ⟨s.borrows, s.height, s.stack.reverse⟩

/-- The stack summary of a finished block; it is a fault if its numbers do not add up. -/
def summary (s : LiftedStack) : Except Fault StackInfo :=
  if s.info.balanced then .ok s.info
  else .error (.unbalancedStack s.node s.borrows s.height s.stack.length)

/-- Lowers an instruction list on an empty local stack; instructions without a lowering are
passed over. -/
def liftAll (symbols : SymbolTable) (node : NodeId) (code : List Located) :
    Except Fault LiftedStack :=
  match (lowerCode code : Lifted (List Located)).run { symbols, node } with
  | .ok _ s => .ok s
  | .error f _ => .error f

end LiftedStack

end EvmFlow
