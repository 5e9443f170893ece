import EvmFlow.Lowering

/-!
# The flat stack model

The stack of the machine is an array in the global `Stack`, and its height a counter in the global
`StackHeight`. A pop lowers the height and then loads; a push stores and then raises the height. No
operation of this model can fail, and it computes nothing in advance.

* `FlatStack`: the table of symbols, the scope of new temporaries and the code so far;
* `Flat`: the state monad of the model, and its `StackMachine` instance;
* `FlatStack.lowerAll`: the code of an instruction list.
-/

namespace EvmFlow

/-- The state of the flat model. -/
structure FlatStack where
  symbols : SymbolTable
  scope : Scope
  out : Array Instruction := #[]

/-- Computations on the flat model. -/
abbrev Flat := StateM FlatStack

namespace Flat

/-- Runs an operation on the table of symbols. -/
def onTable (f : SymbolTable → SymbolRef × SymbolTable) : Flat SymbolRef :=
  fun s => let (ref, t) := f s.symbols; (ref, { s with symbols := t })

/-- A fresh temporary. -/
def temporary : Flat SymbolRef := fun s => onTable (·.temporary s.scope) s

/-- The symbol of a global. -/
def global (g : Global) : Flat SymbolRef := onTable (·.global g)

/-- The symbol of a constant. -/
def constant (value : Word) (type : TypeHint) : Flat SymbolRef := onTable (·.constant value type)

/-- The symbol of a number of 64 bits, used as a stack index or a height difference. -/
def number (n : Nat) : Flat SymbolRef := constant ((BitVec.ofNat 64 n).setWidth 256) .pointer

/-- Appends an instruction to the code. -/
def emit (i : Instruction) : Flat Unit := modify fun s => { s with out := s.out.push i }

/-- Changes the height by one, upwards with `add` and downwards with `sub`. -/
def step (op : Operator) : Flat Unit := do
  let height ← global .stackHeight
  let one ← number 1
  emit (.binary height op height one)

/-- Loads the entry at an index. -/
def load (index : SymbolRef) : Flat SymbolRef := do
  let x ← temporary
  let stack ← global .stack
  emit (.indexedCopy x stack index)
  return x

/-- The index of the `n`-th entry, 1 being the top. -/
def indexOf (n : Nat) : Flat SymbolRef := do
  let index ← temporary
  let height ← global .stackHeight
  let depth ← number n
  emit (.binary index .sub height depth)
  return index

/-- Takes the top of the stack. -/
def pop : Flat SymbolRef := do
  step .sub
  let height ← global .stackHeight
  load height

/-- Puts a symbol on the stack. -/
def push (ref : SymbolRef) : Flat Unit := do
  let stack ← global .stack
  let height ← global .stackHeight
  emit (.indexedAssign stack height ref)
  step .add

/-- Pushes a copy of the `n`-th entry. -/
def dup (n : Nat) : Flat Unit := do
  let index ← indexOf n
  let x ← load index
  push x

/-- Exchanges the top with the entry `n` below it. -/
def swap (n : Nat) : Flat Unit := do
  let stack ← global .stack
  let top ← indexOf 1
  let other ← indexOf (n + 1)
  let a ← load top
  let b ← load other
  emit (.indexedAssign stack top b)
  emit (.indexedAssign stack other a)

instance : StackMachine Flat where
  temporary := temporary
  constant := constant
  global := global
  emit := emit
  pop := pop
  push := push
  drop := step .sub
  dup := dup
  swap := swap
  fold _ _ := return none

end Flat

/-- The code of an instruction list, with the instructions that have no lowering. -/
def FlatStack.lowerAll (symbols : SymbolTable) (scope : Scope) (code : List Located) :
    List Located × FlatStack :=
  (lowerCode code : Flat (List Located)).run { symbols, scope }

end EvmFlow
