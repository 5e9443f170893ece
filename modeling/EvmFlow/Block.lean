import EvmFlow.Instruction

/-!
# Basic blocks

A basic block is a straight run of opcodes and the three-address code made from them.

* `StackInfo`: how a lifted block uses the stack, and when its numbers add up
  (`StackInfo.balanced`);
* `BasicBlock`: a span of opcodes with its code.
-/

namespace EvmFlow

/-- How a lifted block uses the stack: it takes `arguments` entries of the stack it is entered with,
changes the height by `height`, and leaves `generates` on top, bottom first. -/
structure StackInfo where
  arguments : Int := 0
  height : Int32 := 0
  generates : List SymbolRef := []
deriving DecidableEq

/-- Arguments and change of height together give the number of values left, in 32-bit arithmetic. -/
def StackInfo.balanced (info : StackInfo) : Bool :=
  Int32.ofInt info.arguments + info.height = Int32.ofNat info.generates.length

/-- A straight run of opcodes and its code. -/
structure BasicBlock where
  opcodes : Span
  instructions : List Instruction := []
  stackInfo : StackInfo := {}
  /-- Set once the block has code on the values themselves instead of code on the stack. -/
  lifted : Bool := false
deriving DecidableEq

/-- A block without opcodes at an opcode index. -/
def BasicBlock.startingAt (start : Int) : BasicBlock := { opcodes := ⟨start, start⟩ }

end EvmFlow
