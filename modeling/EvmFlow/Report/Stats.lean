import EvmFlow.Program

/-!
# Block statistics

* `BlockStat`: one row, the numbers of one block;
* `Program.blockStat`, `Program.blockStats`: the rows of a program, ordered by offset.
-/

namespace EvmFlow

/-- The numbers of one block. -/
structure BlockStat where
  node : NodeId
  startOffset : Nat
  endOffset : Nat
  opcodes : Int
  instructions : Nat
  symbols : Nat
  arguments : Int
  height : Int32
  generates : Nat
  lifted : Bool

/-- Rows are ordered by offset, and by node at the same offset. -/
def BlockStat.le (a b : BlockStat) : Bool :=
  a.startOffset < b.startOffset || (a.startOffset == b.startOffset && a.node ≤ b.node)

namespace Program

/-- The numbers of the block at a node. -/
def blockStat (p : Program) (n : NodeId) : Except Fault BlockStat := do
  let b ← p.block n
  return {
    node := n
    startOffset := ← p.offset b.opcodes.start
    endOffset := ← p.offset b.opcodes.stop
    opcodes := b.opcodes.len
    instructions := b.instructions.length
    symbols := (p.symbols.symbolsIn (.block n)).length
    arguments := b.stackInfo.arguments
    height := b.stackInfo.height
    generates := b.stackInfo.generates.length
    lifted := b.lifted }

/-- The numbers of every block, in the order of their offsets. -/
def blockStats (p : Program) : Except Fault (List BlockStat) :=
  return (← p.blocks.mapM p.blockStat).mergeSort BlockStat.le

end Program

end EvmFlow
