import EvmFlow.Block
import EvmFlow.Bytecode
import EvmFlow.Graph
import Std.Data.TreeMap.Basic

/-!
# Programs

A program is the graph of the basic blocks of one code, with everything that the blocks refer to.
Four synthetic nodes stand beside the blocks: control comes from the start node, ends in the
terminator, and passes through the jump table wherever the target of a jump is known at run time
only; a jump to a place that is no jump destination leads to the invalid jump node.

* `Sentinels`: the four synthetic nodes;
* `Tally`: the number of changes that each pass has made;
* `Program`: the whole, and `Program.blocks`, `Program.block`, `Program.opcodes`, `Program.offset`;
* `Program.verify`: whether the parts fit together.
-/

namespace EvmFlow

/-- The synthetic nodes of a program. -/
structure Sentinels where
  start : NodeId
  jumpTable : NodeId
  terminator : NodeId
  invalidJump : NodeId
deriving DecidableEq

/-- The synthetic nodes, in the order in which they are checked. -/
def Sentinels.toList (s : Sentinels) : List NodeId :=
  [s.start, s.jumpTable, s.terminator, s.invalidJump]

/-- An opcode that has no lowering, and where it stands. -/
structure Gap where
  offset : Nat
  op : Opcode
deriving DecidableEq

/-- Numbers of changes by the name of the pass that made them, each as a signed 64-bit integer. -/
abbrev Tally := List (String × Int)

/-- Adds `changes` to the count of a pass. -/
def Tally.add : Tally → (pass : String) → (changes : Int) → Tally
  | [], pass, changes => [(pass, Signed64.wrap changes)]
  | (name, count) :: rest, pass, changes =>
    if name = pass then (name, Signed64.wrap (count + changes)) :: rest
    else (name, count) :: Tally.add rest pass changes

/-- The nodes at which jump destinations stand, by the offset of the destination. -/
abbrev JumpTargets := Std.TreeMap Int NodeId

/-- The graph of the blocks of one code, and all that belongs to it. -/
structure Program where
  code : Array Located
  graph : Graph BasicBlock
  sentinels : Sentinels
  symbols : SymbolTable := {}
  jumpTargets : JumpTargets := {}
  gaps : List Gap := []
  tally : Tally := []

namespace Program

/-- Whether a node is synthetic. -/
def isSentinel (p : Program) (n : NodeId) : Bool := p.sentinels.toList.contains n

/-- The live nodes that are no sentinels, in ascending order, which is the order of the code. -/
def blocks (p : Program) : List NodeId := p.graph.nodeIds.filter fun n => !p.isSentinel n

/-- The block at a node. -/
def block (p : Program) (n : NodeId) : Except Fault BasicBlock := p.graph.label n

/-- Applies `f` to the block at a node, if the node is live. -/
def modifyBlock (p : Program) (n : NodeId) (f : BasicBlock → BasicBlock) : Program :=
  { p with graph := p.graph.modifyLabel n f }

/-- Whether a span lies in the code. -/
def hasSpan (p : Program) (s : Span) : Bool :=
  0 ≤ s.start && s.stop ≤ p.code.size && s.start ≤ s.stop

/-- The part of the code that a span covers. -/
def slice (p : Program) (s : Span) : List Located :=
  (p.code.extract s.start.toNat s.stop.toNat).toList

/-- The instructions that the block at a node covers. -/
def opcodes (p : Program) (n : NodeId) : Except Fault (List Located) := do
  let span := (← p.block n).opcodes
  if p.hasSpan span then return p.slice span else throw (.malformedSpan span n)

/-- The size of the code in bytes. -/
def codeSize (p : Program) : Nat := (p.code.back?.map Located.next).getD 0

/-- The byte offset of an opcode index; past the last opcode, the size of the code. -/
def offset (p : Program) (i : Int) : Except Fault Nat :=
  if i < p.code.size then
    match i.toNat? with
    | some k => .ok ((p.code[k]?.map Located.offset).getD p.codeSize)
    | none => .error (.negativeIndex i)
  else .ok p.codeSize

/-! ## Consistency -/

/-- Every symbol of an instruction is known. -/
def verifyInstruction (p : Program) (i : Instruction) : Except Fault Unit :=
  (i.definition?.toList ++ i.uses).forM fun ref => do
    let _ ← p.symbols.entry ref

/-- A block has a span in the code, known symbols and a stack summary that adds up. -/
def verifyBlock (p : Program) (n : NodeId) : Except Fault Unit := do
  let b ← p.block n
  let _ ← p.opcodes n
  b.instructions.forM p.verifyInstruction
  if b.stackInfo.balanced then
    return ()
  else
    throw (.unbalancedSummary n b.stackInfo.arguments b.stackInfo.height
      b.stackInfo.generates.length)

/-- The sentinels are live, jump targets lead to live nodes, and every block is sound. -/
def verify (p : Program) : Except Fault Unit := do
  p.sentinels.toList.forM fun n =>
    if p.graph.contains n then .ok () else .error (.missingSentinel n)
  p.jumpTargets.toList.forM fun (offset, n) =>
    if p.graph.contains n then .ok () else .error (.deadJumpTarget offset n)
  p.blocks.forM p.verifyBlock

end Program

end EvmFlow
