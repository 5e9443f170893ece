import EvmFlow.Lowering.Flat
import EvmFlow.Program

/-!
# Building a program

The code is split into blocks in one walk. A block ends behind a jump or a terminator and in front
of a jump destination. Jumps go to the jump table, from which an edge leads to every destination;
the code of the blocks is then the flat lowering of their opcodes.

* `Builder`, `Builder.visit`: the walk over the opcodes;
* `Program.ofInstrs`: the graph with empty blocks;
* `Program.lowerBlock`, `Program.build`: the graph with code in the blocks.
-/

namespace EvmFlow

/-- The synthetic nodes of a new program are its first four nodes. -/
def Sentinels.initial : Sentinels := ⟨0, 1, 2, 3⟩

/-- The graph under construction, the block that takes the next opcode, and the opcode before
that one. -/
structure Builder where
  graph : Graph BasicBlock
  current : NodeId
  last : Option Opcode := none
  jumpTargets : JumpTargets := {}

namespace Builder

/-- The current block has no opcode yet: there is no opcode at all, or the last one ended a
block. -/
def fresh (b : Builder) : Bool := b.last.all Opcode.isBlockEnd

/-- Ends the current block at an opcode index. -/
def extend (b : Builder) (stop : Int) : Builder :=
  { b with graph := b.graph.modifyLabel b.current fun x => { x with opcodes.stop := stop } }

/-- Starts a new block at an opcode index. -/
def opening (b : Builder) (start : Int) : Builder :=
  let (n, g) := b.graph.addNode (.startingAt start)
  { b with graph := g, current := n }

/-- Adds an edge. -/
def linking (b : Builder) (source target : NodeId) (branch : Branch) : Builder :=
  { b with graph := (b.graph.link source target branch).2 }

/-- Makes the current block the jump destination at an offset. -/
def destination (b : Builder) (offset : Nat) : Builder :=
  let b := b.linking Sentinels.initial.jumpTable b.current .dynamic
  { b with jumpTargets := b.jumpTargets.insert offset b.current }

/-- Puts the `i`-th opcode in its block. The current block grows over it, and gives it up again if
it is a destination behind other opcodes. -/
def place (b : Builder) (i : Nat) (x : Located) : Builder :=
  let grown := b.extend (i + 1)
  match x.instr.op with
  | .jumpdest =>
    if b.fresh then grown.destination x.offset
    else
      let next := ((grown.extend i).opening i).extend (i + 1)
      (next.linking b.current next.current .static).destination x.offset
  | .jump => (grown.linking b.current Sentinels.initial.jumpTable .dynamic).opening (i + 1)
  | .jumpi =>
    let next := (grown.linking b.current Sentinels.initial.jumpTable .dynamic).opening (i + 1)
    next.linking b.current next.current .static
  | op =>
    if op.isTerminator then
      (grown.linking b.current Sentinels.initial.terminator .static).opening (i + 1)
    else grown

/-- Takes in the `i`-th opcode. -/
def visit (b : Builder) (i : Nat) (x : Located) : Builder :=
  { b.place i x with last := some x.instr.op }

/-- Takes in opcodes, the first of which has index `i`. -/
def visitAll (b : Builder) : (i : Nat) → List Located → Builder
  | _, [] => b
  | i, x :: rest => (b.visit i x).visitAll (i + 1) rest

/-- The four sentinels and the first block, with the edges between them. -/
def initial : Builder :=
  let s := Sentinels.initial
  let empty := BasicBlock.startingAt 0
  let g := (List.replicate 5 empty).foldl (fun g b => (g.addNode b).2) ({} : Graph BasicBlock)
  let b : Builder := { graph := g, current := 4 }
  let b := b.linking s.start b.current .static
  let b := b.linking s.invalidJump s.terminator .static
  b.linking s.jumpTable s.invalidJump .dynamic

end Builder

namespace Program

/-- Splits code into blocks and links them; the blocks have no instructions yet. -/
def ofInstrs (instrs : List Instr) : Program :=
  let code := locate 0 instrs
  let b := Builder.initial.visitAll 0 code
  { code := code.toArray, graph := b.graph, sentinels := .initial, jumpTargets := b.jumpTargets }

/-- Fills a block with the flat lowering of its opcodes and records those that have none. -/
def lowerBlock (p : Program) (n : NodeId) : Except Fault Program := do
  let (gaps, s) := FlatStack.lowerAll p.symbols (.block n) (← p.opcodes n)
  let p := p.modifyBlock n fun b => { b with instructions := s.out.toList }
  return { p with
    symbols := s.symbols
    gaps := p.gaps ++ gaps.map fun i => ⟨i.offset, i.instr.op⟩ }

/-- The program of a code: its blocks, filled with their flat lowering. -/
def build (instrs : List Instr) : Except Fault Program :=
  let p := ofInstrs instrs
  p.blocks.foldlM lowerBlock p

end Program

end EvmFlow
