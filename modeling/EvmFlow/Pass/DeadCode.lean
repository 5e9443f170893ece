import EvmFlow.Pass
import EvmFlow.Pass.Reachable

/-!
# Dead code

An instruction is dead if it only computes a temporary that nobody reads. Removing it can make the
definitions of its operands dead, so the blocks are swept until a sweep removes nothing. Values that
a block leaves on the stack count as read.

* `Demand`: how often each symbol is read;
* `Program.isDead`: whether an instruction can go;
* `sweepInstructions`, `sweepBlocks`, `sweeps`: one sweep over a block, over all blocks, and all
  sweeps;
* `Program.removeDead`: removes the dead instructions;
* `Pass.deadCode`: removes unreachable blocks, then dead instructions.
-/

namespace EvmFlow

/-- How often each symbol is read. -/
abbrev Demand := Std.TreeMap SymbolRef Nat

namespace Demand

/-- The number of reads of a symbol. -/
def of (d : Demand) (ref : SymbolRef) : Nat := d.getD ref 0

/-- One more read of each symbol. -/
def raise (d : Demand) (refs : List SymbolRef) : Demand :=
  refs.foldl (fun d ref => d.insert ref (d.of ref + 1)) d

/-- One read of each symbol less. -/
def release (d : Demand) (refs : List SymbolRef) : Demand :=
  refs.foldl (fun d ref => d.insert ref (d.of ref - 1)) d

/-- The reads by the code of a block, and by what follows it on the stack. -/
def addBlock (d : Demand) (b : BasicBlock) : Demand :=
  (b.instructions.foldl (fun d i => d.raise i.uses) d).raise b.stackInfo.generates

end Demand

/-- Whether an instruction only computes a temporary that nobody reads. The symbol is looked up only
if nobody reads it. -/
def isDead (t : SymbolTable) (d : Demand) (i : Instruction) : Except Fault Bool :=
  match i.definition? with
  | none => .ok false
  | some x =>
    if 0 < d.of x then .ok false
    else return (← t.symbol x).isTemporary && i.isPure

/-- Sweeps the code of a block from front to back: the instructions that stay, and what is read
afterwards. -/
def sweepInstructions (t : SymbolTable) :
    (d : Demand) → List Instruction → Except Fault (List Instruction × Demand)
  | d, [] => .ok ([], d)
  | d, i :: rest => do
    if ← isDead t d i then
      sweepInstructions t (d.release i.uses) rest
    else
      let (kept, d) ← sweepInstructions t d rest
      return (i :: kept, d)

/-- The state between sweeps. -/
structure Sweep where
  program : Program
  demand : Demand
  removed : Nat := 0

/-- Sweeps the block at a node. -/
def Sweep.block (s : Sweep) (n : NodeId) : Except Fault Sweep := do
  let b ← s.program.block n
  let (kept, demand) ← sweepInstructions s.program.symbols s.demand b.instructions
  return {
    program := s.program.modifyBlock n fun b => { b with instructions := kept }
    demand
    removed := s.removed + (b.instructions.length - kept.length) }

/-- Sweeps over the given blocks until a sweep removes nothing, but at most `sweeps` times. -/
def Sweep.repeat (blocks : List NodeId) : (sweeps : Nat) → Sweep → Except Fault Sweep
  | 0, s => .ok s
  | sweeps + 1, s => do
    let next ← blocks.foldlM Sweep.block s
    if next.removed = s.removed then return next else Sweep.repeat blocks sweeps next

namespace Program

/-- The blocks at the given nodes. -/
def blocksAt (p : Program) (nodes : List NodeId) : List BasicBlock :=
  nodes.filterMap fun n => (p.graph.node? n).map (·.label)

/-- Removes the dead instructions and returns their number. Every sweep but the last removes an
instruction, so that one more sweep than there are instructions is enough. -/
def removeDead (p : Program) : Except Fault (Nat × Program) := do
  let bodies := p.blocksAt p.blocks
  let demand := bodies.foldl Demand.addBlock {}
  let total := bodies.foldl (fun n b => n + b.instructions.length) 0
  let s ← Sweep.repeat p.blocks (total + 1) { program := p, demand }
  return (s.removed, s.program)

/-- Removes unreachable blocks, then dead instructions; the changes are their numbers. -/
def eliminateDeadCode (p : Program) : Except Fault (Int × Program) := do
  let (blocks, p) ← p.removeUnreachable
  let (instructions, p) ← p.removeDead
  return (blocks.length + instructions, p)

end Program

/-- Removes what cannot be reached and what nobody reads. -/
def Pass.deadCode : Pass := .ofFaulty "dce" Program.eliminateDeadCode

end EvmFlow
