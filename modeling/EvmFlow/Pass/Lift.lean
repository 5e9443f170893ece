import EvmFlow.Lowering.Lifted
import EvmFlow.Pass
import EvmFlow.Pass.Reachable

/-!
# Lifting

Lifting replaces the code of a block, which works on the stack, by code on the values themselves.
Jumps whose target has become a constant are resolved, and the types of symbols are narrowed by how
the code uses them.

* `Program.liftBlock`, `Program.liftBlocks`: lifts the reachable blocks that are not lifted yet;
* `Program.constantJumps`, `Program.resolveJumps`: turns dynamic edges of jumps to constants into
  static ones;
* `SymbolTable.narrow`, `Program.narrowTypes`: type propagation;
* `Pass.lift`: the three in turn.
-/

namespace EvmFlow

namespace Program

/-! ## Blocks -/

/-- Lifts the block at a node and tells whether there was anything to lift: the block is no sentinel
and not lifted yet. -/
def liftBlock (p : Program) (n : NodeId) : Except Fault (Bool × Program) := do
  let b ← p.block n
  if p.isSentinel n || b.lifted then return (false, p)
  let s ← LiftedStack.liftAll p.symbols n (← p.opcodes n)
  let stackInfo ← s.summary
  let p := { p with symbols := s.symbols }
  return (true, p.modifyBlock n fun b =>
    { b with instructions := s.out.toList, stackInfo, lifted := true })

/-- Lifts the blocks at the given nodes and returns the nodes at which it did. -/
def liftAt (p : Program) : List NodeId → Except Fault (List NodeId × Program)
  | [] => .ok ([], p)
  | n :: rest => do
    let (changed, p) ← p.liftBlock n
    let (lifted, p) ← p.liftAt rest
    return (if changed then n :: lifted else lifted, p)

/-- Lifts the reachable blocks that are not lifted yet, and returns their nodes. -/
def liftBlocks (p : Program) : Except Fault (List NodeId × Program) := do
  p.liftAt (← p.reachable)

/-! ## Jumps -/

/-- The node that a jump to the word `w` leads to. A word is an offset if it fits in 64 bits, which
are read as a signed number. -/
def jumpTo (p : Program) (w : Word) : NodeId :=
  let invalid := p.sentinels.invalidJump
  if w.toNat < Signed64.modulus then p.jumpTargets.getD (w.setWidth 64).toInt invalid else invalid

/-- The word that the code of a block jumps to at its end, if that is a constant. -/
def constantTarget? (p : Program) (b : BasicBlock) : Except Fault (Option Word) :=
  match b.instructions.getLast?.bind Instruction.branchTarget? with
  | some target => return (← p.symbols.symbol target).value?
  | none => .ok none

/-- The dynamic edges from a node to the jump table. -/
def tableEdges (p : Program) (n : NodeId) : Except Fault (List EdgeId) :=
  return (← p.graph.outgoing n).filter fun e =>
    (p.graph.edge? e).any fun x => x.branch == .dynamic && x.target == p.sentinels.jumpTable

/-- The edges that the jump of a block takes through the jump table although its target is a
constant, each with the node the jump leads to. -/
def constantJumps (p : Program) (n : NodeId) :
    Except Fault (List (EdgeId × NodeId × NodeId)) := do
  if p.isSentinel n then return []
  match ← p.constantTarget? (← p.block n) with
  | some w => return (← p.tableEdges n).map fun e => (e, n, p.jumpTo w)
  | none => return []

/-- Replaces an edge through the jump table by a static edge. -/
def resolveJump (g : Graph BasicBlock) : EdgeId × NodeId × NodeId → Except Fault (Graph BasicBlock)
  | (e, source, target) => do
    let (_, g) ← (Graph.removeEdge e).apply g
    let (_, g) ← (Graph.addEdge source target .static).apply g
    return g

/-- Resolves the jumps of reachable blocks to constants and returns their number. -/
def resolveJumps (p : Program) : Except Fault (Nat × Program) := do
  let jumps ← (← p.reachable).mapM p.constantJumps
  let graph ← jumps.flatten.foldlM resolveJump p.graph
  return (jumps.flatten.length, { p with graph })

end Program

/-! ## Types -/

namespace SymbolTable

/-- Changes the type of a symbol, unless it is a constant or a global. -/
def retype (t : SymbolTable) (ref : SymbolRef) (type : TypeHint) : Except Fault SymbolTable := do
  let s ← t.symbol ref
  if s.isConstant || s.isGlobal then return t
  else return (← (SymbolTable.replaceType ref type).apply t).2

/-- Gives a symbol the type of another one. -/
def retypeLike (t : SymbolTable) (ref model : SymbolRef) : Except Fault SymbolTable := do
  t.retype ref (← t.symbol model).type

/-- What an instruction tells about the types of its symbols: conditions and comparisons are truth
values, targets and indices are pointers, the operands of another binary operator have the type of
its result, and a copy and the result of another unary operator have the type of the source. -/
def narrow (t : SymbolTable) : Instruction → Except Fault SymbolTable
  | .condBranch condition target => do (← t.retype condition .bool).retype target .pointer
  | .branch target => t.retype target .pointer
  | .binary x op y z =>
    if op.isComparison then t.retype x .bool
    else do (← t.retypeLike y x).retypeLike z x
  | .unary x op y => if op.isComparison then t.retype x .bool else t.retypeLike x y
  | .copy x y => t.retypeLike x y
  | .indexedCopy _ _ index => t.retype index .pointer
  | .indexedAssign _ index _ => t.retype index .pointer
  | .nop | .procedure _ _ | .function _ _ _ => .ok t

end SymbolTable

namespace Program

/-- Narrows the types of the symbols in the block at a node. -/
def narrowBlock (p : Program) (n : NodeId) : Except Fault Program := do
  return { p with symbols := ← (← p.block n).instructions.foldlM SymbolTable.narrow p.symbols }

/-- Narrows the types of the symbols in those of the given blocks that are reachable. -/
def narrowTypes (p : Program) (nodes : List NodeId) : Except Fault Program := do
  let chosen : NodeSet := .ofList nodes
  ((← p.reachable).filter chosen.contains).foldlM narrowBlock p

/-! ## The pass -/

/-- Lifts blocks, resolves jumps to constants and narrows the types in the blocks just lifted; the
changes are the numbers of lifted blocks and resolved jumps. -/
def lift (p : Program) : Except Fault (Int × Program) := do
  let (lifted, p) ← p.liftBlocks
  let (jumps, p) ← p.resolveJumps
  let p ← p.narrowTypes lifted
  return (lifted.length + jumps, p)

end Program

/-- Replaces code on the stack by code on values. -/
def Pass.lift : Pass := .ofFaulty "lift" Program.lift

end EvmFlow
