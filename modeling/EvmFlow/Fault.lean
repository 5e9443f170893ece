import EvmFlow.Span
import EvmFlow.Text.Hex

/-!
# Handles and faults

Nodes, edges and symbols are known by integer handles. A handle may be stale or may never have been
given out, so every look-up can fail; a program can also be inconsistent as a whole. Each way to
fail is a `Fault`.

* `NodeId`, `EdgeId`, `SymbolRef`: handles;
* `Fault`: the structural errors of the library;
* `Fault.message`: their wording.
-/

namespace EvmFlow

/-- A handle of a graph node. -/
abbrev NodeId := Int

/-- A handle of a graph edge. -/
abbrev EdgeId := Int

/-- A handle of a symbol. -/
abbrev SymbolRef := Int

/-- A structural error. -/
inductive Fault where
  /-- The node was removed or never existed. -/
  | staleNode (n : NodeId)
  /-- The edge was removed or never existed. -/
  | staleEdge (e : EdgeId)
  /-- The symbol does not exist. -/
  | unknownSymbol (ref : SymbolRef)
  /-- The opcode span of a block does not lie in the code. -/
  | malformedSpan (span : Span) (n : NodeId)
  /-- A synthetic node is gone. -/
  | missingSentinel (n : NodeId)
  /-- A jump target leads to a node that is gone. -/
  | deadJumpTarget (offset : Int) (n : NodeId)
  /-- While a block is lifted, what it takes and leaves on the stack does not add up. -/
  | unbalancedStack (n : NodeId) (arguments : Int) (height : Int32) (generated : Nat)
  /-- The recorded stack summary of a block does not add up. -/
  | unbalancedSummary (n : NodeId) (arguments : Int) (height : Int32) (generated : Nat)
  /-- An opcode index below zero. -/
  | negativeIndex (i : Int)
deriving DecidableEq

/-- The wording of a fault. -/
def Fault.message : Fault → String
  | staleNode n => s!"stale node index {n}"
  | staleEdge e => s!"stale edge index {e}"
  | unknownSymbol ref => s!"unknown symbol reference {ref}"
  | malformedSpan span n => s!"malformed opcode range {span.render} of node {n}"
  | missingSentinel n => s!"sentinel node {n} missing"
  | deadJumpTarget offset n =>
    "jump target 0x" ++ Hex.signed offset ++ s!" points at removed node {n}"
  | unbalancedStack n arguments height generated =>
    s!"block {n}: {arguments} arguments and height {height.toInt} do not add up to " ++
      s!"{generated} generated values"
  | unbalancedSummary n arguments height generated =>
    s!"node {n}: stack info {arguments} arguments, height {height.toInt}, {generated} generated"
  | negativeIndex i => s!"runtime error: index out of range [{i}]"

end EvmFlow
