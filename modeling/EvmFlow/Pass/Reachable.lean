import EvmFlow.Graph.Search
import EvmFlow.Program

/-!
# Unreachable blocks

* `Program.reachable`: the nodes that control can reach, in depth-first preorder;
* `Program.removeUnreachable`: removes the blocks among the others, and the jump targets that lead
  to them. The synthetic nodes stay.
-/

namespace EvmFlow.Program

/-- The nodes reachable from the start node, in depth-first preorder. -/
def reachable (p : Program) : Except Fault (List NodeId) := p.graph.dfs p.sentinels.start

/-- Removes the blocks that the start node cannot reach and returns them. When there are any, the
jump targets at removed nodes are forgotten. -/
def removeUnreachable (p : Program) : Except Fault (List NodeId × Program) := do
  let live : NodeSet := .ofList (← p.reachable)
  let keep (n : NodeId) : Bool := p.isSentinel n || live.contains n
  let (removed, graph) ← (Graph.retainNodes keep).apply p.graph
  let jumpTargets :=
    if removed.isEmpty then p.jumpTargets
    else p.jumpTargets.filter fun _ n => graph.contains n
  return (removed, { p with graph, jumpTargets })

end EvmFlow.Program
