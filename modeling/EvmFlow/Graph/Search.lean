import EvmFlow.Graph
import Std.Data.TreeSet.Basic

/-!
# Depth-first search

* `NodeSet`: sets of nodes;
* `Graph.preorder`: the search itself, on a worklist whose first entry is visited next;
* `Graph.dfs`: the nodes reachable from a live node, in the order of their first visit.

A node that was visited is dropped when it comes to the front of the worklist. Each visit is of a
new node, so the number of nodes bounds the number of visits.
-/

namespace EvmFlow

/-- A set of nodes. -/
abbrev NodeSet := Std.TreeSet NodeId

namespace Graph

variable {β : Type}

/-- Visits the first unvisited node of the worklist, puts its successors in front, in the order of
their edges, and goes on for at most `visits` visits. -/
def preorder (g : Graph β) :
    (visits : Nat) → (seen : NodeSet) → (worklist : List NodeId) → List NodeId
  | 0, _, _ => []
  | visits + 1, seen, worklist =>
    match worklist.dropWhile seen.contains with
    | [] => []
    | n :: rest => n :: g.preorder visits (seen.insert n) (g.targets n ++ rest)

/-- The nodes reachable from `start` in depth-first preorder; successors are explored in the order
in which their edges were added. -/
def dfs (g : Graph β) (start : NodeId) : Except Fault (List NodeId) := do
  let _ ← g.node start
  return g.preorder g.nodes.size {} [start]

end Graph

end EvmFlow
