import EvmFlow.Change

/-!
# Multigraphs with stable handles

A directed graph whose nodes carry labels and whose edges carry a branch tag. Parallel edges and
loops are allowed. Removing a node or an edge leaves a hole, so that the handles of the others stay
valid and no handle is ever given out twice.

* `Graph`, `Graph.Node`, `Graph.Edge`: nodes and edges in the order of their handles, with the
  numbers of the live ones;
* `Graph.node?`, `Graph.edge?`: look-up, and `Graph.node`, `Graph.edge` with the fault of a stale
  handle;
* `Graph.addNode`, `Graph.addEdge`, `Graph.removeEdge`, `Graph.removeNode`, `Graph.retainNodes`:
  changes;
* `Graph.outgoing`, `Graph.incoming`, `Graph.successors`, `Graph.findEdges`: neighbourhoods, in the
  order in which the edges were added;
* `Graph.nodeIds`, `Graph.edgeIds`: the live handles in ascending order.

What a change writes once it has checked its handles is a total function (`link`, `unlink`,
`vacate`).
-/

namespace EvmFlow

/-- How control reaches the target of an edge: known in advance, or decided by a value at
run time. -/
inductive Branch where
  | static
  | dynamic
deriving DecidableEq, Repr

/-- The name of a branch tag. -/
def Branch.render : Branch → String
  | static => "Static"
  | dynamic => "Dynamic"

/-- A directed edge. -/
structure Graph.Edge where
  source : NodeId
  target : NodeId
  branch : Branch
deriving DecidableEq, Repr

/-- A node: its label and the edges that leave and enter it, the latest first. -/
structure Graph.Node (β : Type) where
  label : β
  leaving : List EdgeId := []
  entering : List EdgeId := []
deriving DecidableEq

/-- The edges that leave a node, in the order in which they were added. -/
def Graph.Node.outgoing {β : Type} (v : Graph.Node β) : List EdgeId := v.leaving.reverse

/-- The edges that enter a node, in the order in which they were added. -/
def Graph.Node.incoming {β : Type} (v : Graph.Node β) : List EdgeId := v.entering.reverse

/-- A directed multigraph; a hole marks a removed node or edge. The live nodes and edges are counted
as they come and go. -/
structure Graph (β : Type) where
  nodes : Array (Option (Graph.Node β)) := #[]
  edges : Array (Option Graph.Edge) := #[]
  nodeCount : Nat := 0
  edgeCount : Nat := 0
deriving DecidableEq

namespace Graph

variable {β : Type}

/-! ## Look-up -/

/-- The live node at a handle. -/
def node? (g : Graph β) (n : NodeId) : Option (Node β) :=
  n.toNat?.bind fun i => g.nodes[i]?.join

/-- The live edge at a handle. -/
def edge? (g : Graph β) (e : EdgeId) : Option Edge :=
  e.toNat?.bind fun i => g.edges[i]?.join

/-- Whether a node is live. -/
def contains (g : Graph β) (n : NodeId) : Bool := (g.node? n).isSome

/-- The live node at a handle; a stale handle is a fault. -/
def node (g : Graph β) (n : NodeId) : Except Fault (Node β) :=
  match g.node? n with
  | some v => .ok v
  | none => .error (.staleNode n)

/-- The live edge at a handle; a stale handle is a fault. -/
def edge (g : Graph β) (e : EdgeId) : Except Fault Edge :=
  match g.edge? e with
  | some x => .ok x
  | none => .error (.staleEdge e)

/-- The label of a node. -/
def label (g : Graph β) (n : NodeId) : Except Fault β := return (← g.node n).label

/-- The live nodes in ascending order. -/
def nodeIds (g : Graph β) : List NodeId :=
  ((List.range g.nodes.size).map Int.ofNat).filter g.contains

/-- The live edges in ascending order. -/
def edgeIds (g : Graph β) : List EdgeId :=
  ((List.range g.edges.size).map Int.ofNat).filter fun e => (g.edge? e).isSome

/-! ## Neighbourhoods -/

/-- The edges that leave a node, in the order in which they were added. -/
def outgoing (g : Graph β) (n : NodeId) : Except Fault (List EdgeId) := return (← g.node n).outgoing

/-- The edges that enter a node, in the order in which they were added. -/
def incoming (g : Graph β) (n : NodeId) : Except Fault (List EdgeId) := return (← g.node n).incoming

/-- The targets of the edges that leave a node, one for each edge; none for a stale handle. -/
def targets (g : Graph β) (n : NodeId) : List NodeId :=
  match g.node? n with
  | some v => v.outgoing.filterMap fun e => (g.edge? e).map Edge.target
  | none => []

/-- The targets of the edges that leave a node, one for each edge. -/
def successors (g : Graph β) (n : NodeId) : Except Fault (List NodeId) := do
  let _ ← g.node n
  return g.targets n

/-- The edges from `source` to `target`. -/
def findEdges (g : Graph β) (source target : NodeId) : Except Fault (List EdgeId) := do
  let v ← g.node source
  return v.outgoing.filter fun e => (g.edge? e).any (·.target == target)

/-! ## Changes -/

/-- Applies `f` to a node, if it is live. -/
def modifyNode (g : Graph β) (n : NodeId) (f : Node β → Node β) : Graph β :=
  match n.toNat? with
  | some i => { g with nodes := g.nodes.modify i (Option.map f) }
  | none => g

/-- Replaces the label of a node, if it is live. -/
def modifyLabel (g : Graph β) (n : NodeId) (f : β → β) : Graph β :=
  g.modifyNode n fun v => { v with label := f v.label }

/-- Adds a node; its handle is the next unused one. -/
def addNode (g : Graph β) (label : β) : NodeId × Graph β :=
  (g.nodes.size, { g with
    nodes := g.nodes.push (some { label })
    nodeCount := g.nodeCount + 1 })

/-- Adds an edge between two nodes taken to be live; its handle is the next unused one. -/
def link (g : Graph β) (source target : NodeId) (branch : Branch) : EdgeId × Graph β :=
  let e : EdgeId := g.edges.size
  let g := { g with
    edges := g.edges.push (some ⟨source, target, branch⟩)
    edgeCount := g.edgeCount + 1 }
  let g := g.modifyNode source fun v => { v with leaving := e :: v.leaving }
  (e, g.modifyNode target fun v => { v with entering := e :: v.entering })

/-- Removes an edge, if it is live. -/
def unlink (g : Graph β) (e : EdgeId) : Graph β :=
  match e.toNat?, g.edge? e with
  | some i, some x =>
    let g := g.modifyNode x.source fun v => { v with leaving := v.leaving.erase e }
    let g := g.modifyNode x.target fun v => { v with entering := v.entering.erase e }
    { g with edges := g.edges.setIfInBounds i none, edgeCount := g.edgeCount - 1 }
  | _, _ => g

/-- Removes a node taken to be live and to have no edges left. -/
def vacate (g : Graph β) (n : NodeId) : Graph β :=
  match n.toNat? with
  | some i => { g with nodes := g.nodes.setIfInBounds i none, nodeCount := g.nodeCount - 1 }
  | none => g

/-- Adds an edge; both ends must be live. -/
def addEdge (source target : NodeId) (branch : Branch) : Change (Graph β) EdgeId := do
  let _ ← Change.look (·.node source)
  let _ ← Change.look (·.node target)
  modifyGet (·.link source target branch)

/-- Removes an edge. -/
def removeEdge (e : EdgeId) : Change (Graph β) Unit := do
  let _ ← Change.look (·.edge e)
  modify (·.unlink e)

/-- Removes the edges of a list in turn, where one that is gone already is passed over. -/
def removeEdges : List EdgeId → Change (Graph β) Unit
  | [] => return
  | e :: es => do
    if ((← get).edge? e).isSome then removeEdge e
    removeEdges es

/-- Removes a node and every edge at it, and returns its label. -/
def removeNode (n : NodeId) : Change (Graph β) β := do
  let v ← Change.look (·.node n)
  -- A loop is on both lists, and gone when it comes up again.
  removeEdges (v.outgoing ++ v.incoming)
  modify (·.vacate n)
  return v.label

/-- Removes the nodes of a list that `keep` refuses, in turn, and returns them. -/
def removeRefused (keep : NodeId → Bool) : List NodeId → Change (Graph β) (List NodeId)
  | [] => return []
  | n :: ns => do
    if keep n then removeRefused keep ns
    else
      let _ ← removeNode n
      return n :: (← removeRefused keep ns)

/-- Removes the live nodes that `keep` refuses and every edge at them, and returns the nodes in
ascending order. -/
def retainNodes (keep : NodeId → Bool) : Change (Graph β) (List NodeId) := do
  removeRefused keep (← get).nodeIds

end Graph

end EvmFlow
