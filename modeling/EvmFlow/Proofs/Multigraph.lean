import EvmFlow.Proofs.Calls
import EvmFlow.Proofs.Incidence
import Mathlib.Data.List.Sort

/-!
# Graphs as finite maps

A graph stores, at each node, the edges that leave and enter it, and marks what was removed by a
hole. Seen from outside it is simpler: a finite map from handles to labels, one from handles to
edges, and the handles to be given out next. The calls of a graph are those of this view, whatever
handles they are given.

* `Multigraph`: the view, with the calls of a graph as changes of its two maps;
* `Multigraph.Valid`: the maps are listed in ascending order, hold only handles that were given out,
  and both ends of every edge are live;
* `Graph.Call`, `Graph.Answer`: the calls and their answers;
* `Graph.perform`, `Multigraph.perform`: one call of a graph, which leaves the graph as it is when
  the call stops, and of a view, where a call at fault changes nothing;
* `Graph.perform_of_fault`: a call of a graph that fails has not changed it;
* `Graph.Ordered`: nodes list their edges latest first;
* `Graph.Represents`: a graph stores the maps of a view, with the step lemma
  `Graph.Represents.perform`;
* `Graph.Shows`: each look-up of a graph answers as that of its view;
* **`Graph.run_refines_multigraph`**: from the empty graph, every sequence of calls gets the answers
  of the view and ends in a graph that shows it, and handles are given out one after the other.
-/

namespace EvmFlow

/-! ## The view of a graph -/

/-- Labels and edges by their handles, in ascending order, and the handles to be given out next. -/
structure Multigraph (β : Type) where
  nodes : List (NodeId × β) := []
  edges : List (EdgeId × Graph.Edge) := []
  nextNode : Nat := 0
  nextEdge : Nat := 0

namespace Multigraph

variable {β : Type} (M : Multigraph β)

/-- The live nodes. -/
def nodeIds : List NodeId := M.nodes.map Prod.fst

/-- The live edges. -/
def edgeIds : List EdgeId := M.edges.map Prod.fst

/-- The label of a node. -/
def label (n : NodeId) : Except Fault β :=
  match M.nodes.lookup n with
  | some b => .ok b
  | none => .error (.staleNode n)

/-- The ends and the branch tag of an edge. -/
def edge (e : EdgeId) : Except Fault Graph.Edge :=
  match M.edges.lookup e with
  | some x => .ok x
  | none => .error (.staleEdge e)

/-- The edges that leave a node. -/
def outgoing (n : NodeId) : Except Fault (List EdgeId) := do
  let _ ← M.label n
  return (M.edges.filter fun p => p.2.source = n).map Prod.fst

/-- The edges that enter a node. -/
def incoming (n : NodeId) : Except Fault (List EdgeId) := do
  let _ ← M.label n
  return (M.edges.filter fun p => p.2.target = n).map Prod.fst

/-- Adds a node. -/
def addNode (b : β) : NodeId × Multigraph β :=
  (M.nextNode, { M with nodes := M.nodes ++ [((M.nextNode : NodeId), b)]
                        nextNode := M.nextNode + 1 })

/-- Adds an edge between two nodes taken to be live. -/
def link (source target : NodeId) (branch : Branch) : EdgeId × Multigraph β :=
  (M.nextEdge, { M with edges := M.edges ++ [((M.nextEdge : EdgeId), ⟨source, target, branch⟩)]
                        nextEdge := M.nextEdge + 1 })

/-- Adds an edge; both ends must be live. -/
def addEdge (source target : NodeId) (branch : Branch) : Except Fault (EdgeId × Multigraph β) := do
  let _ ← M.label source
  let _ ← M.label target
  return M.link source target branch

/-- The nodes that `keep` accepts and the edges between them. -/
def restrict (keep : NodeId → Bool) : Multigraph β :=
  { M with
    nodes := M.nodes.filter fun p => keep p.1
    edges := M.edges.filter fun p => keep p.2.source && keep p.2.target }

/-- Removes an edge. -/
def removeEdge (e : EdgeId) : Except Fault (Multigraph β) := do
  let _ ← M.edge e
  return { M with edges := M.edges.filter fun p => p.1 != e }

/-- Removes a node and the edges at it, and returns its label. -/
def removeNode (n : NodeId) : Except Fault (β × Multigraph β) := do
  let b ← M.label n
  return (b, M.restrict (· != n))

/-- Removes the nodes that `keep` refuses and the edges at them, and returns the nodes. -/
def retain (keep : NodeId → Bool) : List NodeId × Multigraph β :=
  (M.nodeIds.filter fun n => !keep n, M.restrict keep)

/-- Handles ascend and were given out, and both ends of every edge are live. -/
structure Valid : Prop where
  nodes : M.nodeIds.Pairwise (· < ·)
  edges : M.edgeIds.Pairwise (· < ·)
  issuedNode : ∀ n ∈ M.nodeIds, ∃ i < M.nextNode, n = Int.ofNat i
  issuedEdge : ∀ e ∈ M.edgeIds, ∃ i < M.nextEdge, e = Int.ofNat i
  ends : ∀ e x, (e, x) ∈ M.edges → x.source ∈ M.nodeIds ∧ x.target ∈ M.nodeIds

end Multigraph

/-! ## Calls -/

namespace Graph

/-- The calls that change a graph. -/
inductive Call (β : Type) where
  | addNode (b : β)
  | addEdge (source target : NodeId) (branch : Branch)
  | removeEdge (e : EdgeId)
  | removeNode (n : NodeId)
  | retain (keep : NodeId → Bool)

/-- What a call answers: the handle given out, the label of the node removed, the nodes removed, or
why it failed. -/
inductive Answer (β : Type) where
  | node (n : NodeId)
  | edge (e : EdgeId)
  | unlinked
  | removed (b : β)
  | dropped (ns : List NodeId)
  | fault (f : Fault)
deriving DecidableEq

/-- The node handle that a call has given out. -/
def Answer.node? {β : Type} : Answer β → Option NodeId
  | .node n => some n
  | _ => none

/-- The edge handle that a call has given out. -/
def Answer.edge? {β : Type} : Answer β → Option EdgeId
  | .edge e => some e
  | _ => none

variable {β : Type}

/-- A call as a change of the graph. -/
def Call.change : Call β → Change (Graph β) (Answer β)
  | .addNode b => return .node (← modifyGet (·.addNode b))
  | .addEdge source target branch => return .edge (← Graph.addEdge source target branch)
  | .removeEdge e => do
    Graph.removeEdge e
    return .unlinked
  | .removeNode n => return .removed (← Graph.removeNode n)
  | .retain keep => return .dropped (← retainNodes keep)

/-- One call: its answer and the graph that it leaves, be it finished or stopped by a fault. -/
def perform (g : Graph β) (c : Call β) : Answer β × Graph β :=
  match c.change.outcome g with
  | (.ok a, g) => (a, g)
  | (.error f, g) => (.fault f, g)

end Graph

namespace Multigraph

variable {β : Type}

/-- One call of a view: its answer and the changed view, or a fault. -/
def call (M : Multigraph β) : Graph.Call β → Except Fault (Graph.Answer β × Multigraph β)
  | .addNode b => .ok (.node (M.addNode b).1, (M.addNode b).2)
  | .addEdge source target branch => do
    let (e, M) ← M.addEdge source target branch
    return (.edge e, M)
  | .removeEdge e => return (.unlinked, ← M.removeEdge e)
  | .removeNode n => do
    let (b, M) ← M.removeNode n
    return (.removed b, M)
  | .retain keep => .ok (.dropped (M.retain keep).1, (M.retain keep).2)

/-- One call of a view, where a fault changes nothing. -/
def perform (M : Multigraph β) (c : Graph.Call β) : Graph.Answer β × Multigraph β :=
  match M.call c with
  | .ok r => r
  | .error f => (.fault f, M)

/-! ## Views stay valid -/

variable {M : Multigraph β}

/-- In a list by ascending keys, look-up finds what is listed. -/
theorem lookup_eq_some {α : Type} {entries : List (Int × α)}
    (h : (entries.map Prod.fst).Pairwise (· < ·)) {k : Int} {a : α} :
    entries.lookup k = some a ↔ (k, a) ∈ entries := by
  induction entries with
  | nil => simp
  | cons p entries ih =>
    obtain ⟨j, b⟩ := p
    rw [List.map_cons, List.pairwise_cons] at h
    by_cases hk : k = j
    · subst hk
      have hnew : (k, a) ∉ entries := fun hmem =>
        absurd (h.1 k (List.mem_map.mpr ⟨_, hmem, rfl⟩)) (Int.lt_irrefl k)
      simp [hnew, eq_comm]
    · rw [List.lookup_cons, beq_eq_false_iff_ne.mpr hk, List.mem_cons, Prod.mk.injEq]
      simp only [hk, false_and, false_or]
      exact ih h.2

theorem mem_nodeIds {n : NodeId} : n ∈ M.nodeIds ↔ ∃ b, (n, b) ∈ M.nodes := by
  simp [nodeIds]

theorem mem_edgeIds {e : EdgeId} : e ∈ M.edgeIds ↔ ∃ x, (e, x) ∈ M.edges := by
  simp [edgeIds]

/-- The next handle comes after all that were given out. -/
theorem ascending_concat {ids : List Int} {k : Nat} (h : ids.Pairwise (· < ·))
    (hissued : ∀ n ∈ ids, ∃ i < k, n = Int.ofNat i) :
    (ids ++ [Int.ofNat k]).Pairwise (· < ·) ∧
      ∀ n ∈ ids ++ [Int.ofNat k], ∃ i < k + 1, n = Int.ofNat i := by
  constructor
  · refine List.pairwise_append.mpr ⟨h, List.pairwise_singleton _ _, fun n hn m hm => ?_⟩
    obtain ⟨i, hi, rfl⟩ := hissued n hn
    rw [List.mem_singleton.mp hm]
    exact Int.ofNat_lt.mpr hi
  · intro n hn
    rw [List.mem_append, List.mem_singleton] at hn
    rcases hn with hn | rfl
    · obtain ⟨i, hi, rfl⟩ := hissued n hn
      exact ⟨i, Nat.lt_succ_of_lt hi, rfl⟩
    · exact ⟨k, Nat.lt_succ_self k, rfl⟩

theorem valid_empty : ({} : Multigraph β).Valid :=
  ⟨.nil, .nil, fun _ h => absurd h List.not_mem_nil, fun _ h => absurd h List.not_mem_nil,
    fun _ _ h => absurd h List.not_mem_nil⟩

namespace Valid

theorem label_eq_ok (h : M.Valid) {n : NodeId} {b : β} :
    M.label n = .ok b ↔ (n, b) ∈ M.nodes := by
  rw [← lookup_eq_some h.nodes, label]
  cases M.nodes.lookup n <;> simp

theorem edge_eq_ok (h : M.Valid) {e : EdgeId} {x : Graph.Edge} :
    M.edge e = .ok x ↔ (e, x) ∈ M.edges := by
  rw [← lookup_eq_some h.edges, edge]
  cases M.edges.lookup e <;> simp

theorem addNode (h : M.Valid) (b : β) : (M.addNode b).2.Valid := by
  have hids : (M.addNode b).2.nodeIds = M.nodeIds ++ [Int.ofNat M.nextNode] := List.map_append
  obtain ⟨hnodes, hissued⟩ := ascending_concat h.nodes h.issuedNode
  rw [← hids] at hnodes hissued
  refine ⟨hnodes, h.edges, hissued, h.issuedEdge, fun e x hx => ?_⟩
  rw [hids]
  exact ⟨List.mem_append_left _ (h.ends e x hx).1, List.mem_append_left _ (h.ends e x hx).2⟩

theorem link (h : M.Valid) {source target : NodeId} (hs : source ∈ M.nodeIds)
    (ht : target ∈ M.nodeIds) (branch : Branch) : (M.link source target branch).2.Valid := by
  have hids : (M.link source target branch).2.edgeIds = M.edgeIds ++ [Int.ofNat M.nextEdge] :=
    List.map_append
  obtain ⟨hedges, hissued⟩ := ascending_concat h.edges h.issuedEdge
  rw [← hids] at hedges hissued
  refine ⟨h.nodes, hedges, h.issuedNode, hissued, fun e x hx => ?_⟩
  rcases List.mem_append.mp hx with hx | hx
  · exact h.ends e x hx
  · obtain ⟨-, rfl⟩ := Prod.mk.inj (List.mem_singleton.mp hx)
    exact ⟨hs, ht⟩

theorem filter_edges (h : M.Valid) (stays : EdgeId × Graph.Edge → Bool) :
    ({ M with edges := M.edges.filter stays } : Multigraph β).Valid := by
  have hsub : ((M.edges.filter stays).map Prod.fst).Sublist M.edgeIds :=
    List.filter_sublist.map Prod.fst
  exact ⟨h.nodes, h.edges.sublist hsub, h.issuedNode, fun e he => h.issuedEdge e (hsub.subset he),
    fun e x hx => h.ends e x (List.mem_of_mem_filter hx)⟩

theorem restrict (h : M.Valid) (keep : NodeId → Bool) : (M.restrict keep).Valid := by
  have hedges := h.filter_edges fun p => keep p.2.source && keep p.2.target
  have hsub : (M.restrict keep).nodeIds.Sublist M.nodeIds := List.filter_sublist.map Prod.fst
  have hkept : ∀ n ∈ M.nodeIds, keep n = true → n ∈ (M.restrict keep).nodeIds := by
    intro n hn hk
    obtain ⟨b, hb⟩ := mem_nodeIds.mp hn
    exact mem_nodeIds.mpr ⟨b, List.mem_filter.mpr ⟨hb, hk⟩⟩
  refine ⟨h.nodes.sublist hsub, hedges.edges, fun n hn => h.issuedNode n (hsub.subset hn),
    hedges.issuedEdge, fun e x hx => ?_⟩
  obtain ⟨hmem, hk⟩ := List.mem_filter.mp hx
  rw [Bool.and_eq_true] at hk
  exact ⟨hkept _ (h.ends e x hmem).1 hk.1, hkept _ (h.ends e x hmem).2 hk.2⟩

end Valid

section Perform

variable {source target n : NodeId} {branch : Branch} {e : EdgeId} {b c : β} {f : Fault}

theorem perform_addEdge (hs : M.label source = .ok b) (ht : M.label target = .ok c) :
    M.perform (.addEdge source target branch) =
      (.edge (M.link source target branch).1, (M.link source target branch).2) := by
  simp only [perform, call, addEdge, hs, ht]
  rfl

theorem perform_addEdge_source (hs : M.label source = .error f) :
    M.perform (.addEdge source target branch) = (.fault f, M) := by
  simp only [perform, call, addEdge, hs]
  rfl

theorem perform_addEdge_target (hs : M.label source = .ok b) (ht : M.label target = .error f) :
    M.perform (.addEdge source target branch) = (.fault f, M) := by
  simp only [perform, call, addEdge, hs, ht]
  rfl

theorem perform_removeEdge {x : Graph.Edge} (hx : M.edge e = .ok x) :
    M.perform (.removeEdge e) =
      (.unlinked, { M with edges := M.edges.filter fun p => p.1 != e }) := by
  simp only [perform, call, removeEdge, hx]
  rfl

theorem perform_removeEdge_stale (hx : M.edge e = .error f) :
    M.perform (.removeEdge e) = (.fault f, M) := by
  simp only [perform, call, removeEdge, hx]
  rfl

theorem perform_removeNode (hn : M.label n = .ok b) :
    M.perform (.removeNode n) = (.removed b, M.restrict (· != n)) := by
  simp only [perform, call, removeNode, hn]
  rfl

theorem perform_removeNode_stale (hn : M.label n = .error f) :
    M.perform (.removeNode n) = (.fault f, M) := by
  simp only [perform, call, removeNode, hn]
  rfl

end Perform

end Multigraph

namespace Graph

variable {β : Type} {g : Graph β} {M : Multigraph β}

/-! ## Order of the listed edges -/

/-- Nodes list the edges at them latest first. -/
structure Ordered (g : Graph β) : Prop where
  leaving : ∀ n, (g.leaving n).Pairwise (· > ·)
  entering : ∀ n, (g.entering n).Pairwise (· > ·)

theorem edge?_lt_size {e : EdgeId} {x : Edge} (h : g.edge? e = some x) : e < g.edges.size := by
  obtain ⟨i, rfl, hi⟩ := exists_of_edge? h
  exact Int.ofNat_lt.mpr (Array.getElem?_eq_some_iff.mp hi).1

/-- The pairwise order of a list in front of which a larger handle is put. -/
theorem WellFormed.leaving_link_pairwise (h : g.WellFormed) {source target : NodeId}
    (hs : g.contains source = true) (branch : Branch) (n : NodeId)
    (ho : (g.leaving n).Pairwise (· > ·)) :
    ((g.link source target branch).2.leaving n).Pairwise (· > ·) := by
  rw [leaving_link g _ _ _ _ hs]
  split
  · refine List.pairwise_cons.mpr ⟨fun e he => ?_, ho⟩
    obtain ⟨x, hx, -⟩ := h.leaving he
    exact edge?_lt_size hx
  · exact ho

namespace Ordered

theorem of_sublist {g' : Graph β} (h : g.Ordered)
    (hleaving : ∀ n, (g'.leaving n).Sublist (g.leaving n))
    (hentering : ∀ n, (g'.reverse.leaving n).Sublist (g.reverse.leaving n)) : g'.Ordered := by
  refine ⟨fun n => (h.leaving n).sublist (hleaving n), fun n => ?_⟩
  have hsub := hentering n
  rw [leaving_reverse, leaving_reverse] at hsub
  exact (h.entering n).sublist hsub

theorem addNode (h : g.Ordered) (b : β) : (g.addNode b).2.Ordered := by
  refine h.of_sublist (fun n => ?_) fun n => ?_
  · rw [leaving_addNode]
  · rw [reverse_addNode, leaving_addNode]

theorem link (h : g.Ordered) (hg : g.Incident) {source target : NodeId}
    (hs : g.contains source = true) (ht : g.contains target = true) (branch : Branch) :
    (g.link source target branch).2.Ordered := by
  refine ⟨fun n => hg.forward.leaving_link_pairwise hs branch n (h.leaving n), fun n => ?_⟩
  rw [← leaving_reverse, reverse_link]
  rw [← contains_reverse] at ht
  refine hg.backward.leaving_link_pairwise ht branch n ?_
  rw [leaving_reverse]
  exact h.entering n

theorem unlink (h : g.Ordered) (e : EdgeId) : (g.unlink e).Ordered := by
  refine h.of_sublist (g.leaving_unlink_sublist e) fun n => ?_
  rw [reverse_unlink]
  exact g.reverse.leaving_unlink_sublist e n

theorem foldl_unlink (h : g.Ordered) (es : List EdgeId) : (es.foldl Graph.unlink g).Ordered := by
  induction es generalizing g with
  | nil => exact h
  | cons e es ih => exact ih (h.unlink e)

theorem vacate (h : g.Ordered) (n : NodeId) : (g.vacate n).Ordered := by
  have hsub : ∀ (k : Graph β) m, ((k.vacate n).leaving m).Sublist (k.leaving m) := by
    intro k m
    rw [leaving_vacate]
    split
    · exact List.nil_sublist _
    · exact List.Sublist.refl _
  refine h.of_sublist (hsub g) fun m => ?_
  rw [reverse_vacate]
  exact hsub g.reverse m

theorem discard (h : g.Ordered) (n : NodeId) : (g.discard n).Ordered := by
  unfold Graph.discard
  split
  · exact (h.foldl_unlink _).vacate n
  · exact h

theorem foldl_discard (h : g.Ordered) (ns : List NodeId) : (ns.foldl Graph.discard g).Ordered := by
  induction ns generalizing g with
  | nil => exact h
  | cons n ns ih => exact ih (h.discard n)

end Ordered

/-! ## Handles stay given out -/

theorem size_nodes_unlink (g : Graph β) (e : EdgeId) :
    (g.unlink e).nodes.size = g.nodes.size := by
  cases hx : g.edge? e with
  | none => rw [unlink_of_none g e hx]
  | some x =>
    obtain ⟨i, rfl, -⟩ := exists_of_edge? hx
    rw [unlink_of_some g hx]
    exact (size_modifyNode _ _ _).trans (size_modifyNode _ _ _)

theorem size_foldl_unlink (es : List EdgeId) :
    (es.foldl unlink g).nodes.size = g.nodes.size ∧
      (es.foldl unlink g).edges.size = g.edges.size := by
  induction es generalizing g with
  | nil => exact ⟨rfl, rfl⟩
  | cons e es ih =>
    rw [List.foldl_cons, ih.1, ih.2, size_nodes_unlink, size_edges_unlink]
    exact ⟨rfl, rfl⟩

theorem size_vacate (g : Graph β) (n : NodeId) :
    (g.vacate n).nodes.size = g.nodes.size ∧ (g.vacate n).edges.size = g.edges.size := by
  unfold vacate
  split
  · exact ⟨Array.size_setIfInBounds, rfl⟩
  · exact ⟨rfl, rfl⟩

theorem size_discard (g : Graph β) (n : NodeId) :
    (g.discard n).nodes.size = g.nodes.size ∧ (g.discard n).edges.size = g.edges.size := by
  unfold discard
  split
  · rw [(size_vacate _ _).1, (size_vacate _ _).2]
    exact size_foldl_unlink _
  · exact ⟨rfl, rfl⟩

theorem size_foldl_discard (ns : List NodeId) :
    (ns.foldl discard g).nodes.size = g.nodes.size ∧
      (ns.foldl discard g).edges.size = g.edges.size := by
  induction ns generalizing g with
  | nil => exact ⟨rfl, rfl⟩
  | cons n ns ih =>
    rw [List.foldl_cons, ih.1, ih.2]
    exact g.size_discard n

/-! ## What one call does -/

section Perform

open Change

variable {source target n : NodeId} {branch : Branch} {e : EdgeId}

theorem perform_addEdge (hs : g.contains source = true) (ht : g.contains target = true) :
    g.perform (.addEdge source target branch) =
      (.edge (g.link source target branch).1, (g.link source target branch).2) := by
  rw [perform, Call.change, outcome_bind, outcome_addEdge hs ht]
  rfl

theorem perform_addEdge_stale (h : g.contains source = false ∨ g.contains target = false) :
    g.perform (.addEdge source target branch) =
      (.fault (.staleNode (if g.contains source then target else source)), g) := by
  rw [perform, Call.change, outcome_bind, outcome_addEdge_of_stale h]

theorem perform_removeEdge {x : Edge} (hx : g.edge? e = some x) :
    g.perform (.removeEdge e) = (.unlinked, g.unlink e) := by
  rw [perform, Call.change, outcome_bind, outcome_removeEdge hx]
  rfl

theorem perform_removeEdge_stale (hx : g.edge? e = none) :
    g.perform (.removeEdge e) = (.fault (.staleEdge e), g) := by
  rw [perform, Call.change, outcome_bind, outcome_removeEdge_of_stale hx]

theorem perform_removeNode {v : Node β} (hv : g.node? n = some v) :
    g.perform (.removeNode n) = (.removed v.label, g.discard n) := by
  rw [perform, Call.change, outcome_bind, outcome_removeNode hv]
  rfl

theorem perform_removeNode_stale (hn : g.contains n = false) :
    g.perform (.removeNode n) = (.fault (.staleNode n), g) := by
  rw [perform, Call.change, outcome_bind, outcome_removeNode_of_stale hn]

theorem perform_retain (keep : NodeId → Bool) :
    g.perform (.retain keep) = (.dropped (g.refused keep), g.retain keep) := by
  rw [perform, Call.change, outcome_bind, outcome_retainNodes]
  rfl

/-- **A call that fails changes nothing.** It meets its fault before it has written anything. -/
theorem perform_of_fault {c : Call β} {f : Fault} (h : (g.perform c).1 = .fault f) :
    (g.perform c).2 = g := by
  cases c with
  | addNode b => cases h
  | addEdge source target branch =>
    by_cases hlive : g.contains source = true ∧ g.contains target = true
    · rw [perform_addEdge hlive.1 hlive.2] at h
      cases h
    · rw [perform_addEdge_stale]
      rwa [← Bool.not_eq_true, ← Bool.not_eq_true, ← not_and_or]
  | removeEdge e =>
    cases hx : g.edge? e with
    | none => rw [perform_removeEdge_stale hx]
    | some x =>
      rw [perform_removeEdge hx] at h
      cases h
  | removeNode n =>
    cases hv : g.node? n with
    | none => rw [perform_removeNode_stale (by rw [contains, hv]; rfl)]
    | some v =>
      rw [perform_removeNode hv] at h
      cases h
  | retain keep =>
    rw [perform_retain] at h
    cases h

end Perform

/-! ## Graphs that store a view -/

/-- A graph stores the maps of a view. -/
structure Represents (g : Graph β) (M : Multigraph β) : Prop where
  incident : g.Incident
  ordered : g.Ordered
  valid : M.Valid
  node : ∀ {n b}, (n, b) ∈ M.nodes ↔ g.label? n = some b
  edge : ∀ {e x}, (e, x) ∈ M.edges ↔ g.edge? e = some x
  nextNode : g.nodes.size = M.nextNode
  nextEdge : g.edges.size = M.nextEdge

theorem represents_empty : ({} : Graph β).Represents {} := by
  have hnode : ∀ n, ({} : Graph β).node? n = none := fun n => by simp [node?]
  refine ⟨Built.empty.incident, ⟨fun n => ?_, fun n => ?_⟩, Multigraph.valid_empty, ?_, ?_, rfl,
    rfl⟩
  · rw [leaving, hnode]
    exact .nil
  · rw [entering, hnode]
    exact .nil
  · intro n b
    simp [label?, hnode]
  · intro e x
    simp [edge?]

namespace Represents

theorem mem_nodeIds (h : g.Represents M) {n : NodeId} :
    n ∈ M.nodeIds ↔ g.contains n = true := by
  simp only [Multigraph.mem_nodeIds, contains_iff_label?, h.node]

theorem mem_edgeIds (h : g.Represents M) {e : EdgeId} :
    e ∈ M.edgeIds ↔ ∃ x, g.edge? e = some x := by
  simp only [Multigraph.mem_edgeIds, h.edge]

theorem addNode (h : g.Represents M) (b : β) : (g.addNode b).2.Represents (M.addNode b).2 := by
  refine ⟨h.incident.addNode b, h.ordered.addNode b, h.valid.addNode b, ?_, h.edge, ?_, h.nextEdge⟩
  · intro n c
    have hfresh : g.label? g.nodes.size = none := by
      have := g.not_contains_size
      rw [← Option.not_isSome_iff_eq_none, label?, Option.isSome_map]
      simpa [contains] using this
    have hmem : (n, c) ∈ (M.addNode b).2.nodes ↔
        (n, c) ∈ M.nodes ∨ n = g.nodes.size ∧ c = b := by
      rw [h.nextNode, ← Prod.mk.injEq, ← List.mem_singleton, ← List.mem_append]
      rfl
    rw [hmem, h.node, label?_addNode]
    split
    · next hn => simp [hn, hfresh, eq_comm]
    · next hn => simp [hn]
  · exact (Array.size_push _).trans (congrArg (· + 1) h.nextNode)

theorem link (h : g.Represents M) {source target : NodeId} (hs : g.contains source = true)
    (ht : g.contains target = true) (branch : Branch) :
    (g.link source target branch).2.Represents (M.link source target branch).2 := by
  refine ⟨h.incident.link hs ht branch, h.ordered.link h.incident hs ht branch,
    h.valid.link (h.mem_nodeIds.mpr hs) (h.mem_nodeIds.mpr ht) branch, ?_, ?_, ?_, ?_⟩
  · intro n b
    rw [label?_link]
    exact h.node
  · intro e x
    have hmem : (e, x) ∈ (M.link source target branch).2.edges ↔
        (e, x) ∈ M.edges ∨ e = g.edges.size ∧ x = ⟨source, target, branch⟩ := by
      rw [h.nextEdge, ← Prod.mk.injEq, ← List.mem_singleton, ← List.mem_append]
      rfl
    rw [hmem, h.edge, edge?_link]
    split
    · next he => simp [he, edge?_size, eq_comm]
    · next he => simp [he]
  · rw [link_snd, size_modifyNode, size_modifyNode]
    exact h.nextNode
  · exact (g.size_edges_link source target branch).trans (congrArg (· + 1) h.nextEdge)

theorem unlink (h : g.Represents M) (e : EdgeId) :
    (g.unlink e).Represents { M with edges := M.edges.filter fun p => p.1 != e } := by
  refine ⟨h.incident.unlink e, h.ordered.unlink e, h.valid.filter_edges _, ?_, ?_, ?_, ?_⟩
  · intro n b
    rw [label?_unlink]
    exact h.node
  · intro f x
    rw [List.mem_filter, h.edge, edge?_unlink]
    split
    · next hf => simp [hf]
    · next hf => simp [hf]
  · rw [size_nodes_unlink]
    exact h.nextNode
  · rw [size_edges_unlink]
    exact h.nextEdge

/-- A change that keeps the nodes a test accepts and the edges between them restricts the view. -/
theorem restrict {g' : Graph β} (h : g.Represents M) {keep : NodeId → Bool} (hg : g'.Incident)
    (ho : g'.Ordered) (hlabel : ∀ n, g'.label? n = if keep n then g.label? n else none)
    (hedge : ∀ e, g'.edge? e = (g.edge? e).filter fun x => keep x.source && keep x.target)
    (hnodes : g'.nodes.size = g.nodes.size) (hedges : g'.edges.size = g.edges.size) :
    g'.Represents (M.restrict keep) := by
  refine ⟨hg, ho, h.valid.restrict keep, ?_, ?_, hnodes.trans h.nextNode, hedges.trans h.nextEdge⟩
  · intro n b
    have hmem : (n, b) ∈ (M.restrict keep).nodes ↔ (n, b) ∈ M.nodes ∧ keep n = true :=
      List.mem_filter
    rw [hmem, h.node, hlabel]
    cases keep n <;> simp
  · intro e x
    have hmem : (e, x) ∈ (M.restrict keep).edges ↔
        (e, x) ∈ M.edges ∧ (keep x.source && keep x.target) = true := List.mem_filter
    rw [hmem, h.edge, hedge, Option.filter_eq_some_iff]

theorem discard (h : g.Represents M) (n : NodeId) :
    (g.discard n).Represents (M.restrict (· != n)) := by
  refine h.restrict (h.incident.discard n) (h.ordered.discard n) (fun m => ?_)
    (h.incident.edge?_discard n) (g.size_discard n).1 (g.size_discard n).2
  rw [label?_discard]
  by_cases hm : m = n <;> simp [hm]

theorem retain (h : g.Represents M) (keep : NodeId → Bool) :
    (g.retain keep).Represents (M.restrict keep) :=
  h.restrict (h.incident.retain keep) (h.ordered.foldl_discard _) (g.label?_retain keep)
    (h.incident.edge?_retain keep) (size_foldl_discard _).1 (size_foldl_discard _).2

/-! ### Look-ups -/

theorem lookup_nodes (h : g.Represents M) (n : NodeId) : M.nodes.lookup n = g.label? n := by
  ext b
  rw [Multigraph.lookup_eq_some h.valid.nodes, h.node]

theorem lookup_edges (h : g.Represents M) (e : EdgeId) : M.edges.lookup e = g.edge? e := by
  ext x
  rw [Multigraph.lookup_eq_some h.valid.edges, h.edge]

theorem label (h : g.Represents M) (n : NodeId) : g.label n = M.label n := by
  rw [Multigraph.label, h.lookup_nodes, label?, Graph.label, Graph.node]
  cases g.node? n <;> rfl

theorem edge_eq (h : g.Represents M) (e : EdgeId) : g.edge e = M.edge e := by
  unfold Multigraph.edge Graph.edge
  rewrite [h.lookup_edges]
  cases g.edge? e <;> rfl

/-- The ascending list of the live edges that pass a test. -/
theorem edges_filter (h : g.Represents M) (p : Edge → Prop) [DecidablePred p] {es : List EdgeId}
    (hes : es.Pairwise (· < ·)) (hmem : ∀ e, e ∈ es ↔ ∃ x, g.edge? e = some x ∧ p x) :
    es = (M.edges.filter fun q => p q.2).map Prod.fst := by
  have hsub : ((M.edges.filter fun q => p q.2).map Prod.fst).Sublist M.edgeIds :=
    List.filter_sublist.map Prod.fst
  refine hes.eq_of_mem_iff (h.valid.edges.sublist hsub) fun e => ?_
  rw [hmem]
  simp [h.edge]

theorem outgoing (h : g.Represents M) (n : NodeId) : g.outgoing n = M.outgoing n := by
  have hlist := h.edges_filter (fun x => x.source = n)
    (List.pairwise_reverse.mpr (h.ordered.leaving n)) fun e => by
      rw [List.mem_reverse, h.incident.mem_leaving]
  rw [Multigraph.outgoing, ← hlist, ← h.label, Graph.outgoing, Graph.label, Graph.node, leaving]
  cases g.node? n <;> rfl

theorem incoming (h : g.Represents M) (n : NodeId) : g.incoming n = M.incoming n := by
  have hlist := h.edges_filter (fun x => x.target = n)
    (List.pairwise_reverse.mpr (h.ordered.entering n)) fun e => by
      rw [List.mem_reverse, h.incident.mem_entering]
  rw [Multigraph.incoming, ← hlist, ← h.label, Graph.incoming, Graph.label, Graph.node, entering]
  cases g.node? n <;> rfl

theorem nodeIds (h : g.Represents M) : g.nodeIds = M.nodeIds :=
  g.pairwise_nodeIds.eq_of_mem_iff h.valid.nodes fun n => by
    rw [Graph.mem_nodeIds, h.mem_nodeIds]

theorem edgeIds (h : g.Represents M) : g.edgeIds = M.edgeIds :=
  g.pairwise_edgeIds.eq_of_mem_iff h.valid.edges fun e => by
    rw [Graph.mem_edgeIds, h.mem_edgeIds]

theorem nodeCount (h : g.Represents M) : g.nodeCount = M.nodes.length := by
  have hlength : M.nodeIds.length = M.nodes.length := List.length_map _
  rw [h.incident.counted.nodes, h.nodeIds, hlength]

theorem edgeCount (h : g.Represents M) : g.edgeCount = M.edges.length := by
  have hlength : M.edgeIds.length = M.edges.length := List.length_map _
  rw [h.incident.counted.edges, h.edgeIds, hlength]

/-! ### Calls -/

theorem exists_label (h : g.Represents M) {n : NodeId} (hn : g.contains n = true) :
    ∃ v, g.node? n = some v ∧ M.label n = .ok v.label := by
  obtain ⟨v, hv⟩ := contains_iff.mp hn
  exact ⟨v, hv, (h.label n).symm.trans (label_of_node? hv)⟩

theorem label_of_stale (h : g.Represents M) {n : NodeId} (hn : g.contains n = false) :
    M.label n = .error (.staleNode n) := by
  rw [← h.label, Graph.label, node_of_stale (node?_eq_none hn)]
  rfl

/-- **One call.** A graph and its view answer it alike, and what it leaves of the graph stores what
it leaves of the view. -/
theorem perform (h : g.Represents M) (c : Call β) :
    (g.perform c).1 = (M.perform c).1 ∧ (g.perform c).2.Represents (M.perform c).2 := by
  cases c with
  | addNode b => exact ⟨congrArg (Answer.node ∘ Int.ofNat) h.nextNode, h.addNode b⟩
  | addEdge source target branch =>
    cases hs : g.contains source with
    | false =>
      rw [perform_addEdge_stale (.inl hs), hs,
        Multigraph.perform_addEdge_source (h.label_of_stale hs)]
      exact ⟨rfl, h⟩
    | true =>
      obtain ⟨v, -, hsource⟩ := h.exists_label hs
      cases ht : g.contains target with
      | false =>
        rw [perform_addEdge_stale (.inr ht), hs,
          Multigraph.perform_addEdge_target hsource (h.label_of_stale ht)]
        exact ⟨rfl, h⟩
      | true =>
        obtain ⟨w, -, htarget⟩ := h.exists_label ht
        rw [perform_addEdge hs ht, Multigraph.perform_addEdge hsource htarget]
        exact ⟨congrArg (Answer.edge ∘ Int.ofNat) h.nextEdge, h.link hs ht branch⟩
  | removeEdge e =>
    have hedge := h.edge_eq e
    cases hx : g.edge? e with
    | none =>
      rw [edge_of_stale hx] at hedge
      rw [perform_removeEdge_stale hx, Multigraph.perform_removeEdge_stale hedge.symm]
      exact ⟨rfl, h⟩
    | some x =>
      rw [edge_eq_ok.mpr hx] at hedge
      rw [perform_removeEdge hx, Multigraph.perform_removeEdge hedge.symm]
      exact ⟨rfl, h.unlink e⟩
  | removeNode n =>
    cases hn : g.contains n with
    | false =>
      rw [perform_removeNode_stale hn, Multigraph.perform_removeNode_stale (h.label_of_stale hn)]
      exact ⟨rfl, h⟩
    | true =>
      obtain ⟨v, hv, hlabel⟩ := h.exists_label hn
      rw [perform_removeNode hv, Multigraph.perform_removeNode hlabel]
      exact ⟨rfl, h.discard n⟩
  | retain keep =>
    rw [perform_retain]
    refine ⟨congrArg Answer.dropped ?_, h.retain keep⟩
    exact congrArg (List.filter fun n => !keep n) h.nodeIds

end Represents

/-! ## Handles given out -/

/-- The first `k` handles. -/
def firstHandles (k : Nat) : List Int := (List.range k).map Int.ofNat

theorem firstHandles_succ (k : Nat) : firstHandles (k + 1) = firstHandles k ++ [Int.ofNat k] := by
  rw [firstHandles, List.range_succ, List.map_append]
  rfl

/-- The handles given out so far are the first ones. -/
def Issued (answers : List (Answer β)) (M : Multigraph β) : Prop :=
  answers.filterMap Answer.node? = firstHandles M.nextNode ∧
    answers.filterMap Answer.edge? = firstHandles M.nextEdge

theorem Issued.perform {answers : List (Answer β)} (h : Issued answers M) (c : Call β) :
    Issued (answers ++ [(M.perform c).1]) (M.perform c).2 := by
  have hkeep : ∀ {a : Answer β}, a.node? = none → a.edge? = none →
      ∀ {M' : Multigraph β}, M'.nextNode = M.nextNode → M'.nextEdge = M.nextEdge →
        Issued (answers ++ [a]) M' := by
    intro a hn he M' hnode hedge
    simp [Issued, hn, he, hnode, hedge, h.1, h.2]
  cases c with
  | addNode b =>
    simp [Issued, Multigraph.perform, Multigraph.call, Multigraph.addNode, Answer.node?,
      Answer.edge?, h.1, h.2, firstHandles_succ]
  | addEdge source target branch =>
    cases hs : M.label source with
    | error f =>
      rw [Multigraph.perform_addEdge_source hs]
      exact hkeep rfl rfl rfl rfl
    | ok b =>
      cases ht : M.label target with
      | error f =>
        rw [Multigraph.perform_addEdge_target hs ht]
        exact hkeep rfl rfl rfl rfl
      | ok c =>
        rw [Multigraph.perform_addEdge hs ht]
        simp [Issued, Multigraph.link, Answer.node?, Answer.edge?, h.1, h.2, firstHandles_succ]
  | removeEdge e =>
    cases hx : M.edge e with
    | error f =>
      rw [Multigraph.perform_removeEdge_stale hx]
      exact hkeep rfl rfl rfl rfl
    | ok x =>
      rw [Multigraph.perform_removeEdge hx]
      exact hkeep rfl rfl rfl rfl
  | removeNode n =>
    cases hn : M.label n with
    | error f =>
      rw [Multigraph.perform_removeNode_stale hn]
      exact hkeep rfl rfl rfl rfl
    | ok b =>
      rw [Multigraph.perform_removeNode hn]
      exact hkeep rfl rfl rfl rfl
  | retain keep => exact hkeep rfl rfl rfl rfl

/-! ## Refinement -/

/-- Each look-up of a graph answers as that of a view, and the next handles are the same. -/
structure Shows (g : Graph β) (M : Multigraph β) : Prop where
  label : ∀ n, g.label n = M.label n
  edge : ∀ e, g.edge e = M.edge e
  outgoing : ∀ n, g.outgoing n = M.outgoing n
  incoming : ∀ n, g.incoming n = M.incoming n
  nodeIds : g.nodeIds = M.nodeIds
  edgeIds : g.edgeIds = M.edgeIds
  nodeCount : g.nodeCount = M.nodes.length
  edgeCount : g.edgeCount = M.edges.length
  nextNode : g.nodes.size = M.nextNode
  nextEdge : g.edges.size = M.nextEdge

theorem Represents.shows (h : g.Represents M) : g.Shows M where
  label := h.label
  edge := h.edge_eq
  outgoing := h.outgoing
  incoming := h.incoming
  nodeIds := h.nodeIds
  edgeIds := h.edgeIds
  nodeCount := h.nodeCount
  edgeCount := h.edgeCount
  nextNode := h.nextNode
  nextEdge := h.nextEdge

/-- **Graphs refine multigraphs with stable handles.** Whatever calls are made from the empty graph,
with whatever handles, they are answered as by two finite maps, faults included, and the graph shows
these maps: their edges have live ends, and the handles given out are `0`, `1`, `2` and so on. A
further call that fails leaves the very graph that there was. -/
theorem run_refines_multigraph (calls : List (Call β)) :
    let g := Calls.run perform ({} : Graph β) calls
    let M := Calls.run Multigraph.perform ({} : Multigraph β) calls
    g.1 = M.1 ∧ g.2.Shows M.2 ∧ M.2.Valid ∧
      g.1.filterMap Answer.node? = (List.range M.2.nextNode).map Int.ofNat ∧
      g.1.filterMap Answer.edge? = (List.range M.2.nextEdge).map Int.ofNat ∧
      ∀ c f, (g.2.perform c).1 = .fault f → (g.2.perform c).2 = g.2 := by
  intro g M
  obtain ⟨hanswers, hrep⟩ := Calls.run_simulation (R := Represents)
    (fun _ _ c h => h.perform c) (represents_empty (β := β)) calls
  have hissued : Issued ([] ++ M.1) M.2 :=
    Calls.run_induct (P := Issued) (fun _ _ c h => h.perform c) [] ⟨rfl, rfl⟩ calls
  have hissued : Issued g.1 M.2 := hanswers ▸ hissued
  exact ⟨hanswers, hrep.shows, hrep.valid, hissued.1, hissued.2, fun _ _ => perform_of_fault⟩

/-- A removed node is stale, its edges are gone, and its handle is not given out again. -/
example : (Calls.run perform ({} : Graph Char) [.addNode 'a', .addNode 'b', .addEdge 1 1 .static,
      .addEdge 0 1 .dynamic, .removeNode 1, .removeEdge 0, .addEdge 0 1 .static, .addNode 'c']).1 =
    [.node 0, .node 1, .edge 0, .edge 1, .removed 'b', .fault (.staleEdge 0),
      .fault (.staleNode 1), .node 2] := by
  decide

end Graph

end EvmFlow
