import EvmFlow.Graph
import EvmFlow.Proofs.Outcome
import Mathlib.Data.List.Nodup
import Mathlib.Data.List.Sort
import Mathlib.Tactic.Common

/-!
# Look-up after changes of a graph

For each change of a graph: which nodes and edges are live afterwards, what the nodes carry and
which edges they list.

* `Graph.label?`, `Graph.leaving`: what a node carries, and the edges it lists as leaving it; with
  `Graph.edge?` they show all of a graph that matters here;
* `Graph.mem_nodeIds`, `Graph.pairwise_nodeIds`, `Graph.nodeIds_addNode`: the list of the live
  nodes, in ascending order, so that new ones come last;
* `Graph.WellFormed`: every edge is listed at its source and leads to a live node, and nodes list
  live edges only;
* for each change, an equation for each of the three look-ups, and that it keeps the graph
  well-formed;
* `Graph.discard`, `Graph.retain`: what is left without a node, and without the nodes that a test
  refuses;
* `Graph.outcome_addEdge`, `Graph.outcome_removeNode`, `Graph.outcome_retainNodes` and the like:
  what the changes that check their handles answer and leave, also at a fault;
* `Graph.Counted`: the counters tell how many nodes and edges are live;
* `Graph.Links`, `Graph.WellFormed.links_iff`: two nodes are joined by an edge.
-/

namespace EvmFlow.Graph

variable {β : Type} (g : Graph β)

/-! ## Look-up -/

theorem node?_natCast (i : Nat) : g.node? (i : Int) = g.nodes[i]?.join := rfl

theorem edge?_natCast (i : Nat) : g.edge? (i : Int) = g.edges[i]?.join := rfl

variable {g}

theorem exists_of_node? {n : NodeId} {v : Node β} (h : g.node? n = some v) :
    ∃ i : Nat, n = i ∧ g.nodes[i]? = some (some v) := by
  obtain ⟨i, hi, hv⟩ := Option.bind_eq_some_iff.mp h
  exact ⟨i, Int.mem_toNat?.mp hi, Option.join_eq_some_iff.mp hv⟩

theorem exists_of_edge? {e : EdgeId} {x : Edge} (h : g.edge? e = some x) :
    ∃ i : Nat, e = i ∧ g.edges[i]? = some (some x) := by
  obtain ⟨i, hi, hx⟩ := Option.bind_eq_some_iff.mp h
  exact ⟨i, Int.mem_toNat?.mp hi, Option.join_eq_some_iff.mp hx⟩

theorem contains_iff {n : NodeId} : g.contains n = true ↔ ∃ v, g.node? n = some v :=
  Option.isSome_iff_exists

theorem node_eq_ok {n : NodeId} {v : Node β} : g.node n = .ok v ↔ g.node? n = some v := by
  unfold node
  cases g.node? n <;> simp

theorem edge_eq_ok {e : EdgeId} {x : Edge} : g.edge e = .ok x ↔ g.edge? e = some x := by
  unfold edge
  cases g.edge? e <;> simp

theorem label_of_node? {n : NodeId} {v : Node β} (h : g.node? n = some v) :
    g.label n = .ok v.label := by
  rw [label, node_eq_ok.mpr h]
  rfl

theorem node?_of_label {n : NodeId} {b : β} (h : g.label n = .ok b) :
    ∃ v, g.node? n = some v ∧ v.label = b := by
  unfold label node at h
  cases hv : g.node? n with
  | none => rw [hv] at h; cases h
  | some v =>
    rw [hv] at h
    cases h
    exact ⟨v, rfl, rfl⟩

theorem mem_nodeIds {n : NodeId} : n ∈ g.nodeIds ↔ g.contains n = true := by
  constructor
  · exact fun h => (List.mem_filter.mp h).2
  · intro h
    obtain ⟨v, hv⟩ := contains_iff.mp h
    obtain ⟨i, rfl, hi⟩ := exists_of_node? hv
    have hi := (Array.getElem?_eq_some_iff.mp hi).1
    exact List.mem_filter.mpr ⟨List.mem_map.mpr ⟨i, List.mem_range.mpr hi, rfl⟩, h⟩

theorem pairwise_nodeIds (g : Graph β) : g.nodeIds.Pairwise (· < ·) :=
  (List.pairwise_lt_range.map Int.ofNat fun _ _ h => Int.ofNat_lt.mpr h).filter _

theorem nodup_nodeIds (g : Graph β) : g.nodeIds.Nodup :=
  g.pairwise_nodeIds.imp fun h => Int.ne_of_lt h

theorem mem_edgeIds {e : EdgeId} : e ∈ g.edgeIds ↔ ∃ x, g.edge? e = some x := by
  rw [edgeIds, List.mem_filter, Option.isSome_iff_exists]
  refine ⟨And.right, fun ⟨x, hx⟩ => ⟨?_, x, hx⟩⟩
  obtain ⟨i, rfl, hi⟩ := exists_of_edge? hx
  exact List.mem_map.mpr ⟨i, List.mem_range.mpr (Array.getElem?_eq_some_iff.mp hi).1, rfl⟩

theorem pairwise_edgeIds (g : Graph β) : g.edgeIds.Pairwise (· < ·) :=
  (List.pairwise_lt_range.map Int.ofNat fun _ _ h => Int.ofNat_lt.mpr h).filter _

/-- Which nodes are live decides how they are listed. -/
theorem nodeIds_congr {γ : Type} {g : Graph β} {g' : Graph γ}
    (hlive : ∀ n, g'.contains n = g.contains n) : g'.nodeIds = g.nodeIds :=
  g'.pairwise_nodeIds.eq_of_mem_iff g.pairwise_nodeIds fun n => by
    rw [mem_nodeIds, mem_nodeIds, hlive]

/-- Which edges are live decides how they are listed. -/
theorem edgeIds_congr {γ : Type} {g : Graph β} {g' : Graph γ}
    (hlive : ∀ e, (g'.edge? e).isSome = (g.edge? e).isSome) : g'.edgeIds = g.edgeIds :=
  g'.pairwise_edgeIds.eq_of_mem_iff g.pairwise_edgeIds fun e => by
    rw [mem_edgeIds, mem_edgeIds, ← Option.isSome_iff_exists, hlive, Option.isSome_iff_exists]

/-! ## Changes of nodes -/

theorem node?_modifyNode (g : Graph β) (n m : NodeId) (f : Node β → Node β) :
    (g.modifyNode n f).node? m = if m = n then (g.node? m).map f else g.node? m := by
  unfold modifyNode
  cases hn : n.toNat? with
  | none =>
    by_cases hm : m = n
    · subst hm
      simp [node?, hn]
    · rw [if_neg hm]
  | some i =>
    cases hm : m.toNat? with
    | none =>
      have hne : m ≠ n := fun h => by rw [h, hn] at hm; cases hm
      simp [node?, hm, hne]
    | some j =>
      have hmn : (m = n) = (i = j) := by
        rw [Int.mem_toNat?.mp hm, Int.mem_toNat?.mp hn, eq_iff_iff]
        exact ⟨fun h => (Int.ofNat_inj.mp h).symm, fun h => by rw [h]⟩
      simp only [node?, hm, Option.bind_some, Array.getElem?_modify, hmn]
      by_cases hij : i = j
      · subst hij
        simp only [if_true]
        cases g.nodes[i]? with
        | none => rfl
        | some o => cases o <;> rfl
      · rw [if_neg hij, if_neg hij]

theorem edge?_modifyNode (g : Graph β) (n : NodeId) (f : Node β → Node β) (e : EdgeId) :
    (g.modifyNode n f).edge? e = g.edge? e := by
  unfold modifyNode
  split <;> rfl

theorem edges_modifyNode (g : Graph β) (n : NodeId) (f : Node β → Node β) :
    (g.modifyNode n f).edges = g.edges := by
  unfold modifyNode
  split <;> rfl

theorem nodeCount_modifyNode (g : Graph β) (n : NodeId) (f : Node β → Node β) :
    (g.modifyNode n f).nodeCount = g.nodeCount := by
  unfold modifyNode
  split <;> rfl

theorem edgeCount_modifyNode (g : Graph β) (n : NodeId) (f : Node β → Node β) :
    (g.modifyNode n f).edgeCount = g.edgeCount := by
  unfold modifyNode
  split <;> rfl

theorem size_modifyNode (g : Graph β) (n : NodeId) (f : Node β → Node β) :
    (g.modifyNode n f).nodes.size = g.nodes.size := by
  unfold modifyNode
  split <;> simp

theorem node?_modifyLabel (g : Graph β) (n m : NodeId) (f : β → β) :
    (g.modifyLabel n f).node? m =
      if m = n then (g.node? m).map fun v => { v with label := f v.label } else g.node? m :=
  g.node?_modifyNode n m _

theorem edge?_modifyLabel (g : Graph β) (n : NodeId) (f : β → β) (e : EdgeId) :
    (g.modifyLabel n f).edge? e = g.edge? e := g.edge?_modifyNode n _ e

theorem contains_modifyLabel (g : Graph β) (n m : NodeId) (f : β → β) :
    (g.modifyLabel n f).contains m = g.contains m := by
  unfold contains
  rw [node?_modifyLabel]
  split
  · rw [Option.isSome_map]
  · rfl

theorem nodeIds_modifyLabel (g : Graph β) (n : NodeId) (f : β → β) :
    (g.modifyLabel n f).nodeIds = g.nodeIds :=
  nodeIds_congr fun m => g.contains_modifyLabel n m f

theorem node?_addNode (g : Graph β) (label : β) (m : NodeId) :
    (g.addNode label).2.node? m = if m = g.nodes.size then some { label } else g.node? m := by
  by_cases hm : m = g.nodes.size
  · subst hm
    rw [if_pos rfl]
    simp [addNode, node?_natCast]
  · rw [if_neg hm]
    cases hn : m.toNat? with
    | none => simp [node?, hn]
    | some i =>
      have hne : i ≠ g.nodes.size := fun h => hm (by rw [Int.mem_toNat?.mp hn, h])
      simp [node?, hn, addNode, Array.getElem?_push, hne]

theorem edge?_addNode (g : Graph β) (label : β) (e : EdgeId) :
    (g.addNode label).2.edge? e = g.edge? e := rfl

/-- A new node comes last. -/
theorem nodeIds_addNode (g : Graph β) (label : β) :
    (g.addNode label).2.nodeIds = g.nodeIds ++ [(g.addNode label).1] := by
  have hsize : (g.addNode label).2.nodes.size = g.nodes.size + 1 := Array.size_push _
  have hnew : (g.addNode label).2.contains g.nodes.size = true := by
    rw [contains, node?_addNode, if_pos rfl]
    rfl
  unfold nodeIds
  rw [hsize, List.range_succ, List.map_append, List.filter_append]
  congr 1
  · apply List.filter_congr
    intro m hm
    obtain ⟨i, hi, rfl⟩ := List.mem_map.mp hm
    have hne : Int.ofNat i ≠ g.nodes.size := by
      have := List.mem_range.mp hi
      simp only [Int.ofNat_eq_natCast]
      omega
    rw [contains, node?_addNode, if_neg hne]
    rfl
  · exact List.filter_cons_of_pos hnew

/-! ## What nodes carry and list -/

/-- The label of a live node. -/
def label? (g : Graph β) (n : NodeId) : Option β := (g.node? n).map (·.label)

/-- The edges that a node lists as leaving it; none if it is not live. -/
def leaving (g : Graph β) (n : NodeId) : List EdgeId := ((g.node? n).map (·.leaving)).getD []

theorem contains_iff_label? {n : NodeId} : g.contains n = true ↔ ∃ b, g.label? n = some b := by
  rw [← Option.isSome_iff_exists, label?, Option.isSome_map, contains]

theorem label?_of_node? {n : NodeId} {v : Node β} (h : g.node? n = some v) :
    g.label? n = some v.label := by
  rw [label?, h]
  rfl

theorem leaving_of_node? {n : NodeId} {v : Node β} (h : g.node? n = some v) :
    g.leaving n = v.leaving := by
  rw [leaving, h]
  rfl

theorem label_eq_ok {n : NodeId} {b : β} : g.label n = .ok b ↔ g.label? n = some b := by
  constructor
  · intro h
    obtain ⟨v, hv, rfl⟩ := node?_of_label h
    exact label?_of_node? hv
  · intro h
    obtain ⟨v, hv, rfl⟩ := Option.map_eq_some_iff.mp h
    exact label_of_node? hv

theorem contains_of_mem_leaving {n : NodeId} {e : EdgeId} (h : e ∈ g.leaving n) :
    g.contains n = true := by
  unfold leaving at h
  unfold contains
  cases hv : g.node? n with
  | none => simp [hv] at h
  | some v => rfl

section Modify

variable (g : Graph β) (n m : NodeId)

theorem label?_modifyNode {f : Node β → Node β} (hf : ∀ v, (f v).label = v.label) :
    (g.modifyNode n f).label? m = g.label? m := by
  rw [label?, node?_modifyNode, label?]
  split
  · rw [Option.map_map]
    exact Option.map_congr fun v _ => hf v
  · rfl

theorem leaving_modifyNode {f : Node β → Node β} (hf : ∀ v, (f v).leaving = v.leaving) :
    (g.modifyNode n f).leaving m = g.leaving m := by
  rw [leaving, node?_modifyNode, leaving]
  split
  · rw [Option.map_map]
    exact congrArg (·.getD []) (Option.map_congr fun v _ => hf v)
  · rfl

theorem label?_modifyLabel (f : β → β) :
    (g.modifyLabel n f).label? m = if m = n then (g.label? m).map f else g.label? m := by
  rw [label?, node?_modifyLabel, label?]
  split
  · rw [Option.map_map, Option.map_map]
    rfl
  · rfl

/-- A change of a label to what it is changes nothing. -/
theorem modifyLabel_eq_self {f : β → β} (hf : ∀ b, g.label? n = some b → f b = b) :
    g.modifyLabel n f = g := by
  unfold modifyLabel modifyNode
  split
  · next i hi =>
    have hnodes : g.nodes.modify i (Option.map fun v => { v with label := f v.label }) =
        g.nodes := by
      apply Array.ext_getElem?
      intro j
      rw [Array.getElem?_modify]
      by_cases hij : i = j
      · subst hij
        rw [if_pos rfl]
        cases hv : g.nodes[i]? with
        | none => rfl
        | some o =>
          cases o with
          | none => rfl
          | some v =>
            have hlabel : g.label? n = some v.label := by simp [label?, node?, hi, hv]
            simp [hf _ hlabel]
      · rw [if_neg hij]
    rw [hnodes]
  · rfl

theorem leaving_modifyLabel (f : β → β) : (g.modifyLabel n f).leaving m = g.leaving m :=
  g.leaving_modifyNode n m fun _ => rfl

theorem label?_addNode (b : β) :
    (g.addNode b).2.label? m = if m = g.nodes.size then some b else g.label? m := by
  rw [label?, node?_addNode, label?]
  split <;> rfl

theorem not_contains_size : g.contains g.nodes.size = false := by
  unfold contains
  rw [node?_natCast, Array.getElem?_eq_none (Nat.le_refl _)]
  rfl

theorem leaving_addNode (b : β) : (g.addNode b).2.leaving m = g.leaving m := by
  rw [leaving, node?_addNode, leaving]
  split
  · next hm =>
    have hnone : g.node? m = none := by
      have := g.not_contains_size
      rw [hm]
      exact Option.isNone_iff_eq_none.mp (by simpa [contains] using this)
    rw [hnone]
    rfl
  · rfl

end Modify

/-! ## Changes of edges -/

section Edges

variable (g : Graph β) (source target m : NodeId) (branch : Branch) (e f : EdgeId)

theorem edge?_size : g.edge? g.edges.size = none := by
  rw [edge?_natCast, Array.getElem?_eq_none (Nat.le_refl _)]
  rfl

theorem edge?_link : (g.link source target branch).2.edge? e =
    if e = g.edges.size then some ⟨source, target, branch⟩ else g.edge? e := by
  unfold link
  rw [edge?_modifyNode, edge?_modifyNode]
  by_cases he : e = g.edges.size
  · subst he
    rw [if_pos rfl, edge?_natCast]
    simp
  · rw [if_neg he]
    cases hn : e.toNat? with
    | none => simp [edge?, hn]
    | some i =>
      have hne : i ≠ g.edges.size := fun h => he (by rw [Int.mem_toNat?.mp hn, h])
      simp [edge?, hn, Array.getElem?_push, hne]

/-- The graph with one more edge, which no node lists. -/
def pushEdge (g : Graph β) (x : Edge) : Graph β :=
  { g with edges := g.edges.push (some x), edgeCount := g.edgeCount + 1 }

theorem link_snd : (g.link source target branch).2 =
    ((g.pushEdge ⟨source, target, branch⟩).modifyNode source
      fun v => { v with leaving := (g.edges.size : Int) :: v.leaving }).modifyNode target
        fun v => { v with entering := (g.edges.size : Int) :: v.entering } := rfl

theorem label?_link : (g.link source target branch).2.label? m = g.label? m := by
  rw [link_snd, label?_modifyNode, label?_modifyNode]
  · rfl
  · exact fun _ => rfl
  · exact fun _ => rfl

theorem contains_link : (g.link source target branch).2.contains m = g.contains m := by
  rw [Bool.eq_iff_iff, contains_iff_label?, contains_iff_label?, label?_link]

theorem nodeIds_link : (g.link source target branch).2.nodeIds = g.nodeIds :=
  nodeIds_congr fun n => g.contains_link source target n branch

theorem leaving_link (hs : g.contains source = true) :
    (g.link source target branch).2.leaving m =
      if m = source then (g.edges.size : Int) :: g.leaving m else g.leaving m := by
  rw [link_snd, leaving_modifyNode]
  · rw [leaving, node?_modifyNode]
    split
    · next hm =>
      subst hm
      obtain ⟨v, hv⟩ := contains_iff.mp hs
      have hv' : (g.pushEdge ⟨m, target, branch⟩).node? m = some v := hv
      rw [hv', leaving_of_node? hv]
      rfl
    · rfl
  · exact fun _ => rfl

theorem size_edges_link : (g.link source target branch).2.edges.size = g.edges.size + 1 := by
  rw [link_snd, edges_modifyNode, edges_modifyNode]
  exact Array.size_push _

theorem unlink_of_none (h : g.edge? e = none) : g.unlink e = g := by
  unfold unlink
  rw [h]
  split
  · next heq => cases heq
  · rfl

theorem unlink_of_some {i : Nat} {x : Edge} (h : g.edge? i = some x) :
    g.unlink i = {
      (g.modifyNode x.source fun v => { v with leaving := v.leaving.erase i }).modifyNode
        x.target fun v => { v with entering := v.entering.erase i } with
      edges := g.edges.setIfInBounds i none
      edgeCount := g.edgeCount - 1 } := by
  unfold unlink
  rw [h]
  simp only [edges_modifyNode, edgeCount_modifyNode]
  rfl

theorem edge?_unlink : (g.unlink e).edge? f = if f = e then none else g.edge? f := by
  cases hx : g.edge? e with
  | none =>
    rw [unlink_of_none g e hx]
    split
    · next hfe => rw [hfe, hx]
    · rfl
  | some x =>
    obtain ⟨i, rfl, hi⟩ := exists_of_edge? hx
    have hunlink : (g.unlink i).edge? f =
        ({ g with edges := g.edges.setIfInBounds i none } : Graph β).edge? f := by
      rw [unlink_of_some g hx]
      rfl
    rw [hunlink]
    cases hf : f.toNat? with
    | none =>
      have hne : f ≠ i := fun h => by rw [h] at hf; cases hf
      simp [edge?, hf, hne]
    | some j =>
      have hiff : (f = i) = (i = j) := by
        rw [Int.mem_toNat?.mp hf, eq_iff_iff]
        exact ⟨fun h => (Int.ofNat_inj.mp h).symm, fun h => by rw [h]⟩
      simp only [edge?, hf, Option.bind_some, Array.getElem?_setIfInBounds, hiff]
      by_cases hij : i = j
      · subst hij
        by_cases hlt : i < g.edges.size <;> simp [hlt]
      · rw [if_neg hij, if_neg hij]

theorem size_edges_unlink : (g.unlink e).edges.size = g.edges.size := by
  cases hx : g.edge? e with
  | none => rw [unlink_of_none g e hx]
  | some x =>
    obtain ⟨i, rfl, -⟩ := exists_of_edge? hx
    rw [unlink_of_some g hx]
    exact Array.size_setIfInBounds

theorem label?_unlink : (g.unlink e).label? m = g.label? m := by
  cases hx : g.edge? e with
  | none => rw [unlink_of_none g e hx]
  | some x =>
    obtain ⟨i, rfl, -⟩ := exists_of_edge? hx
    rw [unlink_of_some g hx]
    change ((g.modifyNode _ _).modifyNode _ _).label? m = g.label? m
    rw [label?_modifyNode, label?_modifyNode]
    · exact fun _ => rfl
    · exact fun _ => rfl

theorem contains_unlink : (g.unlink e).contains m = g.contains m := by
  rw [Bool.eq_iff_iff, contains_iff_label?, contains_iff_label?, label?_unlink]

theorem leaving_unlink {x : Edge} (hx : g.edge? e = some x) :
    (g.unlink e).leaving m = if m = x.source then (g.leaving m).erase e else g.leaving m := by
  obtain ⟨i, rfl, -⟩ := exists_of_edge? hx
  rw [unlink_of_some g hx]
  change ((g.modifyNode _ _).modifyNode _ _).leaving m = _
  rw [leaving_modifyNode]
  · rw [leaving, node?_modifyNode, leaving]
    split
    · cases g.node? m <;> rfl
    · rfl
  · exact fun _ => rfl

end Edges

/-! ## Removal of nodes -/

section Remove

variable (g : Graph β) (keep : NodeId → Bool) (n m : NodeId) (e : EdgeId) (es : List EdgeId)

theorem node?_vacate : (g.vacate n).node? m = if m = n then none else g.node? m := by
  unfold vacate
  cases hn : n.toNat? with
  | none =>
    by_cases hm : m = n
    · simp [hm, node?, hn]
    · simp [hm]
  | some i =>
    obtain rfl := Int.mem_toNat?.mp hn
    cases hm : m.toNat? with
    | none =>
      have hne : m ≠ i := fun h => by rw [h] at hm; cases hm
      simp [node?, hm, hne]
    | some j =>
      obtain rfl := Int.mem_toNat?.mp hm
      simp only [node?, hm, Option.bind_some, Array.getElem?_setIfInBounds, Int.ofNat_inj, eq_comm]
      split
      · split <;> rfl
      · rfl

theorem edge?_vacate : (g.vacate n).edge? e = g.edge? e := by
  unfold vacate
  split <;> rfl

theorem label?_vacate : (g.vacate n).label? m = if m = n then none else g.label? m := by
  rw [label?, node?_vacate, label?]
  split <;> rfl

theorem leaving_vacate : (g.vacate n).leaving m = if m = n then [] else g.leaving m := by
  rw [leaving, node?_vacate, leaving]
  split <;> rfl

variable {g} in
theorem label?_foldl_unlink : (es.foldl unlink g).label? m = g.label? m := by
  induction es generalizing g with
  | nil => rfl
  | cons e es ih => rw [List.foldl_cons, ih, label?_unlink]

variable {g} in
theorem edge?_foldl_unlink :
    (es.foldl unlink g).edge? e = if e ∈ es then none else g.edge? e := by
  induction es generalizing g with
  | nil => rfl
  | cons f es ih =>
    rw [List.foldl_cons, ih, edge?_unlink]
    by_cases he : e = f <;> by_cases hes : e ∈ es <;> simp [he, hes]

/-- The graph without a node and the edges that it lists, if it is live. -/
def discard (g : Graph β) (n : NodeId) : Graph β :=
  match g.node? n with
  | some v => ((v.outgoing ++ v.incoming).foldl unlink g).vacate n
  | none => g

/-- The live nodes that `keep` refuses, in ascending order. -/
def refused (g : Graph β) (keep : NodeId → Bool) : List NodeId := g.nodeIds.filter fun n => !keep n

/-- The graph without the nodes that `keep` refuses, which go one after the other. -/
def retain (g : Graph β) (keep : NodeId → Bool) : Graph β := (g.refused keep).foldl discard g

theorem label?_discard : (g.discard n).label? m = if m = n then none else g.label? m := by
  unfold discard
  split
  · rw [label?_vacate, label?_foldl_unlink]
  · next hn =>
    split
    · next hm =>
      rw [hm, label?, hn]
      rfl
    · rfl

variable {g} in
theorem label?_foldl_discard (ns : List NodeId) :
    (ns.foldl discard g).label? m = if m ∈ ns then none else g.label? m := by
  induction ns generalizing g with
  | nil => rfl
  | cons n ns ih =>
    rw [List.foldl_cons, ih, label?_discard]
    by_cases hm : m = n <;> by_cases hns : m ∈ ns <;> simp [hm, hns]

variable {g keep n} in
theorem mem_refused : n ∈ g.refused keep ↔ g.contains n = true ∧ keep n = false := by
  rw [refused, List.mem_filter, mem_nodeIds, Bool.not_eq_true']

theorem label?_retain : (g.retain keep).label? n = if keep n then g.label? n else none := by
  rw [retain, label?_foldl_discard]
  cases hk : keep n with
  | true =>
    rw [if_neg, if_pos rfl]
    rw [mem_refused, hk]
    exact fun h => Bool.noConfusion h.2
  | false =>
    rw [if_neg Bool.false_ne_true]
    split
    · rfl
    · next hstays =>
      refine Option.eq_none_iff_forall_ne_some.mpr fun b hb => hstays ?_
      exact mem_refused.mpr ⟨contains_iff_label?.mpr ⟨b, hb⟩, hk⟩

theorem contains_retain : (g.retain keep).contains n = (keep n && g.contains n) := by
  rw [Bool.eq_iff_iff, Bool.and_eq_true, contains_iff_label?, contains_iff_label?, label?_retain]
  cases keep n <;> simp

variable {g keep} in
/-- If nothing is refused, the graph stays as it is. -/
theorem retain_of_refused_eq_nil (h : g.refused keep = []) : g.retain keep = g := by
  rw [retain, h]
  rfl

variable {g keep} in
/-- A graph all of whose nodes are kept stays as it is. -/
theorem refused_eq_nil (hkeep : ∀ n, g.contains n = true → keep n = true) :
    g.refused keep = [] := by
  rw [refused, List.filter_eq_nil_iff]
  intro n hn
  simp [hkeep n (mem_nodeIds.mp hn)]

end Remove

/-! ## What the changes come to -/

section Outcome

open Change

variable {source target n : NodeId} {branch : Branch} {e : EdgeId}

theorem node_of_stale (h : g.node? n = none) : g.node n = .error (.staleNode n) := by
  rw [node, h]

theorem edge_of_stale (h : g.edge? e = none) : g.edge e = .error (.staleEdge e) := by
  rw [edge, h]

theorem node?_eq_none (h : g.contains n = false) : g.node? n = none := by
  simpa [contains] using h

theorem outcome_addEdge (hs : g.contains source = true) (ht : g.contains target = true) :
    (addEdge source target branch).outcome g =
      (.ok (g.link source target branch).1, (g.link source target branch).2) := by
  obtain ⟨v, hv⟩ := contains_iff.mp hs
  obtain ⟨w, hw⟩ := contains_iff.mp ht
  rw [addEdge, outcome_bind, outcome_look, node_eq_ok.mpr hv]
  dsimp only
  rw [outcome_bind, outcome_look, node_eq_ok.mpr hw]
  rfl

/-- The ends are checked before anything is written. -/
theorem outcome_addEdge_of_stale (h : g.contains source = false ∨ g.contains target = false) :
    (addEdge source target branch).outcome g =
      (.error (.staleNode (if g.contains source then target else source)), g) := by
  rw [addEdge, outcome_bind, outcome_look]
  cases hs : g.contains source with
  | false => rw [node_of_stale (node?_eq_none hs), if_neg Bool.false_ne_true]
  | true =>
    obtain ⟨v, hv⟩ := contains_iff.mp hs
    have ht : g.contains target = false := h.resolve_left (by simp [hs])
    rw [node_eq_ok.mpr hv]
    dsimp only
    rw [outcome_bind, outcome_look, node_of_stale (node?_eq_none ht), if_pos rfl]

theorem outcome_removeEdge {x : Edge} (hx : g.edge? e = some x) :
    (removeEdge e).outcome g = (.ok (), g.unlink e) := by
  rw [removeEdge, outcome_bind, outcome_look, edge_eq_ok.mpr hx]
  rfl

theorem outcome_removeEdge_of_stale (hx : g.edge? e = none) :
    (removeEdge e).outcome g = (.error (.staleEdge e), g) := by
  rw [removeEdge, outcome_bind, outcome_look, edge_of_stale hx]

/-- No edge is removed twice. -/
theorem outcome_removeEdges (es : List EdgeId) (g : Graph β) :
    (removeEdges es).outcome g = (.ok (), es.foldl unlink g) := by
  induction es generalizing g with
  | nil => rfl
  | cons e es ih =>
    rw [removeEdges, outcome_bind, outcome_get, List.foldl_cons]
    dsimp only
    cases hx : g.edge? e with
    | none =>
      rw [unlink_of_none g e hx]
      exact ih g
    | some x =>
      rw [Option.isSome_some, if_pos rfl, outcome_bind, outcome_removeEdge hx]
      exact ih (g.unlink e)

theorem outcome_removeNode {v : Node β} (hv : g.node? n = some v) :
    (removeNode n).outcome g = (.ok v.label, g.discard n) := by
  rw [removeNode, outcome_bind, outcome_look, node_eq_ok.mpr hv]
  dsimp only
  rw [outcome_bind, outcome_removeEdges, discard, hv]
  rfl

theorem outcome_removeNode_of_stale (hn : g.contains n = false) :
    (removeNode n).outcome g = (.error (.staleNode n), g) := by
  rw [removeNode, outcome_bind, outcome_look, node_of_stale (node?_eq_none hn)]

/-- A node that is refused is still live when its turn comes, since no other node went with those
before it. -/
theorem outcome_removeRefused (keep : NodeId → Bool) {ns : List NodeId} (hns : ns.Nodup)
    (hlive : ∀ n ∈ ns, g.contains n = true) :
    (removeRefused keep ns).outcome g = (.ok (ns.filter fun n => !keep n),
      (ns.filter fun n => !keep n).foldl discard g) := by
  induction ns generalizing g with
  | nil => rfl
  | cons n ns ih =>
    obtain ⟨hn, hns⟩ := List.nodup_cons.mp hns
    obtain ⟨hfirst, hrest⟩ := List.forall_mem_cons.mp hlive
    rw [removeRefused]
    cases hk : keep n with
    | true =>
      rw [if_pos rfl, List.filter_cons_of_neg (by simp [hk])]
      exact ih hns hrest
    | false =>
      obtain ⟨v, hv⟩ := contains_iff.mp hfirst
      have hlater : ∀ m ∈ ns, (g.discard n).contains m = true := by
        intro m hm
        rw [contains_iff_label?, label?_discard, if_neg (ne_of_mem_of_not_mem hm hn)]
        exact contains_iff_label?.mp (hrest m hm)
      rw [if_neg Bool.false_ne_true, outcome_bind, outcome_removeNode hv]
      dsimp only
      rw [outcome_bind, ih hns hlater, List.filter_cons_of_pos (by simp [hk])]
      rfl

/-- The nodes that are refused go, and no fault is met. -/
theorem outcome_retainNodes (keep : NodeId → Bool) (g : Graph β) :
    (retainNodes keep).outcome g = (.ok (g.refused keep), g.retain keep) := by
  rw [retainNodes, outcome_bind, outcome_get]
  exact outcome_removeRefused keep g.nodup_nodeIds fun n hn => mem_nodeIds.mp hn

theorem apply_retainNodes (keep : NodeId → Bool) (g : Graph β) :
    (retainNodes keep).apply g = .ok (g.refused keep, g.retain keep) :=
  apply_eq_ok.mpr (outcome_retainNodes keep g)

end Outcome

/-! ## Counters -/

/-- The counters tell how many nodes and how many edges are live. -/
structure Counted (g : Graph β) : Prop where
  nodes : g.nodeCount = g.nodeIds.length
  edges : g.edgeCount = g.edgeIds.length

theorem counted_empty : ({} : Graph β).Counted := ⟨rfl, rfl⟩

/-- A new edge comes last. -/
theorem edgeIds_link (source target : NodeId) (branch : Branch) :
    (g.link source target branch).2.edgeIds = g.edgeIds ++ [(g.edges.size : Int)] := by
  have hlast : (g.edgeIds ++ [(g.edges.size : Int)]).Pairwise (· < ·) := by
    refine List.pairwise_append.mpr ⟨g.pairwise_edgeIds, List.pairwise_singleton _ _, ?_⟩
    intro e he f hf
    obtain ⟨x, hx⟩ := mem_edgeIds.mp he
    obtain ⟨i, rfl, hi⟩ := exists_of_edge? hx
    rw [List.mem_singleton.mp hf]
    exact Int.ofNat_lt.mpr (Array.getElem?_eq_some_iff.mp hi).1
  refine (pairwise_edgeIds _).eq_of_mem_iff hlast fun e => ?_
  rw [mem_edgeIds, edge?_link, List.mem_append, List.mem_singleton, mem_edgeIds]
  split
  · next he => simp [he]
  · next he => simp [he]

theorem edgeIds_unlink (g : Graph β) (e : EdgeId) :
    (g.unlink e).edgeIds = g.edgeIds.erase e := by
  have hnodup : g.edgeIds.Nodup := g.pairwise_edgeIds.imp fun h => Int.ne_of_lt h
  refine (pairwise_edgeIds _).eq_of_mem_iff (g.pairwise_edgeIds.sublist List.erase_sublist)
    fun f => ?_
  rw [mem_edgeIds, edge?_unlink, hnodup.mem_erase_iff, mem_edgeIds]
  split
  · next hf => simp [hf]
  · next hf => simp [hf]

theorem nodeIds_vacate (g : Graph β) (n : NodeId) :
    (g.vacate n).nodeIds = g.nodeIds.erase n := by
  refine (pairwise_nodeIds _).eq_of_mem_iff (g.pairwise_nodeIds.sublist List.erase_sublist)
    fun m => ?_
  rw [mem_nodeIds, contains, node?_vacate, g.nodup_nodeIds.mem_erase_iff, mem_nodeIds, contains]
  split
  · next hm => simp [hm]
  · next hm => simp [hm]

namespace Counted

theorem modifyLabel (h : g.Counted) (n : NodeId) (f : β → β) : (g.modifyLabel n f).Counted where
  nodes := by
    rw [nodeIds_modifyLabel, ← h.nodes]
    exact g.nodeCount_modifyNode n _
  edges := by
    rw [edgeIds_congr (g := g) fun e => by rw [edge?_modifyLabel], ← h.edges]
    exact g.edgeCount_modifyNode n _

theorem addNode (h : g.Counted) (b : β) : (g.addNode b).2.Counted where
  nodes := by
    rw [nodeIds_addNode, List.length_append, ← h.nodes]
    rfl
  edges := h.edges

theorem link (h : g.Counted) (source target : NodeId) (branch : Branch) :
    (g.link source target branch).2.Counted where
  nodes := by
    rw [nodeIds_link, ← h.nodes, link_snd, nodeCount_modifyNode, nodeCount_modifyNode]
    rfl
  edges := by
    rw [edgeIds_link, List.length_append, ← h.edges, link_snd, edgeCount_modifyNode,
      edgeCount_modifyNode]
    rfl

theorem unlink (h : g.Counted) (e : EdgeId) : (g.unlink e).Counted := by
  cases hx : g.edge? e with
  | none => rwa [unlink_of_none g e hx]
  | some x =>
    obtain ⟨i, rfl, -⟩ := exists_of_edge? hx
    constructor
    · rw [nodeIds_congr fun m => g.contains_unlink m i, ← h.nodes, unlink_of_some g hx]
      change ((g.modifyNode _ _).modifyNode _ _).nodeCount = g.nodeCount
      rw [nodeCount_modifyNode, nodeCount_modifyNode]
    · rw [edgeIds_unlink, List.length_erase_of_mem (mem_edgeIds.mpr ⟨x, hx⟩), ← h.edges,
        unlink_of_some g hx]

theorem foldl_unlink (h : g.Counted) (es : List EdgeId) : (es.foldl Graph.unlink g).Counted := by
  induction es generalizing g with
  | nil => exact h
  | cons e es ih => exact ih (h.unlink e)

theorem vacate (h : g.Counted) {n : NodeId} (hn : g.contains n = true) : (g.vacate n).Counted := by
  obtain ⟨v, hv⟩ := contains_iff.mp hn
  obtain ⟨i, rfl, -⟩ := exists_of_node? hv
  constructor
  · rw [nodeIds_vacate, List.length_erase_of_mem (mem_nodeIds.mpr hn), ← h.nodes]
    rfl
  · rw [edgeIds_congr (g := g) fun e => by rw [edge?_vacate], ← h.edges]
    rfl

theorem discard (h : g.Counted) (n : NodeId) : (g.discard n).Counted := by
  unfold Graph.discard
  split
  · next v hv =>
    refine (h.foldl_unlink _).vacate ?_
    rw [contains_iff_label?, label?_foldl_unlink]
    exact ⟨_, label?_of_node? hv⟩
  · exact h

end Counted

/-! ## Well-formed graphs -/

/-- Every edge is listed at its source and leads to a live node, and nodes list live edges that
leave them, each once. -/
structure WellFormed (g : Graph β) : Prop where
  source : ∀ {e x}, g.edge? e = some x → e ∈ g.leaving x.source
  target : ∀ {e x}, g.edge? e = some x → g.contains x.target = true
  leaving : ∀ {n e}, e ∈ g.leaving n → ∃ x, g.edge? e = some x ∧ x.source = n
  nodup : ∀ n, (g.leaving n).Nodup

theorem wellFormed_empty : ({} : Graph β).WellFormed := by
  have hedge : ∀ e, ({} : Graph β).edge? e = none := fun e => by simp [edge?]
  have hleaving : ∀ n, ({} : Graph β).leaving n = [] := fun n => by simp [leaving, node?]
  refine ⟨fun he => ?_, fun he => ?_, fun he => ?_, fun n => ?_⟩
  · rw [hedge] at he
    cases he
  · rw [hedge] at he
    cases he
  · rw [hleaving] at he
    cases he
  · rw [hleaving]
    exact List.nodup_nil

/-- There is an edge with the given ends and tag, and its source lists it. -/
def Links (g : Graph β) (source target : NodeId) (branch : Branch) : Prop :=
  ∃ v e, g.node? source = some v ∧ e ∈ v.outgoing ∧ g.edge? e = some ⟨source, target, branch⟩

namespace WellFormed

theorem links_iff (h : g.WellFormed) {source target : NodeId} {branch : Branch} :
    g.Links source target branch ↔ ∃ e, g.edge? e = some ⟨source, target, branch⟩ := by
  constructor
  · rintro ⟨v, e, -, -, he⟩
    exact ⟨e, he⟩
  · rintro ⟨e, he⟩
    have hmem := h.source he
    obtain ⟨v, hv⟩ := contains_iff.mp (contains_of_mem_leaving hmem)
    rw [leaving_of_node? hv] at hmem
    exact ⟨v, e, hv, List.mem_reverse.mpr hmem, he⟩

/-- What the three look-ups show decides whether a graph is well-formed. -/
theorem of_eq {γ : Type} {g' : Graph γ} (h : g.WellFormed) (hedge : ∀ e, g'.edge? e = g.edge? e)
    (hleaving : ∀ n, g'.leaving n = g.leaving n)
    (hlive : ∀ n, g.contains n = true → g'.contains n = true) : g'.WellFormed where
  source he := by
    rw [hedge] at he
    rw [hleaving]
    exact h.source he
  target he := by
    rw [hedge] at he
    exact hlive _ (h.target he)
  leaving he := by
    rw [hleaving] at he
    rw [hedge]
    exact h.leaving he
  nodup n := by
    rw [hleaving]
    exact h.nodup n

theorem modifyLabel (h : g.WellFormed) (n : NodeId) (f : β → β) : (g.modifyLabel n f).WellFormed :=
  h.of_eq (g.edge?_modifyLabel n f) (g.leaving_modifyLabel n · f)
    fun m hm => by rwa [contains_modifyLabel]

theorem addNode (h : g.WellFormed) (b : β) : (g.addNode b).2.WellFormed := by
  refine h.of_eq (g.edge?_addNode b) (g.leaving_addNode · b) fun m hm => ?_
  obtain ⟨c, hc⟩ := contains_iff_label?.mp hm
  rw [contains_iff_label?, label?_addNode]
  split
  · exact ⟨b, rfl⟩
  · exact ⟨c, hc⟩

theorem link (h : g.WellFormed) {source target : NodeId} (hs : g.contains source = true)
    (ht : g.contains target = true) (branch : Branch) :
    (g.link source target branch).2.WellFormed := by
  have hfresh : ∀ n, (g.edges.size : Int) ∉ g.leaving n := by
    intro n hn
    obtain ⟨x, hx, -⟩ := h.leaving hn
    rw [edge?_size] at hx
    cases hx
  have hlive : ∀ n, g.contains n = true → (g.link source target branch).2.contains n = true :=
    fun n hn => (g.contains_link source target n branch).trans hn
  refine ⟨fun {e x} he => ?_, fun {e x} he => ?_, fun {n e} he => ?_, fun n => ?_⟩
  · rw [edge?_link] at he
    rw [leaving_link g _ _ _ _ hs]
    split at he
    · next hnew =>
      cases he
      rw [if_pos rfl, hnew]
      exact List.mem_cons_self
    · split
      · exact List.mem_cons_of_mem _ (h.source he)
      · exact h.source he
  · rw [edge?_link] at he
    split at he
    · cases he
      exact hlive _ ht
    · exact hlive _ (h.target he)
  · rw [leaving_link g _ _ _ _ hs] at he
    rw [edge?_link]
    split at he
    · next hn =>
      rcases List.mem_cons.mp he with rfl | he
      · exact ⟨_, if_pos rfl, hn.symm⟩
      · rw [if_neg (ne_of_mem_of_not_mem he (hfresh n))]
        exact h.leaving he
    · rw [if_neg (ne_of_mem_of_not_mem he (hfresh n))]
      exact h.leaving he
  · rw [leaving_link g _ _ _ _ hs]
    split
    · exact List.nodup_cons.mpr ⟨hfresh n, h.nodup n⟩
    · exact h.nodup n

theorem links_link (h : g.WellFormed) {source target s t : NodeId} {branch tag : Branch}
    (hs : g.contains source = true) (ht : g.contains target = true) :
    (g.link source target branch).2.Links s t tag ↔
      g.Links s t tag ∨ s = source ∧ t = target ∧ tag = branch := by
  rw [(h.link hs ht branch).links_iff, h.links_iff]
  simp only [edge?_link]
  constructor
  · rintro ⟨e, he⟩
    split at he
    · cases he
      exact .inr ⟨rfl, rfl, rfl⟩
    · exact .inl ⟨e, he⟩
  · rintro (⟨e, he⟩ | ⟨rfl, rfl, rfl⟩)
    · refine ⟨e, ?_⟩
      rw [if_neg, he]
      rintro rfl
      rw [edge?_size] at he
      cases he
    · exact ⟨g.edges.size, if_pos rfl⟩

theorem links_modifyLabel (h : g.WellFormed) {n s t : NodeId} {f : β → β} {tag : Branch} :
    (g.modifyLabel n f).Links s t tag ↔ g.Links s t tag := by
  rw [(h.modifyLabel n f).links_iff, h.links_iff]
  simp only [edge?_modifyLabel]

theorem links_addNode (h : g.WellFormed) {s t : NodeId} {b : β} {tag : Branch} :
    (g.addNode b).2.Links s t tag ↔ g.Links s t tag := by
  rw [(h.addNode b).links_iff, h.links_iff]
  rfl

theorem unlink (h : g.WellFormed) (e : EdgeId) : (g.unlink e).WellFormed := by
  cases hx : g.edge? e with
  | none => rwa [unlink_of_none g e hx]
  | some x =>
    refine ⟨fun {f y} hf => ?_, fun {f y} hf => ?_, fun {n f} hf => ?_, fun n => ?_⟩
    · rw [edge?_unlink] at hf
      rw [leaving_unlink g _ _ hx]
      split at hf
      · cases hf
      · next hne =>
        split
        · exact (List.mem_erase_of_ne hne).mpr (h.source hf)
        · exact h.source hf
    · rw [edge?_unlink] at hf
      split at hf
      · cases hf
      · rw [contains_unlink]
        exact h.target hf
    · rw [leaving_unlink g _ _ hx] at hf
      have hmem : f ∈ g.leaving n := by
        split at hf
        · exact List.mem_of_mem_erase hf
        · exact hf
      obtain ⟨y, hy, hsource⟩ := h.leaving hmem
      refine ⟨y, ?_, hsource⟩
      rw [edge?_unlink, if_neg, hy]
      -- A node that listed `e` is its source, and lists it no longer.
      rintro rfl
      obtain rfl := Option.some.inj (hx.symm.trans hy)
      rw [if_pos hsource.symm] at hf
      exact (h.nodup n).not_mem_erase hf
    · rw [leaving_unlink g _ _ hx]
      split
      · exact (h.nodup n).erase e
      · exact h.nodup n

/-- A node without edges can be removed. -/
theorem vacate (h : g.WellFormed) {n : NodeId}
    (hfree : ∀ e x, g.edge? e = some x → x.source ≠ n ∧ x.target ≠ n) :
    (g.vacate n).WellFormed := by
  refine ⟨fun {e x} he => ?_, fun {e x} he => ?_, fun {m e} he => ?_, fun m => ?_⟩
  · rw [edge?_vacate] at he
    rw [leaving_vacate, if_neg (hfree e x he).1]
    exact h.source he
  · rw [edge?_vacate] at he
    rw [contains, node?_vacate, if_neg (hfree e x he).2]
    exact h.target he
  · rw [leaving_vacate] at he
    rw [edge?_vacate]
    split at he
    · cases he
    · exact h.leaving he
  · rw [leaving_vacate]
    split
    · exact List.nodup_nil
    · exact h.nodup m

end WellFormed

end EvmFlow.Graph
