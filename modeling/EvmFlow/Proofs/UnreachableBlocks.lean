import EvmFlow.Proofs.DepthFirst
import EvmFlow.Proofs.Tracking

/-!
# Removal of unreachable blocks is exact

A program loses exactly the blocks to which no path of edges leads from its start node. The
synthetic nodes stay, with or without a path to them, and edges stay where both of their ends do.
What such a synthetic node alone leads to does not stay.

* `Graph.Incident.edge?_retain_iff`: the edges that are left when nodes were removed one by one;
* `Program.Pared`: a program and what is left of it without the blocks that cannot be reached;
* `Program.Retained.pared`: the nodes that a search finds leave just that;
* **`Program.removeUnreachable_exact`**: it always succeeds.
-/

namespace EvmFlow

namespace Graph

variable {β : Type} {g g' : Graph β}

/-- Between live nodes, an edge of a restricted graph is an edge of the graph. -/
theorem Incident.edge?_retain_iff (h : g.Incident) {keep : NodeId → Bool} {e : EdgeId} {x : Edge} :
    (g.retain keep).edge? e = some x ↔ g.edge? e = some x ∧
      (g.retain keep).contains x.source = true ∧ (g.retain keep).contains x.target = true := by
  rw [h.edge?_retain, Option.filter_eq_some_iff, contains_retain, contains_retain]
  refine and_congr_right fun hx => ?_
  rw [h.contains_source hx, h.forward.target hx, Bool.and_true, Bool.and_true, Bool.and_eq_true]

theorem mem_refused_iff {keep : NodeId → Bool} {n : NodeId} : n ∈ g.refused keep ↔
    g.contains n = true ∧ (g.retain keep).contains n = false := by
  rw [mem_refused, contains_retain]
  refine and_congr_right fun hn => ?_
  rw [hn, Bool.and_true]

theorem pairwise_refused (g : Graph β) (keep : NodeId → Bool) :
    (g.refused keep).Pairwise (· < ·) :=
  g.pairwise_nodeIds.filter _

/-- Without a path that leaves the nodes that stay, the same nodes can be reached. -/
theorem reaches_congr {start : NodeId} (hfewer : ∀ n m, g'.Follows n m → g.Follows n m)
    (hkept : ∀ n m, g.Reaches start n → g.Follows n m → g'.Follows n m) (n : NodeId) :
    g'.Reaches start n ↔ g.Reaches start n := by
  constructor
  · exact fun hn => Relation.ReflTransGen.mono hfewer start n hn
  · intro hn
    induction hn with
    | refl => exact .refl
    | tail hn hfollows ih => exact ih.tail (hkept _ _ hn hfollows)

end Graph

namespace Program

/-- `q` is what is left of `p` without the blocks that its start node cannot reach, and these are
the nodes `removed`. -/
structure Pared (p q : Program) (removed : List NodeId) : Prop where
  /-- A node stays if it is synthetic or can be reached. -/
  live : ∀ n, q.graph.contains n = true ↔ p.graph.contains n = true ∧
    (p.isSentinel n = true ∨ p.graph.Reaches p.sentinels.start n)
  /-- An edge stays, under its handle and with its tag, if both of its ends do. -/
  edge : ∀ e x, q.graph.edge? e = some x ↔ p.graph.edge? e = some x ∧
    q.graph.contains x.source = true ∧ q.graph.contains x.target = true
  /-- Nodes list their edges as the operations of a graph would have them. -/
  built : q.graph.Built
  ascending : removed.Pairwise (· < ·)
  removed : ∀ n, n ∈ removed ↔ p.graph.contains n = true ∧ q.graph.contains n = false
  /-- A jump target stays if its node does. -/
  target : ∀ (k : Int) n, q.jumpTargets[k]? = some n ↔
    p.jumpTargets[k]? = some n ∧ q.graph.contains n = true
  block : ∀ n, q.graph.contains n = true → q.graph.label? n = p.graph.label? n
  /-- Symbols and all else stay as they are. -/
  others : q = { p with graph := q.graph, jumpTargets := q.jumpTargets }
  reaches : ∀ n, q.graph.Reaches q.sentinels.start n ↔ p.graph.Reaches p.sentinels.start n

variable {p q : Program}

theorem Retained.pared (hp : p.graph.Built) {found : List NodeId}
    (hfound : p.reachable = .ok found) (h : Retained p q found)
    (htargets : ∀ (k : Int) n, p.jumpTargets[k]? = some n → p.graph.contains n = true) :
    p.Pared q (p.graph.refused fun n => p.isSentinel n || found.contains n) := by
  have hi := hp.incident
  have hg := hi.forward
  have hreach : ∀ n, n ∈ found ↔ p.graph.Reaches p.sentinels.start n := fun n =>
    hg.mem_dfs_iff hfound
  have hlive : ∀ n, q.graph.contains n = true ↔ p.graph.contains n = true ∧
      (p.isSentinel n = true ∨ p.graph.Reaches p.sentinels.start n) := by
    intro n
    rw [h.graph, Graph.contains_retain, Bool.and_eq_true, Bool.or_eq_true, List.contains_iff_mem,
      hreach, and_comm]
  refine ⟨hlive, fun e x => ?_, ?_, Graph.pairwise_refused _ _, fun n => ?_, fun k n => ?_,
    fun n hn => ?_, ?_, ?_⟩
  · rw [h.graph]
    exact hi.edge?_retain_iff
  · rw [h.graph]
    exact hp.retainNodes (Graph.apply_retainNodes _ _)
  · rw [h.graph]
    exact Graph.mem_refused_iff
  · constructor
    · exact fun hk => ⟨h.fewer k n hk, h.live k n hk (htargets k n (h.fewer k n hk))⟩
    · exact fun hk => h.kept k n hk.1 hk.2
  · rw [h.graph, Graph.contains_retain, Bool.and_eq_true] at hn
    rw [h.graph, Graph.label?_retain, if_pos hn.1]
  · rw [h.others]
  · rw [h.sentinels]
    apply Graph.reaches_congr
    · intro n m hfollows
      obtain ⟨branch, hlink⟩ := (h.incident hi).forward.follows_iff.mp hfollows
      exact hg.follows_iff.mpr ⟨branch, h.links_of_links hi hlink⟩
    · intro n m hn hfollows
      obtain ⟨branch, hlink⟩ := hg.follows_iff.mp hfollows
      exact (h.incident hi).forward.follows_iff.mpr
        ⟨branch, h.links hi ((hreach n).mpr hn) hlink⟩

/-- **Removal of unreachable blocks is exact.** If the operations of a graph made that of a program,
and the start node and the nodes of all jump targets are live, then the removal succeeds. What stays
are the synthetic nodes and the nodes that a path leads to from the start, with all edges and jump
targets between them, and the removed nodes are returned in ascending order. -/
theorem removeUnreachable_exact (hgraph : p.graph.Built)
    (hstart : p.graph.contains p.sentinels.start = true)
    (htargets : ∀ (k : Int) n, p.jumpTargets[k]? = some n → p.graph.contains n = true) :
    ∃ removed q, p.removeUnreachable = .ok (removed, q) ∧ p.Pared q removed := by
  have hfound : p.reachable = .ok _ := Graph.dfs_eq_ok.mpr ⟨hstart, rfl⟩
  obtain ⟨q, hq, hretained⟩ := exists_removeUnreachable hgraph.incident.forward hfound
  exact ⟨_, q, hq, hretained.pared hgraph hfound htargets⟩

/-- Seven nodes, of which the first four are synthetic. The start node leads to a block and on to
the terminator. A second block is the target of the jump table only, and a third one of itself. -/
def stranded : Program where
  code := #[]
  graph := [(0, 4), (4, 2), (1, 5), (5, 4), (6, 6)].foldl (fun g e => (g.link e.1 e.2 .static).2)
    ((List.replicate 7 { opcodes := ⟨0, 0⟩ }).foldl (fun g b => (g.addNode b).2) {})
  sentinels := ⟨0, 1, 2, 3⟩
  jumpTargets := (({} : JumpTargets).insert 10 4).insert 20 5

theorem removeUnreachable_exact_stranded : stranded.graph.Built ∧
    stranded.graph.contains stranded.sentinels.start = true ∧
    (∀ (k : Int) n, stranded.jumpTargets[k]? = some n → stranded.graph.contains n = true) ∧
    ∃ removed q, stranded.removeUnreachable = .ok (removed, q) ∧ removed = [5, 6] ∧
      stranded.Pared q removed := by
  have hgraph : stranded.graph.Built :=
    (Graph.Built.empty.foldl_addNode _).foldl_link (by decide)
  have hstart : stranded.graph.contains stranded.sentinels.start = true := by decide
  have htargets : ∀ (k : Int) n, stranded.jumpTargets[k]? = some n →
      stranded.graph.contains n = true := by
    intro k n hk
    rw [stranded, Std.TreeMap.getElem?_insert, Std.TreeMap.getElem?_insert] at hk
    split at hk
    · cases hk
      decide
    · split at hk
      · cases hk
        decide
      · cases hk
  obtain ⟨removed, q, hq, hpared⟩ := removeUnreachable_exact hgraph hstart htargets
  have hremoved : stranded.removeUnreachable.toOption.map Prod.fst = some [5, 6] := by decide
  rw [hq] at hremoved
  exact ⟨hgraph, hstart, htargets, removed, q, hq, Option.some.inj hremoved, hpared⟩

end Program

end EvmFlow
