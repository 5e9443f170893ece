import EvmFlow.Proofs.Multigraph
import EvmFlow.Proofs.Search
import Mathlib.Logic.Relation

/-!
# The order of depth-first search

Depth-first search is said by recursion: visit a node, then search its successors in turn, and go
on with what comes after the node. The search of a graph has no recursion, it keeps what is still to
be looked at on a worklist. Both visit the same nodes in the same order.

* `Explores`: recursive depth-first search, for any list of successors of each node;
* `Graph.Follows`, `Graph.Reaches`: one live edge, and a path of live edges;
* `Graph.heads`: where the live edges out of a node lead, the oldest edge first;
* `Graph.Traversal`: the state of a loop that takes one entry from its worklist at each turn;
* `Graph.Traversal.runs_of_explores`: such a loop does what the recursion does, and comes to an end;
* `Graph.Searching.explores`: so does the search;
* `Graph.WellFormed.mem_dfs_iff`: the search finds what can be reached;
* **`Graph.Built.dfs_visits_in_preorder`**: the search of a graph is the recursive one.
-/

namespace EvmFlow

/-- `Explores next visited nodes visited'`: when the nodes `visited` were visited, recursive search
of `nodes` in turn, where `next` lists the successors of a node, ends with `visited'` visited. -/
inductive Explores (next : NodeId → List NodeId) :
    (visited nodes visited' : List NodeId) → Prop
  | nil {visited : List NodeId} : Explores next visited [] visited
  | skip {visited visited' rest : List NodeId} {n : NodeId} : n ∈ visited →
      Explores next visited rest visited' → Explores next visited (n :: rest) visited'
  | visit {visited between visited' rest : List NodeId} {n : NodeId} : n ∉ visited →
      Explores next (visited ++ [n]) (next n) between →
      Explores next between rest visited' → Explores next visited (n :: rest) visited'

section Explores

variable {next : NodeId → List NodeId} {visited visited' nodes : List NodeId}

/-- What was visited stays visited. -/
theorem Explores.subset (h : Explores next visited nodes visited') : visited ⊆ visited' := by
  induction h with
  | nil => exact List.Subset.refl _
  | skip _ _ ih => exact ih
  | visit _ _ _ ihnext ihrest =>
    exact List.Subset.trans (List.subset_append_left _ _) (List.Subset.trans ihnext ihrest)

theorem Explores.unique {visited'' : List NodeId} (h : Explores next visited nodes visited')
    (h' : Explores next visited nodes visited'') : visited' = visited'' := by
  induction h generalizing visited'' with
  | nil =>
    cases h'
    rfl
  | skip hn _ ih =>
    cases h' with
    | skip _ hrest => exact ih hrest
    | visit hnew _ _ => exact absurd hn hnew
  | visit hnew _ _ ihnext ihrest =>
    cases h' with
    | skip hn _ => exact absurd hn hnew
    | visit _ hnext hrest =>
      rw [← ihnext hnext] at hrest
      exact ihrest hrest

theorem explores_append {xs ys : List NodeId} : Explores next visited (xs ++ ys) visited' ↔
    ∃ between, Explores next visited xs between ∧ Explores next between ys visited' := by
  induction xs generalizing visited with
  | nil =>
    constructor
    · exact fun h => ⟨visited, .nil, h⟩
    · rintro ⟨between, hxs, hys⟩
      cases hxs
      exact hys
  | cons n xs ih =>
    constructor
    · intro h
      cases h with
      | skip hn h =>
        obtain ⟨between, hxs, hys⟩ := ih.mp h
        exact ⟨between, .skip hn hxs, hys⟩
      | visit hn hnext h =>
        obtain ⟨between, hxs, hys⟩ := ih.mp h
        exact ⟨between, .visit hn hnext hxs, hys⟩
    · rintro ⟨between, hxs, hys⟩
      cases hxs with
      | skip hn hxs => exact .skip hn (ih.mpr ⟨between, hxs, hys⟩)
      | visit hn hnext hxs => exact .visit hn hnext (ih.mpr ⟨between, hxs, hys⟩)

/-- Nothing is left to do where everything was visited. -/
theorem explores_of_subset (h : nodes ⊆ visited) : Explores next visited nodes visited := by
  induction nodes with
  | nil => exact .nil
  | cons n nodes ih =>
    rw [List.cons_subset] at h
    exact .skip h.1 (ih h.2)

end Explores

namespace Graph

variable {β : Type} {g : Graph β}

/-! ## Live edges -/

/-- A live edge leads from `n` to `m`. -/
def Follows (g : Graph β) (n m : NodeId) : Prop :=
  ∃ e x, g.edge? e = some x ∧ x.source = n ∧ x.target = m

/-- A path of live edges leads from `n` to `m`. -/
def Reaches (g : Graph β) : (n m : NodeId) → Prop := Relation.ReflTransGen g.Follows

/-- Where the live edges out of a node lead, in the order in which the edges were added. -/
def heads (g : Graph β) (n : NodeId) : List NodeId :=
  ((g.edgeIds.filterMap g.edge?).filter (·.source = n)).map Edge.target

theorem WellFormed.follows_iff (h : g.WellFormed) {n m : NodeId} :
    g.Follows n m ↔ ∃ branch, g.Links n m branch := by
  simp only [h.links_iff]
  constructor
  · rintro ⟨e, ⟨source, target, branch⟩, hx, rfl, rfl⟩
    exact ⟨branch, e, hx⟩
  · rintro ⟨branch, e, hx⟩
    exact ⟨e, _, hx, rfl, rfl⟩

theorem Built.ordered (h : g.Built) : g.Ordered := by
  induction h with
  | empty => exact represents_empty.ordered
  | addNode b _ ih => exact ih.addNode b
  | addEdge branch hg hadd ih =>
    obtain ⟨hs, ht, hlink⟩ := addEdge_eq_ok.mp hadd
    have hadded := ih.link hg.incident hs ht branch
    rwa [hlink] at hadded
  | removeEdge _ hremove ih =>
    obtain ⟨-, rfl⟩ := removeEdge_eq_ok.mp hremove
    exact ih.unlink _
  | removeNode _ hremove ih =>
    obtain ⟨-, rfl⟩ := removeNode_eq_ok.mp hremove
    exact ih.discard _
  | retainNodes _ hretain ih =>
    rw [apply_retainNodes] at hretain
    cases hretain
    exact ih.foldl_discard _
  | modifyLabel n f _ ih =>
    refine ih.of_sublist (fun m => ?_) fun m => ?_
    · rw [leaving_modifyLabel]
    · rw [reverse_modifyLabel, leaving_modifyLabel]

/-- The edges that a node lists are the live edges that leave it, the oldest first. -/
theorem Ordered.reverse_leaving (h : g.Ordered) (hg : g.Incident) (n : NodeId) :
    (g.leaving n).reverse = g.edgeIds.filter fun e => (g.edge? e).any (·.source = n) := by
  refine (List.pairwise_reverse.mpr (h.leaving n)).eq_of_mem_iff
    (g.pairwise_edgeIds.filter _) fun e => ?_
  rw [List.mem_reverse, hg.mem_leaving, List.mem_filter, mem_edgeIds, Option.any_eq_true]
  constructor
  · rintro ⟨x, hx, hsource⟩
    exact ⟨⟨x, hx⟩, x, hx, decide_eq_true hsource⟩
  · rintro ⟨-, x, hx, hsource⟩
    exact ⟨x, hx, of_decide_eq_true hsource⟩

theorem targets_eq (g : Graph β) (n : NodeId) :
    g.targets n = (g.leaving n).reverse.filterMap fun e => (g.edge? e).map Edge.target := by
  unfold targets leaving
  cases g.node? n <;> rfl

theorem Built.targets_eq_heads (h : g.Built) : g.targets = g.heads := by
  funext n
  rw [targets_eq, h.ordered.reverse_leaving h.incident, heads, List.filterMap_filter,
    List.filter_filterMap, List.map_filterMap]
  apply List.filterMap_congr
  intro e _
  cases g.edge? e with
  | none => rfl
  | some x => by_cases hx : x.source = n <;> simp [hx]

/-- **The search finds exactly what a path of live edges leads to.** -/
theorem WellFormed.mem_dfs_iff (h : g.WellFormed) {start : NodeId} {found : List NodeId}
    (hdfs : g.dfs start = .ok found) {n : NodeId} : n ∈ found ↔ g.Reaches start n := by
  constructor
  · refine h.dfs_least hdfs .refl (fun m hm t branch hlink => ?_) n
    exact hm.tail (h.follows_iff.mpr ⟨branch, hlink⟩)
  · intro hn
    obtain ⟨hstart, hclosed⟩ := h.dfs_closed hdfs
    induction hn with
    | refl => exact hstart
    | tail _ hfollows ih =>
      obtain ⟨branch, hlink⟩ := h.follows_iff.mp hfollows
      exact hclosed _ ih hlink

/-! ## The loop -/

/-- The nodes visited so far, in order, and the nodes still to be looked at. -/
structure Traversal where
  order : List NodeId := []
  worklist : List NodeId

namespace Traversal

variable (g) in
/-- One turn of the loop: the first entry of the worklist is dropped if it was visited, and else
visited and replaced by those of its successors that were not visited yet. -/
def turn : Traversal → Option Traversal
  | ⟨_, []⟩ => none
  | ⟨order, n :: rest⟩ =>
    if n ∈ order then some ⟨order, rest⟩
    else
      let order := order ++ [n]
      some ⟨order, (g.targets n).filter (· ∉ order) ++ rest⟩

variable (g) in
/-- Turns of the loop lead from one state to another. -/
def Runs : Traversal → Traversal → Prop := Relation.ReflTransGen fun s s' => s.turn g = some s'

end Traversal

/-- The loop does what recursion does, with whatever is left on its worklist, and although it leaves
out successors that it has visited before. -/
theorem Traversal.runs_of_explores {visited nodes visited' : List NodeId}
    (h : Explores g.targets visited nodes visited') {gone : List NodeId} (hgone : gone ⊆ visited)
    (rest : List NodeId) :
    Traversal.Runs g ⟨visited, nodes.filter (· ∉ gone) ++ rest⟩ ⟨visited', rest⟩ := by
  induction h generalizing gone rest with
  | nil => exact .refl
  | @skip visited visited' nodes n hn _ ih =>
    by_cases hleft : n ∈ gone
    · rw [List.filter_cons_of_neg (by simpa using hleft)]
      exact ih hgone rest
    · rw [List.filter_cons_of_pos (by simpa using hleft)]
      exact .head (if_pos hn) (ih hgone rest)
  | @visit visited between visited' nodes n hn hnext _ ihnext ihrest =>
    have hkept : n ∉ gone := fun hleft => hn (hgone hleft)
    have hbetween : gone ⊆ between :=
      List.Subset.trans hgone (List.Subset.trans (List.subset_append_left _ _) hnext.subset)
    rw [List.filter_cons_of_pos (by simpa using hkept)]
    exact .head (if_neg hn)
      ((ihnext (List.Subset.refl _) (nodes.filter (· ∉ gone) ++ rest)).trans (ihrest hbetween rest))

/-! ## The search -/

/-- **The search visits what recursion visits, in the same order.** -/
theorem Searching.explores (hg : g.WellFormed) {visits : Nat} {seen : NodeSet}
    {done worklist : List NodeId} (h : g.Searching visits seen done worklist) :
    Explores g.targets done.reverse worklist (done.reverse ++ g.preorder visits seen worklist) := by
  induction visits generalizing seen done worklist with
  | zero =>
    rw [preorder, List.append_nil]
    exact explores_of_subset fun n hn => List.mem_reverse.mpr (h.mem_done (h.worklist n hn))
  | succ visits ih =>
    have hskipped : worklist.takeWhile seen.contains ⊆ done.reverse := fun n hn =>
      List.mem_reverse.mpr ((h.seen n).mp (List.mem_takeWhile_imp hn))
    unfold preorder
    rw [← List.takeWhile_append_dropWhile (p := seen.contains) (l := worklist)]
    refine explores_append.mpr ⟨done.reverse, explores_of_subset hskipped, ?_⟩
    rw [List.takeWhile_append_dropWhile]
    cases hw : worklist.dropWhile seen.contains with
    | nil =>
      rw [List.append_nil]
      exact .nil
    | cons n rest =>
      have hvisit := h.visit hg hw
      have hnew : n ∉ done := (List.nodup_cons.mp hvisit.nodup).1
      have hlater := ih hvisit
      rw [List.reverse_cons, List.append_assoc, List.singleton_append] at hlater
      obtain ⟨between, hnext, hrest⟩ := explores_append.mp hlater
      exact .visit (mt List.mem_reverse.mp hnew) hnext hrest

/-- **Depth-first search visits the nodes in preorder.** From a live node of a graph that the
operations have made, its loop comes to an end. It visits the nodes that a path of live edges leads
to, each once, in the order in which recursive search visits them that follows the edges out of a
node from the oldest to the latest. -/
theorem Built.dfs_visits_in_preorder (h : g.Built) {start : NodeId}
    (hstart : g.contains start = true) :
    ∃ order, g.dfs start = .ok order ∧
      Traversal.Runs g { worklist := [start] } { order, worklist := [] } ∧
      (∀ n, n ∈ order ↔ g.Reaches start n) ∧ order.Nodup ∧
      ∀ visited, Explores g.heads [] [start] visited ↔ visited = order := by
  have hg := h.incident.forward
  have hdfs : g.dfs start = .ok _ := dfs_eq_ok.mpr ⟨hstart, rfl⟩
  have hexplores : Explores g.targets [] [start] (g.preorder g.nodes.size {} [start]) := by
    have hsearch := (searching_start hstart).explores hg
    rwa [List.reverse_nil, List.nil_append] at hsearch
  refine ⟨_, hdfs, ?_, fun n => hg.mem_dfs_iff hdfs, nodup_dfs hdfs, fun visited => ?_⟩
  · exact Traversal.runs_of_explores hexplores (List.Subset.refl _) []
  · rw [← h.targets_eq_heads]
    constructor
    · exact fun hvisited => hvisited.unique hexplores
    · rintro rfl
      exact hexplores

/-- Six nodes with a cycle, a loop and parallel edges between them. -/
def tangle : Graph Char :=
  [(0, 5), (0, 2), (0, 1), (2, 2), (2, 3), (2, 3), (3, 0), (3, 4), (1, 3), (4, 1)].foldl
    (fun g e => (g.link e.1 e.2 .static).2)
    (['a', 'b', 'c', 'd', 'e', 'f'].foldl (fun g b => (g.addNode b).2) {})

/-- The same with holes in place of an edge and of a node, so that nothing leads to one node. -/
def torn : Graph Char := (tangle.unlink 7).discard 5

theorem dfs_visits_in_preorder_torn : torn.Built ∧ torn.contains 0 = true ∧
    ∃ order, torn.dfs 0 = .ok order ∧ order = [0, 2, 3, 1] ∧
      Traversal.Runs torn { worklist := [0] } { order, worklist := [] } ∧
      (∀ n, n ∈ order ↔ torn.Reaches 0 n) ∧ order.Nodup ∧
      ∀ visited, Explores torn.heads [] [0] visited ↔ visited = order := by
  have htangle : tangle.Built := (Built.empty.foldl_addNode _).foldl_link (by decide)
  have hcut : (tangle.unlink 7).Built := .removeEdge htangle (removeEdge_eq_ok.mpr ⟨⟨_, rfl⟩, rfl⟩)
  have hbuilt : torn.Built :=
    .removeNode (n := 5) (b := 'f') hcut (removeNode_eq_ok.mpr ⟨by decide, rfl⟩)
  have hlive : torn.contains 0 = true := by decide
  obtain ⟨order, hdfs, hrest⟩ := hbuilt.dfs_visits_in_preorder hlive
  have horder : torn.dfs 0 = .ok [0, 2, 3, 1] := by decide
  exact ⟨hbuilt, hlive, order, hdfs, Except.ok.inj (hdfs.symm.trans horder), hrest⟩

end Graph

end EvmFlow
