import EvmFlow.Graph.Search
import EvmFlow.Proofs.Graph
import Mathlib.Data.List.Perm.Subperm
import Mathlib.Data.List.TakeWhile
import Std.Data.TreeSet.Lemmas

/-!
# Depth-first search finds what can be reached

Every visit of the search is of a live node that was not visited before, so that the search cannot
run out of visits while a node is left on its worklist. It visits nothing that edges do not lead to.

* `Graph.WellFormed.mem_targets`: the targets of a node are those its edges lead to;
* `Graph.Searching`: the state of the search, with the nodes visited so far;
* `Graph.Searching.preorder_closed`: what is on the worklist is visited, and with a node all its
  targets;
* **`Graph.WellFormed.dfs_closed`**: the search finds its start and is closed under edges;
* **`Graph.WellFormed.dfs_least`**: what it finds lies in every set with these two properties;
* `Graph.nodup_dfs`: it finds no node twice.
-/

namespace EvmFlow.Graph

variable {β : Type} {g : Graph β}

theorem WellFormed.mem_targets (h : g.WellFormed) {n t : NodeId} :
    t ∈ g.targets n ↔ ∃ branch, g.Links n t branch := by
  unfold targets
  constructor
  · intro ht
    cases hv : g.node? n with
    | none => simp [hv] at ht
    | some v =>
      rw [hv] at ht
      obtain ⟨e, he, hmap⟩ := List.mem_filterMap.mp ht
      obtain ⟨x, hx, rfl⟩ := Option.map_eq_some_iff.mp hmap
      have hmem : e ∈ g.leaving n := by
        rw [leaving_of_node? hv]
        exact List.mem_reverse.mp he
      obtain ⟨y, hy, rfl⟩ := h.leaving hmem
      obtain rfl := Option.some.inj (hx.symm.trans hy)
      exact ⟨x.branch, v, e, hv, he, hx⟩
  · rintro ⟨branch, v, e, hv, he, hx⟩
    rw [hv]
    exact List.mem_filterMap.mpr ⟨e, he, by rw [hx]; rfl⟩

theorem WellFormed.contains_of_mem_targets (h : g.WellFormed) {n t : NodeId}
    (ht : t ∈ g.targets n) : g.contains t = true := by
  obtain ⟨branch, v, e, -, -, he⟩ := h.mem_targets.mp ht
  exact h.target he

/-- The state of the search after visits of the nodes `done`, with at most `visits` to come. -/
structure Searching (g : Graph β) (visits : Nat) (seen : NodeSet) (done worklist : List NodeId) :
    Prop where
  seen : ∀ n, seen.contains n = true ↔ n ∈ done
  nodup : done.Nodup
  live : ∀ n ∈ done, g.contains n = true
  worklist : ∀ n ∈ worklist, g.contains n = true
  enough : g.nodeIds.length ≤ done.length + visits

namespace Searching

variable {visits : Nat} {seen : NodeSet} {done worklist : List NodeId}

/-- Without visits to come, every live node was visited. -/
theorem mem_done (h : g.Searching 0 seen done worklist) {n : NodeId} (hn : g.contains n = true) :
    n ∈ done := by
  have hsub : done ⊆ g.nodeIds := fun m hm => mem_nodeIds.mpr (h.live m hm)
  have hperm := (List.subperm_of_subset h.nodup hsub).perm_of_length_le h.enough
  exact hperm.mem_iff.mpr (mem_nodeIds.mpr hn)

/-- The state after one more visit. -/
theorem visit (hg : g.WellFormed) (h : g.Searching (visits + 1) seen done worklist) {n : NodeId}
    {rest : List NodeId} (hn : worklist.dropWhile seen.contains = n :: rest) :
    g.Searching visits (seen.insert n) (n :: done) (g.targets n ++ rest) := by
  have hsub : ∀ m ∈ n :: rest, m ∈ worklist := by
    intro m hm
    rw [← hn] at hm
    exact (List.dropWhile_sublist _).subset hm
  have hnew : n ∉ done := by
    have hhead := List.head?_dropWhile_not seen.contains worklist
    rw [hn] at hhead
    rw [← h.seen, Bool.not_eq_true]
    simpa using hhead
  refine ⟨fun m => ?_, List.nodup_cons.mpr ⟨hnew, h.nodup⟩, ?_, ?_, ?_⟩
  · rw [Std.TreeSet.contains_insert, Bool.or_eq_true, h.seen, List.mem_cons, beq_iff_eq,
      Std.LawfulEqCmp.compare_eq_iff_eq, eq_comm]
  · exact List.forall_mem_cons.mpr ⟨h.worklist n (hsub n List.mem_cons_self), h.live⟩
  · intro m hm
    rcases List.mem_append.mp hm with hm | hm
    · exact hg.contains_of_mem_targets hm
    · exact h.worklist m (hsub m (List.mem_cons_of_mem _ hm))
  · have := h.enough
    rw [List.length_cons]
    omega

/-- The search visits what is on the worklist, and with each node it visits all its targets. -/
theorem preorder_closed (hg : g.WellFormed) (h : g.Searching visits seen done worklist) :
    (∀ n ∈ worklist, n ∈ done ∨ n ∈ g.preorder visits seen worklist) ∧
      ∀ n ∈ g.preorder visits seen worklist, ∀ t ∈ g.targets n,
        t ∈ done ∨ t ∈ g.preorder visits seen worklist := by
  induction visits generalizing seen done worklist with
  | zero => exact ⟨fun n hn => .inl (h.mem_done (h.worklist n hn)), fun n hn => by cases hn⟩
  | succ visits ih =>
    have hskipped : ∀ m ∈ worklist, m ∈ done ∨ m ∈ worklist.dropWhile seen.contains := by
      intro m hm
      rw [← List.takeWhile_append_dropWhile (p := seen.contains) (l := worklist)] at hm
      rcases List.mem_append.mp hm with hm | hm
      · exact .inl ((h.seen m).mp (List.mem_takeWhile_imp hm))
      · exact .inr hm
    unfold preorder
    cases hw : worklist.dropWhile seen.contains with
    | nil =>
      refine ⟨fun m hm => ?_, fun n hn => by cases hn⟩
      rcases hskipped m hm with hm | hm
      · exact .inl hm
      · rw [hw] at hm
        cases hm
    | cons n rest =>
      obtain ⟨hwork, hclosed⟩ := ih (h.visit hg hw)
      -- What is done after this visit was done before, or is visited now.
      have hlater : ∀ {m}, (m ∈ n :: done ∨
          m ∈ g.preorder visits (seen.insert n) (g.targets n ++ rest)) →
          m ∈ done ∨ m ∈ n :: g.preorder visits (seen.insert n) (g.targets n ++ rest) := by
        intro m hm
        simp only [List.mem_cons] at hm ⊢
        tauto
      refine ⟨fun m hm => ?_, fun m hm t ht => ?_⟩
      · rcases hskipped m hm with hm | hm
        · exact .inl hm
        · rw [hw] at hm
          rcases List.mem_cons.mp hm with rfl | hm
          · exact .inr List.mem_cons_self
          · exact hlater (hwork m (List.mem_append_right _ hm))
      · rcases List.mem_cons.mp hm with rfl | hm
        · exact hlater (hwork t (List.mem_append_left _ ht))
        · exact hlater (hclosed m hm t ht)

end Searching

section Preorder

variable {visits : Nat} {seen : NodeSet} {worklist : List NodeId}

/-- The search stays in every set that holds the worklist and is closed under edges. -/
theorem preorder_least {S : NodeId → Prop} (hclosed : ∀ n, S n → ∀ t ∈ g.targets n, S t)
    (hwork : ∀ n ∈ worklist, S n) : ∀ n ∈ g.preorder visits seen worklist, S n := by
  induction visits generalizing seen worklist with
  | zero => exact fun n hn => by cases hn
  | succ visits ih =>
    unfold preorder
    cases hw : worklist.dropWhile seen.contains with
    | nil => exact fun n hn => by cases hn
    | cons n rest =>
      have hrest : ∀ m ∈ n :: rest, S m := by
        intro m hm
        rw [← hw] at hm
        exact hwork m ((List.dropWhile_sublist _).subset hm)
      have hn := hrest n List.mem_cons_self
      refine List.forall_mem_cons.mpr ⟨hn, ih fun m hm => ?_⟩
      rcases List.mem_append.mp hm with hm | hm
      · exact hclosed n hn m hm
      · exact hrest m (List.mem_cons_of_mem _ hm)

/-- The search visits no node twice, and none that was seen before. -/
theorem nodup_preorder : (g.preorder visits seen worklist).Nodup ∧
    ∀ n ∈ g.preorder visits seen worklist, seen.contains n = false := by
  induction visits generalizing seen worklist with
  | zero => exact ⟨List.nodup_nil, fun n hn => by cases hn⟩
  | succ visits ih =>
    unfold preorder
    cases hw : worklist.dropWhile seen.contains with
    | nil => exact ⟨List.nodup_nil, fun n hn => by cases hn⟩
    | cons n rest =>
      obtain ⟨hnodup, hnew⟩ := @ih (seen.insert n) (g.targets n ++ rest)
      have hinsert : ∀ m, (seen.insert n).contains m = false ↔ n ≠ m ∧ seen.contains m = false := by
        intro m
        simp [Std.TreeSet.contains_insert]
      have hhead := List.head?_dropWhile_not seen.contains worklist
      rw [hw] at hhead
      refine ⟨List.nodup_cons.mpr ⟨fun hn => ?_, hnodup⟩,
        List.forall_mem_cons.mpr ⟨by simpa using hhead, fun m hm => ?_⟩⟩
      · exact ((hinsert n).mp (hnew n hn)).1 rfl
      · exact ((hinsert m).mp (hnew m hm)).2

end Preorder

section Dfs

variable {start : NodeId} {found : List NodeId}

theorem dfs_eq_ok : g.dfs start = .ok found ↔
    g.contains start = true ∧ g.preorder g.nodes.size {} [start] = found := by
  unfold dfs
  rw [contains_iff]
  cases hv : g.node? start with
  | none => simp [node, hv, bind, Except.bind]
  | some v => simp [node, hv, bind, Except.bind, pure, Except.pure]

theorem nodup_dfs (hdfs : g.dfs start = .ok found) : found.Nodup := by
  obtain ⟨-, rfl⟩ := dfs_eq_ok.mp hdfs
  exact nodup_preorder.1

/-- The state in which the search starts. -/
theorem searching_start (hlive : g.contains start = true) :
    g.Searching g.nodes.size {} [] [start] := by
  refine ⟨fun n => by simp, List.nodup_nil, fun n hn => absurd hn List.not_mem_nil, ?_, ?_⟩
  · intro n hn
    rwa [List.mem_singleton.mp hn]
  · have hlen : g.nodeIds.length ≤ _ := List.length_filter_le _ _
    rw [List.length_map, List.length_range] at hlen
    rwa [List.length_nil, Nat.zero_add]

/-- **The search misses nothing**: it finds its start, and with each node all targets of its
edges. -/
theorem WellFormed.dfs_closed (h : g.WellFormed) (hdfs : g.dfs start = .ok found) :
    start ∈ found ∧ ∀ n ∈ found, ∀ {t branch}, g.Links n t branch → t ∈ found := by
  obtain ⟨hlive, rfl⟩ := dfs_eq_ok.mp hdfs
  obtain ⟨hwork, hclosed⟩ := (searching_start hlive).preorder_closed h
  refine ⟨(hwork start List.mem_cons_self).resolve_left List.not_mem_nil, ?_⟩
  intro n hn t branch hlink
  exact (hclosed n hn t (h.mem_targets.mpr ⟨branch, hlink⟩)).resolve_left List.not_mem_nil

/-- **The search finds nothing else**: a set that holds the start and is closed under edges holds
every node found. -/
theorem WellFormed.dfs_least (h : g.WellFormed) (hdfs : g.dfs start = .ok found)
    {S : NodeId → Prop} (hstart : S start)
    (hclosed : ∀ n, S n → ∀ {t branch}, g.Links n t branch → S t) : ∀ n ∈ found, S n := by
  obtain ⟨-, rfl⟩ := dfs_eq_ok.mp hdfs
  refine preorder_least (fun n hn t ht => ?_) fun n hn => ?_
  · obtain ⟨branch, hlink⟩ := h.mem_targets.mp ht
    exact hclosed n hn hlink
  · rwa [List.mem_singleton.mp hn]

theorem WellFormed.contains_of_dfs (h : g.WellFormed) (hdfs : g.dfs start = .ok found) :
    ∀ n ∈ found, g.contains n = true := by
  refine h.dfs_least hdfs (dfs_eq_ok.mp hdfs).1 fun n _ t branch hlink => ?_
  obtain ⟨v, e, -, -, he⟩ := hlink
  exact h.target he

end Dfs

end EvmFlow.Graph
