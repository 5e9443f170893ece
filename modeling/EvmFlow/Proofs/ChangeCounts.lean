import EvmFlow.Proofs.BlockSplitting
import EvmFlow.Proofs.NeededCode
import EvmFlow.Proofs.StaticJumps
import EvmFlow.Proofs.UnreachableBlocks
import Mathlib.Algebra.BigOperators.Group.List.Basic

/-!
# The number of changes

A pass adds the number of its changes to its count. For dead code elimination these are the blocks
that are gone and the instructions that are gone from the blocks that are left; for lifting they are
the blocks that are lifted now and the edges into the jump table that were replaced. No changes are
counted exactly if the pass has left the graph with its blocks, the symbols and the jump targets as
they were.

* `Program.Unchanged`, `Program.Counts`: what is counted, and what no changes mean;
* `Program.lostBlocks`, `Program.lostInstructions`: what dead code elimination has removed;
* `Program.newlyLifted`, `Program.replacedEdges`: what lifting has changed;
* `Program.removeDead_eq_self`, `Program.liftAt_eq_self`: steps that count nothing change nothing;
* `Program.eq_filter_of_liftAt`: the blocks that are lifted are the blocks that were not;
* **`Program.passes_count_changes`**: the counts of both passes, on all that passes make of the
  program of a code.
-/

namespace EvmFlow

/-! ## Steps that count nothing -/

namespace Sweep

variable {s s' : Sweep} {nodes : List NodeId} {sweeps : Nat}

theorem removed_le_of_repeat (h : Sweep.repeat nodes sweeps s = .ok s') :
    s.removed ≤ s'.removed := by
  induction sweeps generalizing s with
  | zero =>
    cases h
    exact Nat.le_refl _
  | succ sweeps ih =>
    obtain ⟨s₁, hs₁, h⟩ := bind_eq_ok.mp h
    have hle := removed_le_of_foldlM hs₁
    split at h
    · cases h
      exact hle
    · exact Nat.le_trans hle (ih h)

/-- Sweeps that remove nothing leave everything as it is. -/
theorem repeat_eq_self (h : Sweep.repeat nodes sweeps s = .ok s')
    (hsame : s'.removed = s.removed) : s' = s := by
  cases sweeps with
  | zero =>
    cases h
    rfl
  | succ sweeps =>
    obtain ⟨s₁, hs₁, h⟩ := bind_eq_ok.mp h
    have hle := removed_le_of_foldlM hs₁
    by_cases hmore : s₁.removed = s.removed
    · rw [if_pos hmore] at h
      cases h
      exact (foldlM_idle hs₁ hmore).1
    · rw [if_neg hmore] at h
      have hle' := removed_le_of_repeat h
      omega

end Sweep

namespace Program

variable {p q r : Program} {n m : NodeId} {nodes lifted : List NodeId}

theorem removeDead_eq_self (h : p.removeDead = .ok (0, q)) : q = p := by
  obtain ⟨s, hs, h⟩ := bind_eq_ok.mp h
  obtain ⟨hzero, rfl⟩ := Prod.mk.inj (Except.ok.inj h)
  rw [Sweep.repeat_eq_self hs hzero]

theorem removeUnreachable_eq_self (hp : p.graph.WellFormed)
    (h : p.removeUnreachable = .ok ([], q)) : q = p := by
  obtain ⟨found, hfound, hnone, -⟩ := exists_retained hp h
  have hconnected : p.Connected := by
    refine ⟨found, hfound, fun n hn => ?_⟩
    have hkept : p.graph.contains n = true := hn
    rw [← Graph.retain_of_refused_eq_nil hnone.symm, Graph.contains_retain] at hkept
    simpa [hn] using hkept
  rw [hconnected.removeUnreachable] at h
  exact (congrArg Prod.snd (Except.ok.inj h)).symm

theorem liftBlock_eq_self (h : p.liftBlock n = .ok (false, q)) : q = p := by
  obtain ⟨b, -, h⟩ := bind_eq_ok.mp h
  split at h
  · cases h
    rfl
  · obtain ⟨ops, -, h⟩ := bind_eq_ok.mp h
    obtain ⟨s, -, h⟩ := bind_eq_ok.mp h
    obtain ⟨info, -, h⟩ := bind_eq_ok.mp h
    cases h

theorem liftAt_eq_self (h : p.liftAt nodes = .ok ([], q)) : q = p := by
  induction nodes generalizing p with
  | nil =>
    cases h
    rfl
  | cons n rest ih =>
    obtain ⟨⟨changed, r⟩, hn, h⟩ := bind_eq_ok.mp h
    obtain ⟨⟨lifted', r'⟩, hrest, h⟩ := bind_eq_ok.mp h
    cases changed with
    | true => cases h
    | false =>
      cases h
      rw [ih hrest, liftBlock_eq_self hn]

theorem resolveJumps_eq_self (h : p.resolveJumps = .ok (0, q)) : q = p := by
  obtain ⟨found, -, h⟩ := bind_eq_ok.mp h
  obtain ⟨jumps, -, h⟩ := bind_eq_ok.mp h
  obtain ⟨g, hg, h⟩ := bind_eq_ok.mp h
  obtain ⟨hnone, rfl⟩ := Prod.mk.inj (Except.ok.inj h)
  rw [List.length_eq_zero_iff.mp hnone] at hg
  cases hg
  rfl

theorem narrowTypes_eq_self (h : p.narrowTypes [] = .ok q) : q = p := by
  obtain ⟨found, -, h⟩ := bind_eq_ok.mp h
  have hnone : found.filter (Std.TreeSet.ofList ([] : List NodeId) : NodeSet).contains = [] := by
    simp
  rw [hnone] at h
  cases h
  rfl

/-! ## What is counted -/

/-- `q` has the graph of `p`, with the blocks in it, its symbols and its jump targets. -/
structure Unchanged (p q : Program) : Prop where
  graph : q.graph = p.graph
  symbols : q.symbols = p.symbols
  jumpTargets : q.jumpTargets = p.jumpTargets

/-- `q` comes from `p` by a pass that has counted its changes. -/
structure Counts (p q : Program) (pass : Pass) (changes : Nat) : Prop where
  tally : q.tally = p.tally.add pass.name changes
  zero : changes = 0 ↔ p.Unchanged q

/-- The blocks of `p` that `q` does not have. -/
def lostBlocks (p q : Program) : List NodeId := p.blocks.filter fun n => !q.graph.contains n

/-- How many instructions the blocks of `q` have had in `p` and do not have in `q`. -/
def lostInstructions (p q : Program) : Nat :=
  (q.blocks.map fun n => (p.codeAt n).length - (q.codeAt n).length).sum

/-- Whether there is a lifted block at a node. -/
def isLifted (p : Program) (n : NodeId) : Bool := (p.graph.label? n).any (·.lifted)

/-- The blocks that are lifted in `q` and are not in `p`. -/
def newlyLifted (p q : Program) : List NodeId :=
  p.blocks.filter fun n => !p.isLifted n && q.isLifted n

/-- Whether an edge is dynamic and leads to the jump table. -/
def isTableEdge (p : Program) (e : EdgeId) : Bool :=
  (p.graph.edge? e).any fun x => x.branch == .dynamic && x.target == p.sentinels.jumpTable

/-- The dynamic edges of `p` into the jump table that `q` does not have. -/
def replacedEdges (p q : Program) : List EdgeId :=
  p.graph.edgeIds.filter fun e => p.isTableEdge e && (q.graph.edge? e).isNone

/-! ## Dead code elimination -/

/-- The nodes that are returned are the blocks that are gone. -/
theorem lostBlocks_of_removeUnreachable {removed : List NodeId}
    (hp : p.graph.WellFormed) (h : p.removeUnreachable = .ok (removed, r))
    (hq : ∀ n, q.graph.contains n = r.graph.contains n) : p.lostBlocks q = removed := by
  obtain ⟨found, hfound, rfl, hretained⟩ := exists_retained hp h
  unfold lostBlocks blocks
  rw [List.filter_filter]
  apply List.filter_congr
  intro n hn
  rw [hq, hretained.graph, Graph.contains_retain, Graph.mem_nodeIds.mp hn]
  cases hreal : p.isSentinel n <;> simp [hreal]

theorem weight_length (p : Program) (n : NodeId) :
    p.weight (·.instructions.length) n = (p.codeAt n).length := by
  unfold weight codeAt
  cases p.graph.node? n <;> rfl

/-- The number of removed instructions is the number of those that are gone from the blocks. -/
theorem lostInstructions_of_removeDead {k : Nat} (h : r.removeDead = .ok (k, q))
    (hcode : ∀ n ∈ r.blocks, r.codeAt n = p.codeAt n) : p.lostInstructions q = k := by
  have htrimmed := trimmed_of_removeDead h
  have htotal := total_of_removeDead h
  have hsplit : p.lostInstructions q + q.total (·.instructions.length) =
      r.total (·.instructions.length) := by
    unfold lostInstructions total
    rw [← List.sum_map_add, htrimmed.blocks]
    congr 1
    apply List.map_congr_left
    intro n hn
    obtain ⟨v, hv⟩ := Graph.contains_iff.mp (mem_blocks.mp hn).1
    obtain ⟨kept, hv', hpruned⟩ := htrimmed.node? n v hv
    have hle := hpruned.sublist.length_le
    rw [weight_length, weight_length, ← hcode n hn, codeAt_of_node? hv, codeAt_of_node? hv']
    dsimp only
    omega
  omega

theorem lostBlocks_of_graph (h : q.graph = p.graph) : p.lostBlocks q = [] := by
  unfold lostBlocks
  rw [List.filter_eq_nil_iff, h]
  intro n hn
  simp [(mem_blocks.mp hn).1]

theorem lostInstructions_of_graph (h : q.graph = p.graph) : p.lostInstructions q = 0 := by
  simp [lostInstructions, codeAt, h]

/-- **Dead code elimination counts what it removes**, and all it does to code is to remove some. -/
theorem Sound.exists_run_deadCode_counts (hp : p.Sound) : ∃ q, p.run .deadCode = .ok q ∧
    p.Counts q .deadCode ((p.lostBlocks q).length + p.lostInstructions q) ∧
      ∀ n ∈ q.blocks, (q.codeAt n).Sublist (p.codeAt n) := by
  obtain ⟨removed, r, hr, hstep⟩ := hp.exists_removeUnreachable
  have hsound := hstep.sound hp
  obtain ⟨k, q, hq⟩ := exists_removeDead hsound.knowsDefinitions
  obtain ⟨found, hfound, -, hretained⟩ := exists_retained hp.graph.forward hr
  have htrimmed := trimmed_of_removeDead hq
  have hcode : ∀ n ∈ r.blocks, r.codeAt n = p.codeAt n := by
    intro n hn
    obtain ⟨hlive, hreal⟩ := mem_blocks.mp hn
    obtain ⟨b, hb⟩ := Graph.contains_iff_label?.mp hlive
    rw [hretained.isSentinel] at hreal
    rw [codeAt_of_label? hb, codeAt_of_label? (hretained.mem_of_label? hb hreal).2]
  have hblocks : p.lostBlocks q = removed :=
    lostBlocks_of_removeUnreachable hp.graph.forward hr htrimmed.contains
  have hinstructions : p.lostInstructions q = k := lostInstructions_of_removeDead hq hcode
  have happly : Pass.deadCode.apply p = .ok (removed.length + k, q) :=
    mapError_eq_ok.mpr (bind_eq_ok.mpr ⟨_, hr, bind_eq_ok.mpr ⟨_, hq, rfl⟩⟩)
  refine ⟨_, run_eq_ok happly (Step.sound (.trim htrimmed) hsound), ⟨?_, ?_⟩, fun n hn => ?_⟩
  · show q.tally.add _ _ = p.tally.add _ ((p.lostBlocks q).length + p.lostInstructions q : Nat)
    rw [hblocks, hinstructions, htrimmed.others, hretained.others]
    rfl
  · show (p.lostBlocks q).length + p.lostInstructions q = 0 ↔ _
    constructor
    · intro hzero
      obtain ⟨hnone, hzero⟩ := Nat.add_eq_zero_iff.mp hzero
      rw [hblocks, List.length_eq_zero_iff] at hnone
      rw [hinstructions] at hzero
      subst hnone hzero
      obtain rfl := removeUnreachable_eq_self hp.graph.forward hr
      obtain rfl := removeDead_eq_self hq
      exact ⟨rfl, rfl, rfl⟩
    · rintro ⟨hgraph, -, -⟩
      have hgraph : q.graph = p.graph := hgraph
      rw [lostBlocks_of_graph hgraph, lostInstructions_of_graph hgraph]
      rfl
  · have hn : n ∈ r.blocks := htrimmed.blocks ▸ hn
    obtain ⟨v, hv⟩ := Graph.contains_iff.mp (mem_blocks.mp hn).1
    obtain ⟨kept, hv', hpruned⟩ := htrimmed.node? n v hv
    show (q.codeAt n).Sublist (p.codeAt n)
    rw [← hcode n hn, codeAt_of_node? hv, codeAt_of_node? hv']
    exact hpruned.sublist

/-! ## Lifting -/

theorem isLifted_of_label? {b : BasicBlock} (hb : p.graph.label? n = some b) :
    p.isLifted n = b.lifted := by
  rw [isLifted, hb]
  rfl

/-- Lifting a block is a change exactly if there is a block that is not lifted yet. -/
theorem changed_of_liftBlock {changed : Bool} (h : p.liftBlock n = .ok (changed, q)) :
    changed = (!p.isSentinel n && !p.isLifted n) := by
  obtain ⟨b, hb, hchanged, -⟩ := exists_of_liftBlock h
  rw [isLifted_of_label? (Graph.label_eq_ok.mp hb), ← Bool.not_or, hchanged]

theorem label?_of_liftBlock {changed : Bool} (h : p.liftBlock n = .ok (changed, q)) (hm : m ≠ n) :
    q.graph.label? m = p.graph.label? m := by
  obtain ⟨b, -, -, ⟨-, rfl⟩ | ⟨-, ops, s, -, -, rfl⟩⟩ := exists_of_liftBlock h
  · rfl
  · rw [graph_lifted, Graph.label?_modifyLabel, if_neg hm]

theorem isSentinel_of_liftBlock {changed : Bool} (h : p.liftBlock n = .ok (changed, q)) :
    q.isSentinel = p.isSentinel := by
  obtain ⟨b, -, -, ⟨-, rfl⟩ | ⟨-, ops, s, -, -, rfl⟩⟩ := exists_of_liftBlock h <;> rfl

/-- Other blocks stay as they are. -/
theorem label?_of_liftAt (h : p.liftAt nodes = .ok (lifted, q)) (hm : m ∉ nodes) :
    q.graph.label? m = p.graph.label? m := by
  induction nodes generalizing p lifted with
  | nil =>
    cases h
    rfl
  | cons n rest ih =>
    obtain ⟨⟨changed, r⟩, hn, h⟩ := bind_eq_ok.mp h
    obtain ⟨⟨lifted', r'⟩, hrest, h⟩ := bind_eq_ok.mp h
    cases h
    rw [List.mem_cons, not_or] at hm
    rw [ih hrest hm.2, label?_of_liftBlock hn hm.1]

/-- The nodes that are returned are those with a block that was not lifted. -/
theorem eq_filter_of_liftAt (hnodes : nodes.Nodup) (h : p.liftAt nodes = .ok (lifted, q)) :
    lifted = nodes.filter fun n => !p.isSentinel n && !p.isLifted n := by
  induction nodes generalizing p lifted with
  | nil =>
    cases h
    rfl
  | cons n rest ih =>
    obtain ⟨⟨changed, r⟩, hn, h⟩ := bind_eq_ok.mp h
    obtain ⟨⟨lifted', r'⟩, hrest, h⟩ := bind_eq_ok.mp h
    cases h
    obtain ⟨hnew, hnodes⟩ := List.nodup_cons.mp hnodes
    have hsame : rest.filter (fun m => !r.isSentinel m && !r.isLifted m) =
        rest.filter fun m => !p.isSentinel m && !p.isLifted m := by
      apply List.filter_congr
      intro m hm
      have hmn : m ≠ n := fun heq => hnew (heq ▸ hm)
      rw [isSentinel_of_liftBlock hn, isLifted, label?_of_liftBlock hn hmn, isLifted]
    rw [List.filter_cons, ← changed_of_liftBlock hn, ih hnodes hrest, hsame]

/-- The blocks that are lifted now are those that lifting has returned. -/
theorem newlyLifted_perm {found : List NodeId} (hp : p.Sound) (hfound : p.reachable = .ok found)
    (h : p.liftAt found = .ok (lifted, r)) (hlifts : LiftsAt p r found lifted)
    (hq : ∀ n, q.graph.label? n = r.graph.label? n) : (p.newlyLifted q).Perm lifted := by
  have hnodup := Graph.nodup_dfs hfound
  rw [eq_filter_of_liftAt hnodup h]
  refine (List.perm_ext_iff_of_nodup (p.nodup_blocks.filter _) (hnodup.filter _)).mpr fun n => ?_
  simp only [List.mem_filter, Bool.and_eq_true, Bool.not_eq_true']
  constructor
  · rintro ⟨hn, hflat, hnow⟩
    by_cases hmem : n ∈ found
    · exact ⟨hmem, (mem_blocks.mp hn).2, hflat⟩
    · -- A block without a turn has the same label.
      rw [isLifted, hq, label?_of_liftAt h hmem, ← isLifted, hflat] at hnow
      cases hnow
  · rintro ⟨hmem, hreal, hflat⟩
    have hlive := hp.contains_of_reachable hfound hmem
    obtain ⟨b, hb⟩ := Graph.contains_iff_label?.mp ((hlifts.contains n).trans hlive)
    refine ⟨mem_blocks.mpr ⟨hlive, hreal⟩, hflat, ?_⟩
    rw [isLifted_of_label? ((hq n).trans hb)]
    exact hlifts.done n hmem hreal b hb

/-- The edges into the jump table that are gone are those of the resolved jumps. -/
theorem replacedEdges_perm {found : List NodeId} {jumps : List (EdgeId × NodeId × NodeId)}
    (hsentinels : r.sentinels = p.sentinels) (hedge : ∀ e, r.graph.edge? e = p.graph.edge? e)
    (hjumps : JumpsOf r found jumps) (hresolves : Resolves r q jumps) :
    (p.replacedEdges q).Perm (jumps.map Prod.fst) := by
  have hnodup : (p.replacedEdges q).Nodup :=
    (p.graph.pairwise_edgeIds.filter _).imp fun hlt => Int.ne_of_lt hlt
  refine (List.perm_ext_iff_of_nodup hnodup hjumps.distinct).mpr fun e => ?_
  simp only [replacedEdges, List.mem_filter, Graph.mem_edgeIds, Bool.and_eq_true,
    Option.isNone_iff_eq_none]
  constructor
  · rintro ⟨⟨x, hx⟩, -, hgone⟩
    rcases hresolves.edge?_of_old ((hedge e).trans hx) with hkept | ⟨-, hmem⟩
    · rw [hgone] at hkept
      cases hkept
    · exact hmem
  · intro hmem
    obtain ⟨j, hj, rfl⟩ := List.mem_map.mp hmem
    have hold := (hjumps.jump j hj).1.edge?
    obtain ⟨k, hk, hlt⟩ := Graph.exists_of_edge? hold
    have hgone := hresolves.issued k (Array.getElem?_eq_some_iff.mp hlt).1
    rw [← hk, if_pos hmem] at hgone
    rw [hedge, hsentinels] at hold
    exact ⟨⟨_, hold⟩, by simp [isTableEdge, hold], hgone⟩

theorem newlyLifted_of_graph (h : q.graph = p.graph) : p.newlyLifted q = [] := by
  simp [newlyLifted, isLifted, h]

theorem replacedEdges_of_graph (h : q.graph = p.graph) : p.replacedEdges q = [] := by
  unfold replacedEdges
  rw [List.filter_eq_nil_iff, h]
  intro e he
  obtain ⟨x, hx⟩ := Graph.mem_edgeIds.mp he
  simp [hx]

/-- **Lifting counts the blocks it lifts and the edges it replaces**, and it puts a static edge from
the same block in the place of every edge that it takes away. -/
theorem Sound.exists_run_lift_counts (hp : p.Sound) : ∃ q, p.run .lift = .ok q ∧
    p.Counts q .lift ((p.newlyLifted q).length + (p.replacedEdges q).length) ∧
      ∀ e ∈ p.replacedEdges q, ∃ n target f, p.graph.edge? f = none ∧
        p.graph.edge? e = some ⟨n, p.sentinels.jumpTable, .dynamic⟩ ∧
        q.graph.edge? f = some ⟨n, target, .static⟩ := by
  obtain ⟨found, hfound⟩ := hp.exists_reachable
  obtain ⟨lifted, r₁, h₁, hlifts⟩ :=
    hp.exists_liftAt fun n hn => hp.contains_of_reachable hfound hn
  have hr₁ := hlifts.steps.sound hp
  obtain ⟨found₁, jumps, r₂, hfound₁, hjumps, h₂, hresolves⟩ := hr₁.exists_resolveJumps
  have hr₂ := hresolves.steps.sound hr₁
  have hsteps : Steps p r₂ := hlifts.steps.trans hresolves.steps
  obtain ⟨t, h₃, ht⟩ := hr₂.exists_narrowTypes fun n hn =>
    (hsteps.isSentinel n).trans (hlifts.real n hn)
  have hlabel : ∀ n, r₂.graph.label? n = r₁.graph.label? n := hresolves.label?
  have hblocks : (p.newlyLifted r₂).length = lifted.length :=
    (newlyLifted_perm hp hfound h₁ hlifts hlabel).length_eq
  have hreplaced := replacedEdges_perm hlifts.steps.sentinels hlifts.edge? hjumps hresolves
  have hedges : (p.replacedEdges r₂).length = jumps.length :=
    hreplaced.length_eq.trans (List.length_map _)
  have happly : Pass.lift.apply p = .ok (lifted.length + jumps.length, { r₂ with symbols := t }) :=
    mapError_eq_ok.mpr (bind_eq_ok.mpr ⟨_, bind_eq_ok.mpr ⟨_, hfound, h₁⟩,
      bind_eq_ok.mpr ⟨_, h₂, bind_eq_ok.mpr ⟨_, h₃, rfl⟩⟩⟩)
  refine ⟨_, run_eq_ok happly (Step.sound (.retype ht) hr₂), ⟨?_, ?_⟩, fun e he => ?_⟩
  · show r₂.tally.add _ _ = p.tally.add _
      ((p.newlyLifted r₂).length + (p.replacedEdges r₂).length : Nat)
    rw [hblocks, hedges, hresolves.others, others_of_liftAt h₁]
    rfl
  · show (p.newlyLifted r₂).length + (p.replacedEdges r₂).length = 0 ↔ _
    constructor
    · intro hzero
      rw [hblocks, hedges, Nat.add_eq_zero_iff, List.length_eq_zero_iff,
        List.length_eq_zero_iff] at hzero
      obtain ⟨rfl, rfl⟩ := hzero
      obtain rfl := liftAt_eq_self h₁
      obtain rfl := resolveJumps_eq_self h₂
      have hsymbols : t = r₂.symbols := congrArg Program.symbols (narrowTypes_eq_self h₃)
      exact ⟨rfl, hsymbols, rfl⟩
    · rintro ⟨hgraph, -, -⟩
      have hgraph : r₂.graph = p.graph := hgraph
      rw [newlyLifted_of_graph hgraph, replacedEdges_of_graph hgraph]
      rfl
  · have he : e ∈ jumps.map Prod.fst := hreplaced.mem_iff.mp he
    obtain ⟨j, hj, rfl⟩ := List.mem_map.mp he
    have hold := (hjumps.jump j hj).1.edge?
    obtain ⟨i, hi, hnew⟩ := hresolves.fresh j hj
    rw [hlifts.edge?, hlifts.steps.sentinels] at hold
    refine ⟨j.2.1, j.2.2, i, ?_, hold, hnew⟩
    rw [← hlifts.edge?, Graph.edge?_natCast, Array.getElem?_eq_none hi]
    rfl

/-- **Passes count their changes, and count none exactly if they change nothing.** Whatever built-in
passes have run on the program of a code, dead code elimination adds the number of blocks that are
gone and of instructions that are gone from other blocks to its count, and lifting the number of
blocks that are lifted now and of dynamic edges into the jump table that were replaced. What is
added is 0 exactly if the graph, the blocks, the symbols and the jump targets are what they were. -/
theorem passes_count_changes (instrs : List Instr) : ∃ o, build instrs = .ok o ∧
    ∀ passes : List Pass, (∀ pass ∈ passes, pass = .deadCode ∨ pass = .lift) →
      ∃ p, o.runAll passes = (p, .ok ()) ∧
        (∃ q, p.run .deadCode = .ok q ∧
          p.Counts q .deadCode ((p.lostBlocks q).length + p.lostInstructions q) ∧
          ∀ n ∈ q.blocks, (q.codeAt n).Sublist (p.codeAt n)) ∧
        ∃ q, p.run .lift = .ok q ∧
          p.Counts q .lift ((p.newlyLifted q).length + (p.replacedEdges q).length) ∧
          ∀ e ∈ p.replacedEdges q, ∃ n target f, p.graph.edge? f = none ∧
            p.graph.edge? e = some ⟨n, p.sentinels.jumpTable, .dynamic⟩ ∧
            q.graph.edge? f = some ⟨n, target, .static⟩ := by
  obtain ⟨o, ho, hruns⟩ := exists_steps_runAll instrs
  refine ⟨o, ho, fun passes hpasses => ?_⟩
  obtain ⟨p, hp, hsteps⟩ := hruns passes hpasses
  have hsound := hsteps.sound (sound_ofInstrs instrs)
  exact ⟨p, hp, hsound.exists_run_deadCode_counts, hsound.exists_run_lift_counts⟩

/-- The sender, which is dropped, and a jump over a block. -/
def idleJump : List Instr := decode [0x33, 0x50, 0x60, 6, 0x56, 0x00, 0x5b]

theorem passes_count_changes_idleJump :
    (∀ pass ∈ [Pass.lift], pass = .deadCode ∨ pass = .lift) ∧
      ∃ o p, build idleJump = .ok o ∧ o.runAll [.lift] = (p, .ok ()) ∧
        (∃ q, p.run .deadCode = .ok q ∧ p.lostBlocks q = [5] ∧ p.lostInstructions q = 1 ∧
          p.Counts q .deadCode 2) ∧ ∃ q, p.run .lift = .ok q ∧ p.Unchanged q := by
  have hpasses : ∀ pass ∈ [Pass.lift], pass = .deadCode ∨ pass = .lift := by simp
  have hlost : (build idleJump).toOption.bind (fun o =>
      ((o.runAll [.lift]).1.run .deadCode).toOption.map fun q =>
        ((o.runAll [.lift]).1.lostBlocks q, (o.runAll [.lift]).1.lostInstructions q)) =
      some ([5], 1) := by decide +kernel
  have hidle : (build idleJump).toOption.bind (fun o =>
      ((o.runAll [.lift]).1.run .lift).toOption.map fun q =>
        ((o.runAll [.lift]).1.newlyLifted q).length +
          ((o.runAll [.lift]).1.replacedEdges q).length) = some 0 := by decide +kernel
  obtain ⟨o, ho, hall⟩ := passes_count_changes idleJump
  obtain ⟨p, hp, ⟨q, hq, hcounts, -⟩, q', hq', hcounts', -⟩ := hall _ hpasses
  rw [ho] at hlost hidle
  have hlost : ((o.runAll [.lift]).1.run .deadCode).toOption.map (fun q =>
      ((o.runAll [.lift]).1.lostBlocks q, (o.runAll [.lift]).1.lostInstructions q)) = _ := hlost
  have hidle : ((o.runAll [.lift]).1.run .lift).toOption.map (fun q =>
      ((o.runAll [.lift]).1.newlyLifted q).length +
        ((o.runAll [.lift]).1.replacedEdges q).length) = _ := hidle
  rw [hp] at hlost hidle
  rw [hq] at hlost
  rw [hq'] at hidle
  obtain ⟨hblocks, hinstructions⟩ := Prod.mk.inj (Option.some.inj hlost)
  rw [hblocks, hinstructions] at hcounts
  exact ⟨hpasses, o, p, ho, hp, ⟨q, hq, hblocks, hinstructions, hcounts⟩, q', hq',
    hcounts'.zero.mp (Option.some.inj hidle)⟩

end Program

end EvmFlow
