import EvmFlow.Optimize
import EvmFlow.Proofs.ControlFlow
import EvmFlow.Proofs.DeadInstructions
import EvmFlow.Proofs.Search

/-!
# Passes keep programs on the track of their code

Each part of the built-in passes takes a program that tracks its code to one that does.

* `Program.Flows.mono`: what a block requires is kept if its edges are;
* `Program.Reworked`, `Program.Tracks.reworked`: changes of the code in blocks and of the table;
* `Program.Retained`, `Program.Tracks.retained`: removal of blocks. A block that still uses the
  jump table keeps all jump destinations;
* **`Program.Tracks.eliminateDeadCode`**, `Program.Tracks.liftAt`, `Program.Tracks.narrowTypes`:
  dead code, lifted code and types.
-/

namespace EvmFlow.Program

variable {p q : Program} {code : List Located}

/-! ## Blocks whose edges are kept -/

theorem isSentinel_congr (h : q.sentinels = p.sentinels) (n : NodeId) :
    q.isSentinel n = p.isSentinel n := by
  unfold isSentinel
  rw [h]

theorem TargetsForced.grows {t t' : SymbolTable} {instructions : List Instruction}
    (h : TargetsForced t instructions code) (hg : t.Grows t') :
    TargetsForced t' instructions code := by
  intro i hi target htarget
  obtain ⟨hk, hforces⟩ := h i hi target htarget
  exact ⟨hg.knows hk, fun w hw => hforces w (hg.isConstant_of_knows hk hw)⟩

theorem LeadsTo.mono (hs : q.sentinels = p.sentinels) {w : Word} {m : NodeId}
    (hstarts : ∀ i, p.StartsAt m i → q.StartsAt m i) (h : p.LeadsTo code w m) :
    q.LeadsTo code w m := by
  unfold LeadsTo at h ⊢
  split
  · next j hj =>
    rw [hj] at h
    exact hstarts j h
  · next hj =>
    rw [hj] at h
    rw [hs]
    exact h

theorem Flows.mono {n : NodeId} {b b' : BasicBlock} {a z : Nat} (h : p.Flows code n b a z)
    (hs : q.sentinels = p.sentinels) (hb : b'.opcodes = b.opcodes)
    (hstatic : ∀ m, p.graph.Links n m .static →
      q.graph.Links n m .static ∧ ∀ i, p.StartsAt m i → q.StartsAt m i)
    (hdynamic : p.graph.Links n p.sentinels.jumpTable .dynamic →
      q.graph.Links n q.sentinels.jumpTable .dynamic ∨
        ∃ w m, Evm.Forces (code.extract a z) w ∧ q.LeadsTo code w m ∧ q.graph.Links n m .static)
    (hbranch : TargetsForced q.symbols b'.instructions (code.extract a z)) :
    q.Flows code n b' a z where
  span := hb.trans h.span
  le := h.le
  bound := h.bound
  nonempty := h.nonempty
  inner := h.inner
  jump i x hai hz hx hop := by
    rcases h.jump i x hai hz hx hop with hlink | ⟨w, m, hforces, hleads, hlink⟩
    · exact hdynamic hlink
    · obtain ⟨hlink, hstarts⟩ := hstatic m hlink
      exact .inr ⟨w, m, hforces, hleads.mono hs hstarts, hlink⟩
  next i x hai hz hx hop := by
    obtain ⟨m, hm, hlink⟩ := h.next i x hai hz hx hop
    obtain ⟨hlink, hstarts⟩ := hstatic m hlink
    exact ⟨m, hstarts z hm, hlink⟩
  halt i x hai hz hx hop := by
    rw [hs]
    exact (hstatic _ (h.halt i x hai hz hx hop)).1
  branch := hbranch

/-! ## Changes inside blocks -/

/-- `q` comes from `p` by changes of the code in blocks and growth of the table. -/
structure Reworked (p q : Program) : Prop where
  code : q.code = p.code
  sentinels : q.sentinels = p.sentinels
  jumpTargets : q.jumpTargets = p.jumpTargets
  edge? : ∀ e, q.graph.edge? e = p.graph.edge? e
  graph : q.graph.Incident
  symbols : q.symbols.Consistent
  label? : ∀ n, (q.graph.label? n).map BasicBlock.opcodes =
    (p.graph.label? n).map BasicBlock.opcodes

namespace Reworked

theorem isSentinel (h : Reworked p q) (n : NodeId) : q.isSentinel n = p.isSentinel n :=
  isSentinel_congr h.sentinels n

theorem exists_label (h : Reworked p q) {n : NodeId} {b : BasicBlock}
    (hb : q.graph.label? n = some b) :
    ∃ b', p.graph.label? n = some b' ∧ b.opcodes = b'.opcodes := by
  have hmap := h.label? n
  rw [hb] at hmap
  obtain ⟨b', hb', heq⟩ := Option.map_eq_some_iff.mp hmap.symm
  exact ⟨b', hb', heq.symm⟩

theorem startsAt (h : Reworked p q) {n : NodeId} {i : Nat} (hn : p.StartsAt n i) :
    q.StartsAt n i := by
  obtain ⟨b, hb, hreal, hstart⟩ := hn
  have hmap := h.label? n
  rw [hb] at hmap
  obtain ⟨b', hb', heq⟩ := Option.map_eq_some_iff.mp hmap
  exact ⟨b', hb', (h.isSentinel n).trans hreal, by rw [heq, hstart]⟩

theorem covers (h : Reworked p q) {n : NodeId} {i : Nat} (hn : q.Covers n i) : p.Covers n i := by
  obtain ⟨b, hb, hreal, hcontains⟩ := hn
  obtain ⟨b', hb', heq⟩ := h.exists_label hb
  exact ⟨b', hb', (h.isSentinel n).symm.trans hreal, by rw [← heq, hcontains]⟩

theorem links (h : Reworked p q) (hp : p.graph.Incident) {s t : NodeId} {branch : Branch} :
    q.graph.Links s t branch ↔ p.graph.Links s t branch := by
  rw [h.graph.forward.links_iff, hp.forward.links_iff]
  simp only [h.edge?]

end Reworked

/-- A program stays on the track of its code if the branches of its blocks do. -/
theorem Tracks.reworked (h : p.Tracks code) (hq : Reworked p q)
    (hbranch : ∀ n b b' a z, p.graph.label? n = some b → q.graph.label? n = some b' →
      p.isSentinel n = false → p.Flows code n b a z →
        TargetsForced q.symbols b'.instructions (code.extract a z)) : q.Tracks code where
  instrs := hq.code.trans h.instrs
  graph := hq.graph
  symbols := hq.symbols
  entry := by
    obtain ⟨m, hm, hlink⟩ := h.entry
    rw [hq.sentinels]
    exact ⟨m, hq.startsAt hm, (hq.links h.graph).mpr hlink⟩
  block n b' hb' hreal := by
    obtain ⟨b, hb, heq⟩ := hq.exists_label hb'
    rw [hq.isSentinel] at hreal
    obtain ⟨a, z, hflows⟩ := h.block n b hb hreal
    refine ⟨a, z, hflows.mono hq.sentinels heq (fun m hm => ?_) (fun hm => .inl ?_)
      (hbranch n b b' a z hb hb' hreal hflows)⟩
    · exact ⟨(hq.links h.graph).mpr hm, fun i hi => hq.startsAt hi⟩
    · rw [hq.sentinels]
      exact (hq.links h.graph).mpr hm
  disjoint n m i hn hm := h.disjoint n m i (hq.covers hn) (hq.covers hm)
  table n hreal hlink j x hx hop := by
    rw [hq.isSentinel] at hreal
    rw [hq.sentinels] at hlink ⊢
    obtain ⟨m, hm, hlink', hget⟩ := h.table n hreal ((hq.links h.graph).mp hlink) j x hx hop
    exact ⟨m, hq.startsAt hm, (hq.links h.graph).mpr hlink', by rw [hq.jumpTargets, hget]⟩
  targets k m hk := by
    rw [hq.jumpTargets] at hk
    exact h.targets k m hk

/-- Changes outside the blocks, with growth of the table. -/
theorem Tracks.withSymbols (h : p.Tracks code) (hq : q = { p with
      symbols := q.symbols, gaps := q.gaps, tally := q.tally })
    (hg : p.symbols.Grows q.symbols) (hc : q.symbols.Consistent) : q.Tracks code := by
  have hgraph : q.graph = p.graph := by rw [hq]
  refine h.reworked ⟨by rw [hq], by rw [hq], by rw [hq], fun e => by rw [hgraph],
    hgraph ▸ h.graph, hc, fun n => by rw [hgraph]⟩ fun n b b' a z hb hb' hreal hflows => ?_
  rw [hgraph, hb] at hb'
  cases hb'
  exact hflows.branch.grows hg

/-- New code in one block, with growth of the table. -/
theorem Tracks.withCode (h : p.Tracks code) {n : NodeId} {f : BasicBlock → BasicBlock}
    (hf : ∀ b, (f b).opcodes = b.opcodes) {t : SymbolTable} (hg : p.symbols.Grows t)
    (hc : t.Consistent)
    (hbranch : ∀ b a z, p.graph.label? n = some b → p.Flows code n b a z →
      TargetsForced t (f b).instructions (code.extract a z)) :
    Tracks { p with symbols := t, graph := p.graph.modifyLabel n f } code := by
  refine h.reworked ⟨rfl, rfl, rfl, p.graph.edge?_modifyLabel n f, h.graph.modifyLabel n f, hc,
    fun m => ?_⟩ fun m b b' a z hb hb' hreal hflows => ?_
  · rw [Graph.label?_modifyLabel]
    split
    · rw [Option.map_map]
      exact Option.map_congr fun b _ => hf b
    · rfl
  · rw [Graph.label?_modifyLabel, hb] at hb'
    split at hb'
    · next hmn =>
      subst hmn
      cases hb'
      exact hbranch b a z hb hflows
    · cases hb'
      exact hflows.branch.grows hg

/-! ## Dead instructions -/

/-- The blocks differ in their instructions only, and have no new ones. -/
theorem Trimmed.label? (h : p.Trimmed q) {n : NodeId} {b' : BasicBlock}
    (hb' : q.graph.label? n = some b') :
    ∃ b kept, p.graph.label? n = some b ∧ b' = { b with instructions := kept } ∧
      Pruned q.Dead b.instructions kept := by
  cases hv : p.graph.node? n with
  | none =>
    rw [Graph.label?, h.node?_eq_none hv] at hb'
    cases hb'
  | some v =>
    obtain ⟨kept, hq, hpruned⟩ := h.node? n v hv
    rw [Graph.label?_of_node? hq] at hb'
    cases hb'
    exact ⟨v.label, kept, Graph.label?_of_node? hv, rfl, hpruned⟩

theorem Trimmed.contains (h : p.Trimmed q) (n : NodeId) :
    q.graph.contains n = p.graph.contains n := by
  rw [Bool.eq_iff_iff, ← Graph.mem_nodeIds, ← Graph.mem_nodeIds, h.nodeIds]

theorem Trimmed.incident (h : p.Trimmed q) (hp : p.graph.Incident) : q.graph.Incident := by
  refine hp.of_node? h.edge? (fun n v hv => ?_) (fun n hn => (h.contains n).symm.trans hn) h.counts
  obtain ⟨kept, hnode, -⟩ := h.node? n v hv
  exact ⟨_, hnode⟩

theorem Tracks.trimmed (h : p.Tracks code) (hq : p.Trimmed q) : q.Tracks code := by
  have hlive : ∀ n, p.graph.contains n = true → q.graph.contains n = true :=
    fun n hn => (hq.contains n).trans hn
  have hsymbols : q.symbols = p.symbols := hq.symbols
  refine h.reworked ⟨by rw [hq.others], hq.sentinels, by rw [hq.others], hq.edge?,
    hq.incident h.graph, hsymbols ▸ h.symbols, fun n => ?_⟩
    fun n b b' a z hb hb' _ hflows => ?_
  · cases hb' : q.graph.label? n with
    | none =>
      cases hb : p.graph.label? n with
      | none => rfl
      | some b =>
        have hn := hlive n (Graph.contains_iff_label?.mpr ⟨b, hb⟩)
        obtain ⟨b', hb''⟩ := Graph.contains_iff_label?.mp hn
        rw [hb'] at hb''
        cases hb''
    | some b' =>
      obtain ⟨b, kept, hb, rfl, -⟩ := hq.label? hb'
      rw [hb, Option.map_some, Option.map_some]
  · obtain ⟨c, kept, hc, rfl, hpruned⟩ := hq.label? hb'
    obtain rfl := Option.some.inj (hb.symm.trans hc)
    rw [hsymbols]
    exact fun i hi => hflows.branch i (hpruned.mem_of_mem hi)

/-! ## Unreachable blocks -/

/-- `q` is `p` without the blocks that are not among the nodes found by a search from the start. -/
structure Retained (p q : Program) (found : List NodeId) : Prop where
  others : q = { p with
    graph := p.graph.retain fun n => p.isSentinel n || found.contains n
    jumpTargets := q.jumpTargets }
  start : p.sentinels.start ∈ found
  closed : ∀ n ∈ found, ∀ {m branch}, p.graph.Links n m branch → m ∈ found
  kept : ∀ (k : Int) m, p.jumpTargets[k]? = some m → q.graph.contains m = true →
    q.jumpTargets[k]? = some m
  fewer : ∀ (k : Int) m, q.jumpTargets[k]? = some m → p.jumpTargets[k]? = some m
  live : ∀ (k : Int) m, q.jumpTargets[k]? = some m → p.graph.contains m = true →
    q.graph.contains m = true

/-- What the removal returns and keeps, said by the nodes that the search has found. -/
theorem exists_removeUnreachable (hg : p.graph.WellFormed) {found : List NodeId}
    (hfound : p.reachable = .ok found) :
    ∃ q, p.removeUnreachable =
      .ok (p.graph.refused fun n => p.isSentinel n || found.contains n, q) ∧
        Retained p q found := by
  obtain ⟨hstart, hclosed⟩ := hg.dfs_closed hfound
  have hkeep : (fun n => p.isSentinel n || (Std.TreeSet.ofList found : NodeSet).contains n) =
      fun n => p.isSentinel n || found.contains n := by
    funext n
    rw [Std.TreeSet.contains_ofList]
  refine ⟨_, bind_eq_ok.mpr ⟨found, hfound, bind_eq_ok.mpr
    ⟨_, (Graph.apply_retainNodes _ _).trans (by rw [hkeep]), rfl⟩⟩, rfl, hstart, hclosed,
    fun k m hk hm => ?_, fun k m hk => ?_, fun k m hk hm => ?_⟩
  · dsimp only
    split
    · exact hk
    · rw [Std.TreeMap.getElem?_filter', hk]
      exact Option.filter_eq_some_iff.mpr ⟨rfl, hm⟩
  · dsimp only at hk
    split at hk
    · exact hk
    · rw [Std.TreeMap.getElem?_filter'] at hk
      exact (Option.filter_eq_some_iff.mp hk).1
  · dsimp only at hk ⊢
    split at hk
    · next hnone => rwa [Graph.retain_of_refused_eq_nil (List.isEmpty_iff.mp hnone)]
    · rw [Std.TreeMap.getElem?_filter'] at hk
      exact (Option.filter_eq_some_iff.mp hk).2

theorem exists_retained (hg : p.graph.WellFormed) {removed : List NodeId}
    (h : p.removeUnreachable = .ok (removed, q)) :
    ∃ found, p.reachable = .ok found ∧
      removed = p.graph.refused (fun n => p.isSentinel n || found.contains n) ∧
        Retained p q found := by
  obtain ⟨found, hfound, -⟩ := bind_eq_ok.mp h
  obtain ⟨q', hq', hretained⟩ := exists_removeUnreachable hg hfound
  obtain ⟨rfl, rfl⟩ := Prod.mk.inj (Except.ok.inj (h.symm.trans hq'))
  exact ⟨found, hfound, rfl, hretained⟩

namespace Retained

variable {found : List NodeId}

theorem sentinels (h : Retained p q found) : q.sentinels = p.sentinels := by rw [h.others]

theorem isSentinel (h : Retained p q found) (n : NodeId) : q.isSentinel n = p.isSentinel n :=
  isSentinel_congr h.sentinels n

theorem graph (h : Retained p q found) :
    q.graph = p.graph.retain fun n => p.isSentinel n || found.contains n := by rw [h.others]

/-- A live block was found. -/
theorem mem_of_label? (h : Retained p q found) {n : NodeId} {b : BasicBlock}
    (hb : q.graph.label? n = some b) (hreal : p.isSentinel n = false) :
    n ∈ found ∧ p.graph.label? n = some b := by
  rw [h.graph, Graph.label?_retain, hreal] at hb
  split at hb
  · next hkeep => exact ⟨by simpa using hkeep, hb⟩
  · cases hb

theorem label? (h : Retained p q found) {n : NodeId} (hn : n ∈ found) :
    q.graph.label? n = p.graph.label? n := by
  rw [h.graph, Graph.label?_retain, if_pos]
  simp [hn]

theorem startsAt (h : Retained p q found) {m : NodeId} {i : Nat} (hm : m ∈ found)
    (hi : p.StartsAt m i) : q.StartsAt m i := by
  obtain ⟨b, hb, hreal, hstart⟩ := hi
  exact ⟨b, (h.label? hm).trans hb, (h.isSentinel m).trans hreal, hstart⟩

theorem covers (h : Retained p q found) {n : NodeId} {i : Nat} (hn : q.Covers n i) :
    p.Covers n i := by
  obtain ⟨b, hb, hreal, hcontains⟩ := hn
  rw [h.isSentinel] at hreal
  exact ⟨b, (h.mem_of_label? hb hreal).2, hreal, hcontains⟩

theorem incident (h : Retained p q found) (hg : p.graph.Incident) : q.graph.Incident := by
  rw [h.graph]
  exact hg.retain _

/-- The edges that leave a node that was found are kept. -/
theorem links (h : Retained p q found) (hg : p.graph.Incident) {n m : NodeId} {branch : Branch}
    (hn : n ∈ found) (hlink : p.graph.Links n m branch) : q.graph.Links n m branch := by
  have hm := h.closed n hn hlink
  obtain ⟨e, he⟩ := hg.forward.links_iff.mp hlink
  refine (h.incident hg).forward.links_iff.mpr ⟨e, ?_⟩
  rw [h.graph, hg.edge?_retain, he]
  exact Option.filter_eq_some_iff.mpr ⟨rfl, by simp [hn, hm]⟩

theorem links_of_links (h : Retained p q found) (hg : p.graph.Incident) {n m : NodeId}
    {branch : Branch} (hlink : q.graph.Links n m branch) : p.graph.Links n m branch := by
  obtain ⟨e, he⟩ := (h.incident hg).forward.links_iff.mp hlink
  rw [h.graph, hg.edge?_retain] at he
  exact hg.forward.links_iff.mpr ⟨e, (Option.filter_eq_some_iff.mp he).1⟩

end Retained

theorem StartsAt.contains {n : NodeId} {i : Nat} (h : p.StartsAt n i) :
    p.graph.contains n = true := by
  obtain ⟨b, hb, -⟩ := h
  exact Graph.contains_iff_label?.mpr ⟨b, hb⟩

theorem StartsAt.mem_blocks {n : NodeId} {i : Nat} (h : p.StartsAt n i) : n ∈ p.blocks := by
  have hlive := h.contains
  obtain ⟨_, -, hreal, -⟩ := h
  exact Program.mem_blocks.mpr ⟨hlive, hreal⟩

theorem Tracks.retained (h : p.Tracks code) {found : List NodeId} (hq : Retained p q found) :
    q.Tracks code where
  instrs := by rw [hq.others]; exact h.instrs
  graph := hq.incident h.graph
  symbols := by rw [hq.others]; exact h.symbols
  entry := by
    obtain ⟨m, hm, hlink⟩ := h.entry
    rw [hq.sentinels]
    exact ⟨m, hq.startsAt (hq.closed _ hq.start hlink) hm, hq.links h.graph hq.start hlink⟩
  block n b hb hreal := by
    rw [hq.isSentinel] at hreal
    obtain ⟨hn, hb⟩ := hq.mem_of_label? hb hreal
    obtain ⟨a, z, hflows⟩ := h.block n b hb hreal
    refine ⟨a, z, hflows.mono hq.sentinels rfl (fun m hm => ?_) (fun hm => .inl ?_) ?_⟩
    · exact ⟨hq.links h.graph hn hm, fun i hi => hq.startsAt (hq.closed n hn hm) hi⟩
    · rw [hq.sentinels]
      exact hq.links h.graph hn hm
    · rw [hq.others]
      exact hflows.branch
  disjoint n m i hn hm := h.disjoint n m i (hq.covers hn) (hq.covers hm)
  table n hreal hlink j x hx hop := by
    rw [hq.isSentinel] at hreal
    -- The block that uses the jump table was found, hence the table, hence all that it leads to.
    have hn : n ∈ found := by
      obtain ⟨v, e, hv, -⟩ := hlink
      exact (hq.mem_of_label? (Graph.label?_of_node? hv) hreal).1
    rw [hq.sentinels] at hlink ⊢
    have hplink := hq.links_of_links h.graph hlink
    have htable := hq.closed n hn hplink
    obtain ⟨m, hm, hlink', hget⟩ := h.table n hreal hplink j x hx hop
    have hm' := hq.startsAt (hq.closed _ htable hlink') hm
    exact ⟨m, hm', hq.links h.graph htable hlink', hq.kept _ m hget hm'.contains⟩
  targets k m hk := h.targets k m (hq.fewer k m hk)

/-- Dead code is eliminated in two stages: first blocks are removed, then instructions. -/
theorem exists_of_eliminateDeadCode (hg : p.graph.WellFormed) {changes : Int}
    (h : p.eliminateDeadCode = .ok (changes, q)) :
    ∃ removed k r found, p.removeUnreachable = .ok (removed, r) ∧ r.removeDead = .ok (k, q) ∧
      p.reachable = .ok found ∧ Retained p r found ∧ r.Trimmed q := by
  obtain ⟨⟨removed, r⟩, hr, h⟩ := bind_eq_ok.mp h
  obtain ⟨⟨k, r'⟩, hr', h⟩ := bind_eq_ok.mp h
  cases h
  obtain ⟨found, hfound, -, hretained⟩ := exists_retained hg hr
  exact ⟨removed, k, r, found, hr, hr', hfound, hretained, trimmed_of_removeDead hr'⟩

theorem Tracks.eliminateDeadCode (h : p.Tracks code) {changes : Int}
    (hq : p.eliminateDeadCode = .ok (changes, q)) : q.Tracks code := by
  obtain ⟨_, _, r, found, -, -, -, hretained, htrimmed⟩ :=
    exists_of_eliminateDeadCode h.graph.forward hq
  exact (h.retained hretained).trimmed htrimmed

/-! ## Lifted code -/

theorem Tracks.opcodes_eq (h : p.Tracks code) {n : NodeId} {b : BasicBlock} {a z : Nat}
    (hb : p.graph.label? n = some b) (hflows : p.Flows code n b a z) :
    p.opcodes n = .ok (code.extract a z) := by
  have hspan : p.hasSpan ⟨a, z⟩ = true := by
    have hle := hflows.le
    have hbound := hflows.bound
    simp only [hasSpan, h.instrs, List.size_toArray, Bool.and_eq_true, decide_eq_true_eq]
    omega
  have hslice : p.slice ⟨a, z⟩ = code.extract a z := by
    simp [slice, h.instrs]
  refine bind_eq_ok.mpr ⟨b, Graph.label_eq_ok.mpr hb, ?_⟩
  rw [hflows.span, if_pos hspan, hslice]
  rfl

/-- Branches of lifted code are right, since its constants are. -/
theorem targetsForced_of_liftAll {t : SymbolTable} (ht : t.Consistent) {n : NodeId}
    {s : LiftedStack} (hs : LiftedStack.liftAll t n code = .ok s) :
    s.symbols.Consistent ∧ TargetsForced s.symbols s.out.toList code := by
  obtain ⟨s', hs', hwf, hforesees⟩ := LiftedStack.exists_liftAll ht n code
  obtain rfl := Except.ok.inj (hs.symm.trans hs')
  refine ⟨hwf.consistent, fun i hi target htarget => ⟨?_, fun w hw σ I e e' hrun => ?_⟩⟩
  · obtain ⟨_, e, e', hrun⟩ := Evm.exists_some_run code
    exact ((hforesees _ hrun).branch (Array.mem_toList_iff.mp hi) htarget).1
  · exact ((hforesees I hrun).branch (Array.mem_toList_iff.mp hi) htarget).2 hw

theorem Tracks.liftBlock (h : p.Tracks code) {n : NodeId} {changed : Bool}
    (hq : p.liftBlock n = .ok (changed, q)) : q.Tracks code := by
  obtain ⟨b, hb, hq⟩ := bind_eq_ok.mp hq
  split at hq
  · cases hq
    exact h
  · next hreal =>
    have hb := Graph.label_eq_ok.mp hb
    have hreal : p.isSentinel n = false := by
      simp only [Bool.or_eq_true, not_or, Bool.not_eq_true] at hreal
      exact hreal.1
    obtain ⟨a, z, hflows⟩ := h.block n b hb hreal
    obtain ⟨ops, hops, hq⟩ := bind_eq_ok.mp hq
    obtain ⟨s, hs, hq⟩ := bind_eq_ok.mp hq
    obtain ⟨info, -, hq⟩ := bind_eq_ok.mp hq
    cases hq
    rw [h.opcodes_eq hb hflows] at hops
    cases hops
    obtain ⟨hc, hforced⟩ := targetsForced_of_liftAll h.symbols hs
    refine h.withCode (f := fun b => { b with
      instructions := s.out.toList, stackInfo := info, lifted := true }) (fun _ => rfl)
      (LiftedStack.summary_of_liftAll hs).2 hc fun b' a' z' hb' hflows' => ?_
    obtain rfl := Option.some.inj (hb.symm.trans hb')
    obtain ⟨rfl, rfl⟩ := hflows.eq_of_span hflows'.span
    exact hforced

theorem Tracks.liftAt (h : p.Tracks code) {nodes lifted : List NodeId}
    (hq : p.liftAt nodes = .ok (lifted, q)) : q.Tracks code := by
  induction nodes generalizing p lifted with
  | nil =>
    cases hq
    exact h
  | cons n rest ih =>
    obtain ⟨⟨changed, r⟩, hr, hq⟩ := bind_eq_ok.mp hq
    obtain ⟨⟨lifted', r'⟩, hr', hq⟩ := bind_eq_ok.mp hq
    cases hq
    exact ih (h.liftBlock hr) hr'

/-! ## Types -/

section Narrow

variable {t t' : SymbolTable}

theorem retypes_of_retype {ref : SymbolRef} {type : TypeHint} (h : t.retype ref type = .ok t') :
    t.Retypes t' := by
  obtain ⟨s, hs, h⟩ := bind_eq_ok.mp h
  split at h
  · cases h
    exact .refl t
  · next hvar =>
    rw [Bool.not_eq_true, Bool.or_eq_false_iff] at hvar
    obtain ⟨⟨_, t₁⟩, ht₁, h⟩ := bind_eq_ok.mp h
    cases h
    exact .of_replaceType ht₁ hs hvar.1

theorem retypes_of_retypeLike {ref model : SymbolRef} (h : t.retypeLike ref model = .ok t') :
    t.Retypes t' := by
  obtain ⟨s, -, h⟩ := bind_eq_ok.mp h
  exact retypes_of_retype h

theorem retypes_of_narrow {i : Instruction} (h : t.narrow i = .ok t') : t.Retypes t' := by
  cases i with
  | nop | procedure | function =>
    cases h
    exact .refl t
  | branch | indexedCopy | indexedAssign => exact retypes_of_retype h
  | copy => exact retypes_of_retypeLike h
  | condBranch =>
    obtain ⟨t₁, h₁, h⟩ := bind_eq_ok.mp h
    exact (retypes_of_retype h₁).trans (retypes_of_retype h)
  | unary x op y =>
    rw [SymbolTable.narrow] at h
    split at h
    · exact retypes_of_retype h
    · exact retypes_of_retypeLike h
  | binary x op y z =>
    rw [SymbolTable.narrow] at h
    split at h
    · exact retypes_of_retype h
    · obtain ⟨t₁, h₁, h⟩ := bind_eq_ok.mp h
      exact (retypes_of_retypeLike h₁).trans (retypes_of_retypeLike h)

theorem retypes_of_foldlM_narrow {code : List Instruction}
    (h : code.foldlM SymbolTable.narrow t = .ok t') : t.Retypes t' :=
  foldlM_ok (P := t.Retypes) (fun _ _ _ _ hs hn => hs.trans (retypes_of_narrow hn)) (.refl t) h

end Narrow

theorem Tracks.narrowTypes (h : p.Tracks code) {nodes : List NodeId}
    (hq : p.narrowTypes nodes = .ok q) : q.Tracks code := by
  obtain ⟨found, -, hq⟩ := bind_eq_ok.mp hq
  refine foldlM_ok (P := fun r : Program => r.Tracks code) (fun n _ r r' hr hr' => ?_) h hq
  obtain ⟨b, -, hr'⟩ := bind_eq_ok.mp hr'
  obtain ⟨t, ht, hr'⟩ := bind_eq_ok.mp hr'
  cases hr'
  have hretypes := retypes_of_foldlM_narrow ht
  exact hr.withSymbols rfl hretypes.grows (hretypes.consistent hr.symbols)

end EvmFlow.Program
