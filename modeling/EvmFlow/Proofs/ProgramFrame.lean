import EvmFlow.Proofs.PassSuccess

/-!
# The frame of a program

The synthetic nodes and the edges between them stay what they are in a new program, and the edges of
the jump table always lead to the invalid jump node and to the jump targets.

* `Program.Framed`: the frame;
* `Program.KeepsFrame`, `Program.Framed.of_keepsFrame`: changes that keep clear of the frame;
* `Program.Framed.retained`: removal of blocks, which takes jump targets and the edges to them away
  together;
* `Program.Framed.step`, `Program.Steps.framed`: every step keeps the frame, and so do many;
* `Builder.Wired`: the edges of the frame while a program is built;
* **`Program.framed_runAll`**: every program has its frame, after all passes.
-/

namespace EvmFlow

/-! ## The frame -/

namespace Program

variable {p q : Program}

/-- The synthetic nodes are distinct, empty and linked as they should be, dynamic edges start or end
at the jump table, and the jump table leads to the invalid jump node and to each jump target, once.
Different offsets have different targets, and each begins with the jump destination there. -/
structure Framed (p : Program) : Prop where
  distinct : p.sentinels.toList.Nodup
  empty : ∀ n ∈ p.sentinels.toList, ∃ b, p.graph.label? n = some b ∧
    b.opcodes.start = b.opcodes.stop ∧ b.instructions = []
  unentered : p.graph.edgesTo p.sentinels.start = []
  start : ∃ m, p.graph.edgesFrom p.sentinels.start = [⟨p.sentinels.start, m, .static⟩] ∧
    p.StartsAt m 0 ∧ ∀ n ∈ p.blocks, m ≤ n
  invalidJump : p.graph.edgesFrom p.sentinels.invalidJump =
    [⟨p.sentinels.invalidJump, p.sentinels.terminator, .static⟩]
  terminator : p.graph.edgesFrom p.sentinels.terminator = []
  dynamic : ∀ e x, p.graph.edge? e = some x → x.branch = .dynamic →
    x.source = p.sentinels.jumpTable ∨ x.target = p.sentinels.jumpTable
  nodup : (p.graph.edgesFrom p.sentinels.jumpTable).Nodup
  table : ∀ x, x ∈ p.graph.edgesFrom p.sentinels.jumpTable ↔
    x = ⟨p.sentinels.jumpTable, p.sentinels.invalidJump, .dynamic⟩ ∨
      ∃ (k : Int) (m : NodeId), p.jumpTargets[k]? = some m ∧
        x = ⟨p.sentinels.jumpTable, m, .dynamic⟩
  target : ∀ (k : Int) m, p.jumpTargets[k]? = some m → m ∈ p.blocks ∧
    ∃ x ops, p.opcodes m = .ok (x :: ops) ∧ x.instr.op = .jumpdest ∧ (x.offset : Int) = k
  injective : ∀ (k k' : Int) m, p.jumpTargets[k]? = some m → p.jumpTargets[k']? = some m → k = k'

/-! ## Changes that keep clear of the frame -/

/-- `q` comes from `p` by changes of the code in blocks and of the edges that leave them. There are
no new dynamic edges, and none to the start. -/
structure KeepsFrame (p q : Program) : Prop where
  code : q.code = p.code
  sentinels : q.sentinels = p.sentinels
  jumpTargets : q.jumpTargets = p.jumpTargets
  contains : ∀ n, q.graph.contains n = p.graph.contains n
  label? : ∀ n b, p.graph.label? n = some b → ∃ b', q.graph.label? n = some b' ∧
    b'.opcodes = b.opcodes ∧ (p.isSentinel n = true → b.instructions = [] → b'.instructions = [])
  edgesFrom : ∀ n, p.isSentinel n = true → q.graph.edgesFrom n = p.graph.edgesFrom n
  edge? : ∀ e x, q.graph.edge? e = some x → (∃ f, p.graph.edge? f = some x) ∨
    x.branch = .static ∧ x.target ≠ p.sentinels.start

theorem Framed.of_keepsFrame (h : p.Framed) (hp : p.graph.Incident) (hq : q.graph.Incident)
    (hkeeps : KeepsFrame p q) : q.Framed := by
  have hsentinel : ∀ n ∈ p.sentinels.toList, p.isSentinel n = true :=
    fun n hn => List.contains_iff_mem.mpr hn
  have hedges : ∀ n ∈ p.sentinels.toList, q.graph.edgesFrom n = p.graph.edgesFrom n :=
    fun n hn => hkeeps.edgesFrom n (hsentinel n hn)
  have hblocks : ∀ n, n ∈ q.blocks ↔ n ∈ p.blocks := by
    intro n
    rw [mem_blocks, mem_blocks, hkeeps.contains, isSentinel_congr hkeeps.sentinels]
  have hstarts : ∀ {m i}, p.StartsAt m i → q.StartsAt m i := by
    rintro m i ⟨b, hb, hreal, hstart⟩
    obtain ⟨b', hb', hopcodes, -⟩ := hkeeps.label? m b hb
    exact ⟨b', hb', (isSentinel_congr hkeeps.sentinels m).trans hreal, by rw [hopcodes, hstart]⟩
  have hs := hkeeps.sentinels
  refine ⟨hs ▸ h.distinct, fun n hn => ?_, ?_, ?_, ?_, ?_, fun e x hx hdyn => ?_, ?_, fun x => ?_,
    fun k m hk => ?_, fun k k' m hk hk' => ?_⟩
  · rw [hs] at hn
    obtain ⟨b, hb, hspan, hcode⟩ := h.empty n hn
    obtain ⟨b', hb', hopcodes, hcode'⟩ := hkeeps.label? n b hb
    exact ⟨b', hb', by rw [hopcodes, hspan], hcode' (hsentinel n hn) hcode⟩
  · rw [hq.edgesTo_eq_nil, hs]
    intro e x hx
    rcases hkeeps.edge? e x hx with ⟨f, hf⟩ | ⟨-, htarget⟩
    · exact hp.edgesTo_eq_nil.mp h.unentered f x hf
    · exact htarget
  · obtain ⟨m, hm, hstart, hleast⟩ := h.start
    rw [hs, hedges _ (by simp [Sentinels.toList])]
    exact ⟨m, hm, hstarts hstart, fun n hn => hleast n ((hblocks n).mp hn)⟩
  · rw [hs, hedges _ (by simp [Sentinels.toList])]
    exact h.invalidJump
  · rw [hs, hedges _ (by simp [Sentinels.toList])]
    exact h.terminator
  · rw [hs]
    rcases hkeeps.edge? e x hx with ⟨f, hf⟩ | ⟨hstatic, -⟩
    · exact h.dynamic f x hf hdyn
    · rw [hstatic] at hdyn
      cases hdyn
  · rw [hs, hedges _ (by simp [Sentinels.toList])]
    exact h.nodup
  · rw [hs, hedges _ (by simp [Sentinels.toList]), hkeeps.jumpTargets]
    exact h.table x
  · rw [hkeeps.jumpTargets] at hk
    obtain ⟨hm, x, ops, hops, hx⟩ := h.target k m hk
    obtain ⟨b, hb⟩ := Graph.contains_iff_label?.mp (mem_blocks.mp hm).1
    obtain ⟨b', hb', hopcodes, -⟩ := hkeeps.label? m b hb
    exact ⟨(hblocks m).mpr hm, x, ops, opcodes_congr hb hb' hopcodes hkeeps.code hops, hx⟩
  · rw [hkeeps.jumpTargets] at hk hk'
    exact h.injective k k' m hk hk'

/-- New code in a block keeps clear of the frame. -/
theorem keepsFrame_modifyLabel {n : NodeId} (hreal : p.isSentinel n = false)
    {f : BasicBlock → BasicBlock} (hq : q = { p with
      graph := p.graph.modifyLabel n f, symbols := q.symbols, gaps := q.gaps, tally := q.tally })
    (hf : ∀ b, (f b).opcodes = b.opcodes) : KeepsFrame p q := by
  have hgraph : q.graph = p.graph.modifyLabel n f := by rw [hq]
  refine ⟨by rw [hq], by rw [hq], by rw [hq], fun m => ?_, fun m b hb => ?_, fun m _ => ?_,
    fun e x hx => .inl ⟨e, ?_⟩⟩
  · rw [hgraph, Graph.contains_modifyLabel]
  · rw [hgraph, Graph.label?_modifyLabel]
    by_cases hmn : m = n
    · rw [if_pos hmn, hb]
      refine ⟨f b, rfl, hf b, fun hsentinel => ?_⟩
      rw [hmn, hreal] at hsentinel
      cases hsentinel
    · rw [if_neg hmn]
      exact ⟨b, hb, rfl, fun _ => id⟩
  · rw [hgraph, Graph.edgesFrom_modifyLabel]
  · rwa [hgraph, Graph.edge?_modifyLabel] at hx

theorem Trimmed.leaving (h : p.Trimmed q) (n : NodeId) :
    q.graph.leaving n = p.graph.leaving n := by
  unfold Graph.leaving
  cases hv : p.graph.node? n with
  | none => rw [h.node?_eq_none hv]
  | some v =>
    obtain ⟨kept, hq, -⟩ := h.node? n v hv
    rw [hq]
    rfl

theorem Trimmed.keepsFrame (h : p.Trimmed q) : KeepsFrame p q := by
  refine ⟨by rw [h.others], h.sentinels, by rw [h.others], h.contains, fun n b hb => ?_,
    fun n _ => Graph.edgesFrom_congr (h.leaving n) h.edge?, fun e x hx => .inl ⟨e, ?_⟩⟩
  · obtain ⟨b', hb'⟩ := Graph.contains_iff_label?.mp
      ((h.contains n).trans (Graph.contains_iff_label?.mpr ⟨b, hb⟩))
    obtain ⟨c, kept, hc, rfl, hkept⟩ := h.label? hb'
    obtain rfl := Option.some.inj (hb.symm.trans hc)
    refine ⟨_, hb', rfl, fun _ hnil => ?_⟩
    rw [hnil] at hkept
    cases hkept
    rfl
  · rwa [h.edge?] at hx

/-- The edges of the nodes whose jump is not resolved stay as they are. -/
theorem Replaced.edgesFrom {e : EdgeId} {n t : NodeId} (h : Replaced p q e n t)
    (hp : p.graph.WellFormed) {m : NodeId} (hm : m ≠ n) :
    q.graph.edgesFrom m = p.graph.edgesFrom m := by
  unfold Graph.edgesFrom
  rw [h.leaving hm]
  apply List.filterMap_congr
  intro f hf
  obtain ⟨x, hx, hsource⟩ := hp.leaving (List.mem_reverse.mp hf)
  rw [h.edge?, if_neg, if_neg]
  · rintro rfl
    rw [h.old] at hx
    cases hx
    exact hm hsource.symm
  · rintro rfl
    rw [Graph.edge?_size] at hx
    cases hx

theorem Framed.jumpTo_ne_start (h : p.Framed) (w : Word) : p.jumpTo w ≠ p.sentinels.start := by
  rcases p.jumpTo_cases w with heq | ⟨k, hk⟩
  · have hdistinct := h.distinct
    simp only [Sentinels.toList, List.nodup_cons, List.mem_cons, not_or] at hdistinct
    rw [heq]
    exact Ne.symm hdistinct.1.2.2.1
  · intro heq
    have hreal := (mem_blocks.mp (h.target k _ hk).1).2
    simp [heq, Program.isSentinel, Sentinels.toList] at hreal

theorem Replaced.keepsFrame {e : EdgeId} {n t : NodeId} (h : Replaced p q e n t)
    (hp : p.graph.WellFormed) (hreal : p.isSentinel n = false) (ht : t ≠ p.sentinels.start) :
    KeepsFrame p q := by
  refine ⟨by rw [h.others], h.sentinels, by rw [h.others], fun m => ?_, fun m b hb => ?_,
    fun m hm => h.edgesFrom hp ?_, fun f x hx => ?_⟩
  · rw [Bool.eq_iff_iff, Graph.contains_iff_label?, Graph.contains_iff_label?, h.label?]
  · exact ⟨b, (h.label? m).trans hb, rfl, fun _ => id⟩
  · rintro rfl
    rw [hreal] at hm
    cases hm
  · rw [h.edge?] at hx
    split at hx
    · cases hx
      exact .inr ⟨rfl, ht⟩
    · split at hx
      · cases hx
      · exact .inl ⟨f, hx⟩

/-! ## Removal of blocks -/

theorem Retained.contains_iff {found : List NodeId} (h : Retained p q found) {n : NodeId} :
    q.graph.contains n = true ↔
      p.graph.contains n = true ∧ (p.isSentinel n || found.contains n) = true := by
  simp only [Graph.contains_iff_label?, h.graph, Graph.label?_retain]
  split
  · next hkeep => exact (and_iff_left hkeep).symm
  · next hkeep => exact ⟨fun ⟨_, hb⟩ => (by cases hb), fun hn => absurd hn.2 hkeep⟩

theorem Retained.edgesFrom {found : List NodeId} (h : Retained p q found)
    (hp : p.graph.Incident) {n : NodeId} (hn : p.isSentinel n = true) :
    q.graph.edgesFrom n =
      (p.graph.edgesFrom n).filter fun x => p.isSentinel x.target || found.contains x.target := by
  rw [h.graph, hp.edgesFrom_retain (by rw [hn, Bool.true_or])]

/-- Jump targets leave together with the edges to them. -/
theorem Framed.retained (h : p.Framed) (hp : p.graph.Incident) {found : List NodeId}
    (hq : Retained p q found) : q.Framed := by
  have hsentinel : ∀ n ∈ p.sentinels.toList, p.isSentinel n = true :=
    fun n hn => List.contains_iff_mem.mpr hn
  have hedges : ∀ n ∈ p.sentinels.toList, q.graph.edgesFrom n =
      (p.graph.edgesFrom n).filter fun x => p.isSentinel x.target || found.contains x.target :=
    fun n hn => hq.edgesFrom hp (hsentinel n hn)
  have hblocks : ∀ n ∈ q.blocks, n ∈ p.blocks := by
    intro n hn
    rw [mem_blocks, hq.contains_iff, hq.isSentinel] at hn
    exact mem_blocks.mpr ⟨hn.1.1, hn.2⟩
  have hedge : ∀ {e x}, q.graph.edge? e = some x → p.graph.edge? e = some x := by
    intro e x hx
    rw [hq.graph, hp.edge?_retain] at hx
    exact (Option.filter_eq_some_iff.mp hx).1
  have hs := hq.sentinels
  refine ⟨hs ▸ h.distinct, fun n hn => ?_, ?_, ?_, ?_, ?_, fun e x hx => ?_, ?_, fun x => ?_,
    fun k m hk => ?_, fun k k' m hk hk' => h.injective k k' m (hq.fewer k m hk) (hq.fewer k' m hk')⟩
  · rw [hs] at hn
    rw [hq.graph, Graph.label?_retain, hsentinel n hn]
    exact h.empty n hn
  · rw [Graph.Incident.edgesTo_eq_nil (hq.graph ▸ hp.retain _), hs]
    intro e x hx
    exact hp.edgesTo_eq_nil.mp h.unentered e x (hedge hx)
  · obtain ⟨m, hm, hstart, hleast⟩ := h.start
    have hlink : p.graph.Links p.sentinels.start m .static :=
      hp.forward.links_iff.mpr (hp.forward.mem_edgesFrom.mp (hm ▸ List.mem_singleton_self _)).2
    have hfound := hq.closed _ hq.start hlink
    rw [hs, hedges _ (by simp [Sentinels.toList]), hm]
    exact ⟨m, by simp [hfound], hq.startsAt hfound hstart, fun n hn => hleast n (hblocks n hn)⟩
  · rw [hs, hedges _ (by simp [Sentinels.toList]), h.invalidJump]
    simp [isSentinel, Sentinels.toList]
  · rw [hs, hedges _ (by simp [Sentinels.toList]), h.terminator]
    rfl
  · rw [hs]
    exact h.dynamic e x (hedge hx)
  · rw [hs, hedges _ (by simp [Sentinels.toList])]
    exact h.nodup.filter _
  · rw [hs, hedges _ (by simp [Sentinels.toList]), List.mem_filter, h.table]
    constructor
    · rintro ⟨rfl | ⟨k, m, hk, rfl⟩, hkeep⟩
      · exact .inl rfl
      · have hlive := (mem_blocks.mp (h.target k m hk).1).1
        exact .inr ⟨k, m, hq.kept k m hk (hq.contains_iff.mpr ⟨hlive, hkeep⟩), rfl⟩
    · rintro (rfl | ⟨k, m, hk, rfl⟩)
      · exact ⟨.inl rfl, by simp [isSentinel, Sentinels.toList]⟩
      · have hk' := hq.fewer k m hk
        have hlive := (mem_blocks.mp (h.target k m hk').1).1
        exact ⟨.inr ⟨k, m, hk', rfl⟩, (hq.contains_iff.mp (hq.live k m hk hlive)).2⟩
  · obtain ⟨hm, x, ops, hops, hx⟩ := h.target k m (hq.fewer k m hk)
    obtain ⟨hlive, hreal⟩ := mem_blocks.mp hm
    have hlive' := hq.live k m hk hlive
    obtain ⟨b, hb⟩ := Graph.contains_iff_label?.mp hlive'
    have hcode : q.code = p.code := by rw [hq.others]
    exact ⟨mem_blocks.mpr ⟨hlive', (hq.isSentinel m).trans hreal⟩, x, ops,
      opcodes_congr (hq.mem_of_label? hb hreal).2 hb rfl hcode hops, hx⟩

/-! ## Steps -/

theorem KeepsFrame.of_graph (hgraph : q.graph = p.graph) (hcode : q.code = p.code)
    (hs : q.sentinels = p.sentinels) (htargets : q.jumpTargets = p.jumpTargets) :
    KeepsFrame p q := by
  refine ⟨hcode, hs, htargets, fun n => by rw [hgraph], fun n b hb => ?_,
    fun n _ => by rw [hgraph], fun e x hx => .inl ⟨e, hgraph ▸ hx⟩⟩
  exact ⟨b, hgraph ▸ hb, rfl, fun _ => id⟩

/-- **Every step keeps the frame.** -/
theorem Framed.step (h : p.Framed) (hp : p.Sound) (hstep : Step p q) : q.Framed := by
  have hq := hstep.incident hp.graph
  cases hstep with
  | drop _ hr => exact h.retained hp.graph hr
  | trim ht => exact h.of_keepsFrame hp.graph hq ht.keepsFrame
  | lower _ real =>
    exact h.of_keepsFrame hp.graph hq (keepsFrame_modifyLabel real rfl fun _ => rfl)
  | lift _ real =>
    exact h.of_keepsFrame hp.graph hq (keepsFrame_modifyLabel real rfl fun _ => rfl)
  | resolve _ real _ hr =>
    exact h.of_keepsFrame hp.graph hq
      (hr.keepsFrame hp.graph.forward real (h.jumpTo_ne_start _))
  | retype => exact h.of_keepsFrame hp.graph hq (.of_graph rfl rfl rfl rfl)
  | count => exact h.of_keepsFrame hp.graph hq (.of_graph rfl rfl rfl rfl)

theorem Steps.framed (h : Steps p q) (hp : p.Sound) (hframed : p.Framed) : q.Framed :=
  (h.induct hp hframed fun hstep hr hf => hf.step hr hstep).2

end Program

/-! ## New programs -/

namespace Builder

variable {b b' : Builder} {code : List Located}

/-- The edges so far: those of the synthetic nodes, where the nodes `ts` are the jump targets; and
those of the blocks, none of which leads to the start, or to a block as a dynamic edge. -/
structure Wired (b : Builder) (ts : List NodeId) : Prop where
  label? : ∀ n ∈ Sentinels.initial.toList, b.graph.label? n = some (.startingAt 0)
  start : b.graph.edgesFrom Sentinels.initial.start =
    [⟨Sentinels.initial.start, initial.current, .static⟩]
  invalidJump : b.graph.edgesFrom Sentinels.initial.invalidJump =
    [⟨Sentinels.initial.invalidJump, Sentinels.initial.terminator, .static⟩]
  terminator : b.graph.edgesFrom Sentinels.initial.terminator = []
  table : b.graph.edgesFrom Sentinels.initial.jumpTable =
    (Sentinels.initial.invalidJump :: ts).map (⟨Sentinels.initial.jumpTable, ·, .dynamic⟩)
  nodup : ts.Nodup
  mem : ∀ m, m ∈ ts ↔ ∃ k : Int, b.jumpTargets[k]? = some m
  block : ∀ n ∉ Sentinels.initial.toList, ∀ x ∈ b.graph.edgesFrom n,
    x.target ≠ Sentinels.initial.start ∧
      (x.branch = .dynamic → x.target = Sentinels.initial.jumpTable)

theorem wired_initial : initial.Wired [] where
  label? n hn := by
    obtain ⟨x, hx⟩ := Graph.contains_iff_label?.mp ((laid_initial []).sentinels n hn)
    rw [hx, (of_label?_initial hx).2]
  start := by decide +kernel
  invalidJump := by decide +kernel
  terminator := by decide +kernel
  table := by decide +kernel
  nodup := .nil
  mem m := by
    have hnone : ∀ k : Int, initial.jumpTargets[k]? = none := fun k => Std.TreeMap.getElem?_emptyc
    simp [hnone]
  block n hn x hx := by
    obtain ⟨rfl, e, he⟩ := incident_initial.forward.mem_edgesFrom.mp hx
    obtain ⟨y, hy⟩ := Graph.contains_iff_label?.mp (incident_initial.contains_source he)
    have hfirst := (of_label?_initial hy).1.resolve_left hn
    have hnone : initial.graph.edgesFrom initial.current = [] := by decide +kernel
    rw [hfirst, hnone] at hx
    cases hx

theorem of_mem_exits {op : Opcode} {x : Graph.Edge} (hx : x ∈ exits b b' op)
    (hreal : b'.current ∉ Sentinels.initial.toList) :
    x.target ≠ Sentinels.initial.start ∧
      (x.branch = .dynamic → x.target = Sentinels.initial.jumpTable) := by
  have hstart : b'.current ≠ Sentinels.initial.start := by
    intro heq
    rw [heq] at hreal
    exact hreal (by decide)
  have htable : Sentinels.initial.jumpTable ≠ Sentinels.initial.start := by decide
  have hterminator : Sentinels.initial.terminator ≠ Sentinels.initial.start := by decide
  unfold exits at hx
  split at hx
  · rw [List.mem_singleton] at hx
    rw [hx]
    exact ⟨htable, fun _ => rfl⟩
  · simp only [List.mem_cons, List.not_mem_nil, or_false] at hx
    rcases hx with rfl | rfl
    · exact ⟨htable, fun _ => rfl⟩
    · exact ⟨hstart, by simp⟩
  · split at hx
    · cases hx
    · rw [List.mem_singleton] at hx
      rw [hx]
      exact ⟨hstart, by simp⟩
  · split at hx
    · rw [List.mem_singleton] at hx
      rw [hx]
      exact ⟨hterminator, by simp⟩
    · cases hx

section Step

variable {x : Located} {ts : List NodeId} {a i z a' : Nat}

/-- A synthetic node other than the jump table keeps its edges. -/
theorem Takes.edgesFrom_sentinel (ht : Takes b b' x a i z a') (h : Laid code b a i) {n : NodeId}
    (hn : n ∈ Sentinels.initial.toList) (hne : n ≠ Sentinels.initial.jumpTable) :
    b'.graph.edgesFrom n = b.graph.edgesFrom n := by
  have hcur : n ≠ b.current := fun heq => h.real (heq ▸ hn)
  rw [ht.edgesFrom, if_neg hcur, if_neg hne, List.append_nil, List.append_nil]

/-- A block becomes a jump target once: it begins where the destination is. -/
theorem Takes.not_target (ht : Takes b b' x a i z a') (h : Laid code b a i)
    (hop : x.instr.op = .jumpdest) (k : Int) : b.jumpTargets[k]? ≠ some b'.current := by
  intro hk
  rcases ht.enters with ⟨-, rfl, -⟩ | ⟨hne, -⟩
  · obtain ⟨j, y, hj, -, -, -, hstart⟩ := h.exists_startsAt hk
    obtain ⟨c, hc, -, hcj⟩ := ht.startsAt h hstart
    obtain ⟨d, hd, -, hdi⟩ := ht.startsAt_current h
    obtain rfl := Option.some.inj (hc.symm.trans hd)
    omega
  · exact hne hop

/-- **Taking in an instruction keeps the wiring**, with a new jump target at a destination. -/
theorem Wired.step (hw : b.Wired ts) (h : Laid code b a i)
    (hcode : code.Pairwise fun x y => x.offset < y.offset) (hx : code[i]? = some x)
    (ht : Takes b b' x a i z a') :
    b'.Wired (ts ++ if x.instr.op = .jumpdest then [b'.current] else []) where
  label? n hn := by
    have hcur : n ≠ b.current := fun heq => h.real (heq ▸ hn)
    have hcur' : n ≠ b'.current := fun heq => ht.real h (heq ▸ hn)
    rw [ht.label?, if_neg hcur', if_neg hcur, hw.label? n hn]
  start := by rw [ht.edgesFrom_sentinel h (by decide) (by decide), hw.start]
  invalidJump := by rw [ht.edgesFrom_sentinel h (by decide) (by decide), hw.invalidJump]
  terminator := by rw [ht.edgesFrom_sentinel h (by decide) (by decide), hw.terminator]
  table := by
    have hcur : Sentinels.initial.jumpTable ≠ b.current := fun heq => h.real (heq ▸ by decide)
    rw [ht.edgesFrom, if_neg hcur, if_pos rfl, hw.table, entries]
    split <;> simp
  nodup := by
    split
    · next hop =>
      refine hw.nodup.append (List.nodup_singleton _) ?_
      intro m hm hm'
      obtain ⟨k, hk⟩ := (hw.mem m).mp hm
      rw [List.mem_singleton] at hm'
      exact ht.not_target h hop k (hm' ▸ hk)
    · rw [List.append_nil]
      exact hw.nodup
  mem m := by
    rw [List.mem_append, hw.mem]
    rcases ht.enters with ⟨hop, -, -, hinsert⟩ | ⟨hop, hsame⟩
    · rw [if_pos hop, hinsert, List.mem_singleton]
      have hfresh : ∀ k, b.jumpTargets[k]? = some m → compare (x.offset : Int) k ≠ .eq := by
        intro k hk heq
        obtain ⟨j, y, hj, hy, -, hoffset, -⟩ := h.exists_startsAt hk
        have hlt := offset_lt_of_lt hcode hj hy hx
        rw [Std.LawfulEqCmp.compare_eq_iff_eq] at heq
        omega
      constructor
      · rintro (⟨k, hk⟩ | rfl)
        · exact ⟨k, by rw [Std.TreeMap.getElem?_insert, if_neg (hfresh k hk), hk]⟩
        · exact ⟨x.offset, Std.TreeMap.getElem?_insert_self⟩
      · rintro ⟨k, hk⟩
        rw [Std.TreeMap.getElem?_insert] at hk
        split at hk
        · exact .inr (Option.some.inj hk).symm
        · exact .inl ⟨k, hk⟩
    · rw [if_neg hop, hsame]
      simp
  block n hn y hy := by
    have htable : n ≠ Sentinels.initial.jumpTable := fun heq => hn (heq ▸ by decide)
    rw [ht.edgesFrom, if_neg htable, List.append_nil, List.mem_append] at hy
    rcases hy with hy | hy
    · exact hw.block n hn y hy
    · split at hy
      · exact of_mem_exits hy (ht.real h)
      · cases hy

end Step

/-- A jump target is a block, so it is not the start. -/
theorem Wired.edge? {ts : List NodeId} {a i : Nat} (hw : b.Wired ts) (h : Laid code b a i)
    {e : EdgeId} {x : Graph.Edge} (hx : b.graph.edge? e = some x) :
    x.target ≠ Sentinels.initial.start ∧ (x.branch = .dynamic →
      x.source = Sentinels.initial.jumpTable ∨ x.target = Sentinels.initial.jumpTable) := by
  have hmem := h.graph.forward.mem_edgesFrom.mpr ⟨rfl, e, hx⟩
  by_cases hsource : x.source ∈ Sentinels.initial.toList
  · simp only [Sentinels.toList, List.mem_cons, List.not_mem_nil, or_false] at hsource
    rcases hsource with heq | heq | heq | heq <;> rw [heq] at hmem
    · rw [hw.start, List.mem_singleton] at hmem
      rw [hmem]
      exact ⟨(by decide : initial.current ≠ Sentinels.initial.start), by simp⟩
    · refine ⟨?_, fun _ => .inl heq⟩
      rw [hw.table, List.mem_map] at hmem
      obtain ⟨m, hm, rfl⟩ := hmem
      rcases List.mem_cons.mp hm with rfl | hm
      · exact (by decide : Sentinels.initial.invalidJump ≠ Sentinels.initial.start)
      · obtain ⟨k, hk⟩ := (hw.mem m).mp hm
        obtain ⟨j, y, -, -, -, -, _, -, hreal, -⟩ := h.exists_startsAt hk
        rintro rfl
        exact isSentinel_program.mp hreal (by decide)
    · rw [hw.terminator] at hmem
      cases hmem
    · rw [hw.invalidJump, List.mem_singleton] at hmem
      rw [hmem]
      exact ⟨(by decide : Sentinels.initial.terminator ≠ Sentinels.initial.start), by simp⟩
  · obtain ⟨htarget, hdynamic⟩ := hw.block _ hsource x hmem
    exact ⟨htarget, fun hdyn => .inr (hdynamic hdyn)⟩

/-- The opcodes of the block of a jump destination begin with it. -/
theorem Laid.opcodes_target {a : Nat} (h : Laid code b a code.length) {j : Nat} {m : NodeId}
    {x : Located} (hx : code[j]? = some x) (hm : (b.program code).StartsAt m j) :
    ∃ ops, (b.program code).opcodes m = .ok (x :: ops) := by
  obtain ⟨c, z, hc, -, hflows⟩ := h.tracks.flows_of_startsAt hm
  obtain ⟨hlt, rfl⟩ := List.getElem?_eq_some_iff.mp hx
  have hz := hflows.nonempty hlt
  refine ⟨code.extract (j + 1) z, ?_⟩
  rw [h.tracks.opcodes_eq hc hflows, List.extract_eq_take_drop, List.drop_eq_getElem_cons hlt,
    List.extract_eq_take_drop, ← Nat.succ_sub_succ z j, Nat.succ_sub hz, List.take_succ_cons]

theorem Wired.framed {ts : List NodeId} {a : Nat} (hw : b.Wired ts)
    (h : Laid code b a code.length) : (b.program code).Framed where
  distinct := (by decide : Sentinels.initial.toList.Nodup)
  empty n hn := ⟨_, hw.label? n hn, rfl, rfl⟩
  unentered := h.graph.edgesTo_eq_nil.mpr fun e x hx => (hw.edge? h hx).1
  start := by
    refine ⟨initial.current, hw.start, ?_, fun n hn => ?_⟩
    · obtain ⟨m, hm, hlink⟩ := h.entry
      obtain ⟨e, he⟩ := h.graph.forward.links_iff.mp hlink
      have hmem := h.graph.forward.mem_edgesFrom.mpr ⟨rfl, e, he⟩
      rw [hw.start, List.mem_singleton] at hmem
      cases hmem
      exact hm
    · obtain ⟨hlive, hreal⟩ := Program.mem_blocks.mp hn
      have hreal := isSentinel_program.mp hreal
      obtain ⟨v, hv⟩ := Graph.contains_iff.mp hlive
      obtain ⟨i, rfl, -⟩ := Graph.exists_of_node? hv
      change (4 : Int) ≤ i
      by_contra hlt
      have hlt : i < 4 := by omega
      interval_cases i <;> exact hreal (by decide)
  invalidJump := hw.invalidJump
  terminator := hw.terminator
  dynamic e x hx := (hw.edge? h hx).2
  nodup := by
    change (b.graph.edgesFrom Sentinels.initial.jumpTable).Nodup
    rw [hw.table]
    refine List.Nodup.map (fun m m' heq => congrArg Graph.Edge.target heq)
      (List.nodup_cons.mpr ⟨fun hmem => ?_, hw.nodup⟩)
    obtain ⟨k, hk⟩ := (hw.mem _).mp hmem
    obtain ⟨j, y, -, -, -, -, _, -, hreal, -⟩ := h.exists_startsAt hk
    exact isSentinel_program.mp hreal (by decide)
  table x := by
    change x ∈ b.graph.edgesFrom Sentinels.initial.jumpTable ↔ _
    rw [hw.table, List.map_cons, List.mem_cons, List.mem_map]
    refine or_congr_right ⟨?_, ?_⟩
    · rintro ⟨m, hm, rfl⟩
      obtain ⟨k, hk⟩ := (hw.mem m).mp hm
      exact ⟨k, m, hk, rfl⟩
    · rintro ⟨k, m, hk, rfl⟩
      exact ⟨m, (hw.mem m).mpr ⟨k, hk⟩, rfl⟩
  target k m hk := by
    obtain ⟨j, x, -, hx, hop, hoffset, hstart⟩ := h.exists_startsAt hk
    obtain ⟨ops, hops⟩ := h.opcodes_target hx hstart
    exact ⟨hstart.mem_blocks, x, ops, hops, hop, hoffset⟩
  injective k k' m hk hk' := by
    obtain ⟨j, x, -, hx, -, rfl, c, hc, -, hj⟩ := h.exists_startsAt hk
    obtain ⟨j', x', -, hx', -, rfl, c', hc', -, hj'⟩ := h.exists_startsAt hk'
    obtain rfl := Option.some.inj (hc.symm.trans hc')
    obtain rfl := Int.ofNat.inj (hj.symm.trans hj')
    rw [Option.some.inj (hx.symm.trans hx')]

end Builder

namespace Program

theorem framed_ofInstrs (instrs : List Instr) : (ofInstrs instrs).Framed := by
  obtain ⟨b, a, h, ⟨ts, hw⟩, heq⟩ := exists_laid_and instrs (P := fun b _ _ => ∃ ts, b.Wired ts)
    ⟨[], Builder.wired_initial⟩ fun h hx ht ⟨_, hw⟩ =>
      ⟨_, hw.step h (pairwise_locate instrs 0) hx ht⟩
  rw [heq]
  exact hw.framed h

/-- **Every program has its frame, after all passes.** Whatever built-in passes run on the program
of a code, they succeed, and the result has the frame of a new program, with an edge from the jump
table to each jump target that is left. -/
theorem framed_runAll (instrs : List Instr) : ∃ p, build instrs = .ok p ∧
    ∀ passes : List Pass, (∀ pass ∈ passes, pass = .deadCode ∨ pass = .lift) →
      ∃ q, p.runAll passes = (q, .ok ()) ∧ q.Framed := by
  obtain ⟨p, hp, hruns⟩ := exists_steps_runAll instrs
  refine ⟨p, hp, fun passes hpasses => ?_⟩
  obtain ⟨q, hq, hsteps⟩ := hruns passes hpasses
  obtain ⟨-, hframed⟩ := hsteps.induct (sound_ofInstrs instrs) (framed_ofInstrs instrs)
    fun hstep hr h => h.step hr hstep
  exact ⟨q, hq, hframed⟩

/-- A jump to the second of two jump destinations, over the first. -/
def hop : List Instr := decode [0x60, 4, 0x56, 0x5b, 0x5b]

theorem framed_runAll_hop :
    (∀ pass ∈ [Pass.lift, .deadCode], pass = .deadCode ∨ pass = .lift) ∧
      ∃ p q, build hop = .ok p ∧ p.runAll [.lift, .deadCode] = (q, .ok ()) ∧ q.Framed ∧
        p.jumpTargets.toList = [(3, 5), (4, 6)] ∧ q.jumpTargets.toList = [(4, 6)] := by
  have hpasses : ∀ pass ∈ [Pass.lift, .deadCode], pass = .deadCode ∨ pass = .lift := by simp
  have htargets : (build hop).toOption.map (fun p =>
      (p.jumpTargets.toList, (p.runAll [.lift, .deadCode]).1.jumpTargets.toList)) =
      some ([(3, 5), (4, 6)], [(4, 6)]) := by decide +kernel
  obtain ⟨p, hp, hall⟩ := framed_runAll hop
  obtain ⟨q, hq, hframed⟩ := hall _ hpasses
  rw [hp] at htargets
  obtain ⟨hbefore, hafter⟩ := Prod.mk.inj (Option.some.inj htargets)
  rw [hq] at hafter
  exact ⟨hpasses, p, q, hp, hq, hframed, hbefore, hafter⟩

end Program

end EvmFlow
