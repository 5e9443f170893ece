import EvmFlow.Proofs.BlockExits
import EvmFlow.Proofs.DepthFirst

/-!
# When the terminator can be reached

In a new program control falls from block to block up to the first block end. From there an edge
leads to the terminator, or one to the jump table, and from the jump table a path leads over the
invalid jump to the terminator. Without a block end control never leaves the row of the blocks.

* `Graph.WellFormed.follows_iff_mem_edgesFrom`: live edges, by the lists of the nodes;
* `Builder.Precedes.reaches_terminator`, `Builder.Precedes.follows_iff`: the step from one block, to
  the terminator or to the next block;
* `Builder.Laid.reaches_terminator`: the way along the row to a block end;
* `Builder.Row.confined`: the row is not left without a block end;
* **`Program.terminator_reachable_iff`**: the terminator of a new program can be reached exactly if
  the code has a block end.
-/

namespace EvmFlow

namespace Graph

variable {β : Type} {g : Graph β} {n m : NodeId}

theorem WellFormed.follows_iff_mem_edgesFrom (h : g.WellFormed) :
    g.Follows n m ↔ ∃ x ∈ g.edgesFrom n, x.target = m := by
  simp only [h.mem_edgesFrom]
  constructor
  · rintro ⟨e, x, hx, hsource, htarget⟩
    exact ⟨x, ⟨hsource, e, hx⟩, htarget⟩
  · rintro ⟨x, ⟨hsource, e, hx⟩, htarget⟩
    exact ⟨e, x, hx, hsource, htarget⟩

end Graph

theorem Opcode.isBlockEnd_iff_mem {op : Opcode} : op.isBlockEnd = true ↔
    op ∈ [.stop, .ret, .revert, .invalid, .selfdestruct, .jump, .jumpi] := by
  cases op <;> simp [isBlockEnd, isTerminator]

/-- From the jump table a path leads over the invalid jump to the terminator. -/
theorem Program.Framed.table_reaches_terminator {p : Program} (h : p.Framed)
    (hg : p.graph.WellFormed) : p.graph.Reaches p.sentinels.jumpTable p.sentinels.terminator := by
  have htable : p.graph.Follows p.sentinels.jumpTable p.sentinels.invalidJump :=
    hg.follows_iff_mem_edgesFrom.mpr ⟨_, (h.table _).mpr (.inl rfl), rfl⟩
  have hinvalid : p.graph.Follows p.sentinels.invalidJump p.sentinels.terminator := by
    rw [hg.follows_iff_mem_edgesFrom, h.invalidJump]
    exact ⟨_, List.mem_singleton_self _, rfl⟩
  exact .tail (.single htable) hinvalid

namespace Builder

variable {b : Builder} {instrs : List Instr} {n m : NodeId} {a i s e : Nat} {x : Instr}

/-! ## One block -/

/-- A block that ends with a block end leads to the terminator. -/
theorem Precedes.reaches_terminator (hn : Precedes instrs b n m s e) (hg : b.graph.WellFormed)
    (hframed : (b.program (locate 0 instrs)).Framed) (hx : instrs[e - 1]? = some x)
    (hend : x.op.isBlockEnd = true) :
    b.graph.Reaches n Sentinels.initial.terminator := by
  obtain ⟨y, hy, hedges⟩ := hn.edges
  obtain rfl := Option.some.inj (hx.symm.trans hy)
  have hfollows : ∀ z ∈ departures n m x.op, b.graph.Follows n z.target := by
    intro z hz
    exact hg.follows_iff_mem_edgesFrom.mpr ⟨z, hedges ▸ hz, rfl⟩
  rcases Evm.isBlockEnd_iff.mp hend with hjump | hhalt
  · have htable : b.graph.Follows n Sentinels.initial.jumpTable := by
      rcases hjump with hop | hop <;> rw [hop] at hfollows <;>
        exact hfollows _ List.mem_cons_self
    exact .head htable (hframed.table_reaches_terminator hg)
  · rw [departures_of_isTerminator hhalt] at hfollows
    exact .single (hfollows _ (List.mem_singleton_self _))

/-- Any other block leads to the next one, and nowhere else. -/
theorem Precedes.follows_iff (hn : Precedes instrs b n m s e) (hg : b.graph.WellFormed)
    (hinner : ∀ x, instrs[e - 1]? = some x → x.op.isBlockEnd = false) {k : NodeId} :
    b.graph.Follows n k ↔ k = m := by
  obtain ⟨y, hy, hedges⟩ := hn.edges
  rw [hg.follows_iff_mem_edgesFrom, hedges, departures_of_inner (hinner y hy)]
  simp [eq_comm]

/-- A block end that is not the last instruction of a block lies behind the block, for a block
begins behind it and none begins inside of another. -/
theorem Precedes.le_of_isBlockEnd (hn : Precedes instrs b n m s e)
    (hinner : ∀ x, instrs[e - 1]? = some x → x.op.isBlockEnd = false) (hsi : s ≤ i)
    (hx : instrs[i]? = some x) (hend : x.op.isBlockEnd = true) : e ≤ i := by
  by_contra hlt
  have hbegins : Begins instrs (i + 1) := .inr (.inr ⟨i, x, rfl, hx, hend⟩)
  by_cases hlast : i = e - 1
  · rw [hinner x (hlast ▸ hx)] at hend
    cases hend
  · exact hn.inner (i + 1) (by omega) (by omega) hbegins

/-! ## The row -/

/-- **The way along the row**: from a block a path leads to the terminator if there is a block end
in the block or behind it. -/
theorem Laid.reaches_terminator (h : Laid (locate 0 instrs) b a instrs.length)
    (hframed : (b.program (locate 0 instrs)).Framed) (hx : instrs[i]? = some x)
    (hend : x.op.isBlockEnd = true) {ns : List NodeId}
    (hchain : (n :: ns).IsChain fun n m => ∃ s e, Precedes instrs b n m s e)
    (hlast : (n :: ns).getLast? = some b.current)
    (hn : (b.program (locate 0 instrs)).StartsAt n s) (hsi : s ≤ i) :
    b.graph.Reaches n Sentinels.initial.terminator := by
  have hg := h.graph.forward
  obtain ⟨y, hy, -, hstart⟩ := hn
  induction ns generalizing n s y with
  | nil =>
    -- The last block has no block end.
    obtain rfl := Option.some.inj hlast
    obtain rfl := Option.some.inj (hy.symm.trans h.current)
    obtain rfl := Int.ofNat_inj.mp hstart
    obtain ⟨z, hz, rfl⟩ := Option.map_eq_some_iff.mp ((getElem?_locate 0 instrs _).trans hx)
    have hlt := (List.getElem?_eq_some_iff.mp hx).1
    rw [h.straight i z hsi hlt hz] at hend
    cases hend
  | cons m ns ih =>
    obtain ⟨⟨s', e, hprec⟩, hchain⟩ := List.isChain_cons_cons.mp hchain
    obtain rfl := Option.some.inj (hy.symm.trans hprec.label?)
    obtain rfl := Int.ofNat_inj.mp hstart
    obtain ⟨z, hz, hedges⟩ := hprec.edges
    by_cases hlastEnd : z.op.isBlockEnd = true
    · exact hprec.reaches_terminator hg hframed hz hlastEnd
    · have hinner : ∀ x, instrs[e - 1]? = some x → x.op.isBlockEnd = false := by
        intro x hx
        obtain rfl := Option.some.inj (hz.symm.trans hx)
        exact Bool.eq_false_iff.mpr hlastEnd
      have hbehind : e ≤ i := hprec.le_of_isBlockEnd hinner hsi hx hend
      obtain ⟨y, hy, -, hnext⟩ := hprec.next
      exact .head ((hprec.follows_iff hg hinner).mpr rfl)
        (ih hchain (by simpa using hlast) hbehind y hy hnext)

/-- **Without a block end** control does not leave the blocks. -/
theorem Row.confined (hrow : Row instrs b a instrs.length)
    (h : Laid (locate 0 instrs) b a instrs.length) (hframed : (b.program (locate 0 instrs)).Framed)
    (hinner : ∀ x ∈ instrs, x.op.isBlockEnd = false) {k : NodeId}
    (hk : b.graph.Reaches Sentinels.initial.start k) :
    k = Sentinels.initial.start ∨ k ∈ b.blocks := by
  have hg := h.graph.forward
  induction hk with
  | refl => exact .inl rfl
  | @tail n k _ hfollows ih =>
    right
    rcases ih with rfl | hn
    · obtain ⟨first, hedges, hstart, -⟩ := hframed.start
      obtain ⟨x, hx, rfl⟩ := hg.follows_iff_mem_edgesFrom.mp hfollows
      obtain rfl := List.mem_singleton.mp (hedges ▸ hx)
      exact hstart.mem_blocks
    · obtain ⟨before, later, hblocks⟩ := List.append_of_mem hn
      cases later with
      | nil =>
        -- The last block has no edges.
        obtain ⟨ns, hlast⟩ := hrow.last
        rw [hlast] at hblocks
        obtain rfl := List.singleton_inj.mp (List.append_inj_right' hblocks rfl)
        obtain ⟨x, hx, -⟩ := hg.follows_iff_mem_edgesFrom.mp hfollows
        rw [hrow.edges] at hx
        cases hx
      | cons m later =>
        have hchain := hrow.chain
        rw [hblocks] at hchain
        obtain ⟨s, e, hprec⟩ := List.isChain_iff_forall_rel_of_append_cons_cons.mp hchain rfl
        have hlast : ∀ x, instrs[e - 1]? = some x → x.op.isBlockEnd = false :=
          fun x hx => hinner x (List.mem_of_getElem? hx)
        obtain rfl := (hprec.follows_iff hg hlast).mp hfollows
        exact hprec.next.mem_blocks

end Builder

namespace Program

/-- The terminator can be reached from the start exactly if the code has a block end. -/
theorem reaches_terminator_iff (instrs : List Instr) :
    (ofInstrs instrs).graph.Reaches (ofInstrs instrs).sentinels.start
      (ofInstrs instrs).sentinels.terminator ↔ ∃ x ∈ instrs, x.op.isBlockEnd = true := by
  obtain ⟨b, a, h, hrow, heq⟩ := exists_row instrs
  have hframed := framed_ofInstrs instrs
  rw [heq] at hframed ⊢
  constructor
  · intro hreaches
    by_contra hnone
    have hinner : ∀ x ∈ instrs, x.op.isBlockEnd = false :=
      fun x hx => Bool.eq_false_iff.mpr fun hend => hnone ⟨x, hx, hend⟩
    rcases hrow.confined h hframed hinner hreaches with heq | hblock
    · exact absurd heq (by decide : Sentinels.initial.terminator ≠ Sentinels.initial.start)
    · have hreal := (mem_blocks (p := b.program (locate 0 instrs))).mp hblock
      exact Builder.isSentinel_program.mp hreal.2
        (by decide : Sentinels.initial.terminator ∈ Sentinels.initial.toList)
  · rintro ⟨x, hx, hend⟩
    obtain ⟨i, hi⟩ := List.mem_iff_getElem?.mp hx
    obtain ⟨n, ns, hfirst, hstart⟩ := hrow.first
    obtain ⟨ns', hlast⟩ := hrow.last
    have hlast : (n :: ns).getLast? = some b.current := by
      rw [← hfirst, hlast, List.getLast?_concat]
    obtain ⟨first, hhead, hedges⟩ := hframed.exists_first
    obtain rfl : n = first := Option.some.inj ((congrArg List.head? hfirst).symm.trans hhead)
    have hentry : b.graph.Follows Sentinels.initial.start n :=
      h.graph.forward.follows_iff_mem_edgesFrom.mpr ⟨_, hedges ▸ List.mem_singleton_self _, rfl⟩
    exact .head hentry
      (h.reaches_terminator hframed hi hend (hfirst ▸ hrow.chain) hlast hstart (Nat.zero_le i))

/-- **When the terminator can be reached.** In the graph of a new program a path leads from the
start to the terminator exactly if the code has a terminator or a jump, and the search from the
start finds the terminator exactly then. -/
theorem terminator_reachable_iff (instrs : List Instr) :
    let p := ofInstrs instrs
    let ends : List Opcode := [.stop, .ret, .revert, .invalid, .selfdestruct, .jump, .jumpi]
    (p.graph.Reaches p.sentinels.start p.sentinels.terminator ↔ ∃ x ∈ instrs, x.op ∈ ends) ∧
      ∃ found, p.graph.dfs p.sentinels.start = .ok found ∧
        (p.sentinels.terminator ∈ found ↔ ∃ x ∈ instrs, x.op ∈ ends) := by
  intro p ends
  have hreaches : p.graph.Reaches p.sentinels.start p.sentinels.terminator ↔
      ∃ x ∈ instrs, x.op ∈ ends := by
    simp only [ends, ← Opcode.isBlockEnd_iff_mem]
    exact reaches_terminator_iff instrs
  have hsound := sound_ofInstrs instrs
  have hlive := hsound.verified.sentinel p.sentinels.start List.mem_cons_self
  have hdfs := Graph.dfs_eq_ok.mpr ⟨hlive, rfl⟩
  exact ⟨hreaches, _, hdfs, (hsound.graph.forward.mem_dfs_iff hdfs).trans hreaches⟩

end Program

end EvmFlow
