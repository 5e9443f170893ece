import EvmFlow.Proofs.BlockRow
import EvmFlow.Proofs.PassSuccess
import EvmFlow.Proofs.ProgramFrame

/-!
# The edges between blocks

The edges that leave a block of a new program are those that its last instruction calls for, no more
and no fewer. So every static edge that enters a block stands for control that falls through from
the block in front of it; only the first block has another one, from the start.

* `Program.Departs`: the edges of a block, by its last opcode and the block behind it;
* `Program.Linked`: a program with exactly these edges at its blocks;
* `Builder.Precedes.departs`, `Builder.Row.departs`: the blocks of a row have them;
* **`Program.linked_ofInstrs`**: new programs are linked.
-/

namespace EvmFlow

namespace Program

/-! ## Statement -/

/-- The edges that leave the block at `n` when `last` is the opcode of its last instruction and
`next` the block behind it. -/
inductive Departs (p : Program) (n : NodeId) :
    (last : Option Opcode) → (next : Option NodeId) → List Graph.Edge → Prop
  /-- A jump goes through the jump table. -/
  | jump {next : Option NodeId} :
      Departs p n (some .jump) next [⟨n, p.sentinels.jumpTable, .dynamic⟩]
  /-- A conditional jump can also fall through. -/
  | jumpi {m : NodeId} : Departs p n (some .jumpi) (some m)
      [⟨n, p.sentinels.jumpTable, .dynamic⟩, ⟨n, m, .static⟩]
  /-- A terminator ends the execution. -/
  | halt {op : Opcode} {next : Option NodeId} (halts : op.isTerminator = true) :
      Departs p n (some op) next [⟨n, p.sentinels.terminator, .static⟩]
  /-- Control falls through to a jump destination. -/
  | fall {op : Opcode} {m : NodeId} {x : Located} {ops : List Located}
      (inner : op.isBlockEnd = false) (opcodes : p.opcodes m = .ok (x :: ops))
      (dest : x.instr.op = .jumpdest) : Departs p n (some op) (some m) [⟨n, m, .static⟩]
  /-- The code ends without a block end. -/
  | final {op : Opcode} (inner : op.isBlockEnd = false) : Departs p n (some op) none []
  /-- The block behind a block end at the end of the code is empty. -/
  | empty : Departs p n none none []

/-- A program whose blocks have the edges that their last instructions call for. A static edge into
a block leaves a block or the start, where it is listed. -/
structure Linked (p : Program) : Prop where
  block : ∀ before n after, p.blocks = before ++ n :: after →
    ∃ ops edges, p.opcodes n = .ok ops ∧ p.graph.outgoingEdges n = .ok edges ∧
      p.Departs n (ops.getLast?.map (·.instr.op)) after.head? edges
  start : ∃ first, p.blocks.head? = some first ∧
    p.graph.outgoingEdges p.sentinels.start = .ok [⟨p.sentinels.start, first, .static⟩]
  entering : ∀ m ∈ p.blocks, ∃ es, p.graph.incoming m = .ok es ∧
    ∀ e ∈ es, ∃ x, p.graph.edge e = .ok x ∧ (x.branch = .static →
      (x.source ∈ p.blocks ∨ x.source = p.sentinels.start) ∧
        ∃ out, p.graph.outgoing x.source = .ok out ∧ e ∈ out)

end Program

namespace Builder

variable {b : Builder} {instrs : List Instr} {a s e : Nat} {n m : NodeId}

/-! ## The edges of a row -/

theorem getLast?_extract {code : List Located} {x : Located} (hlt : s < e)
    (hx : code[e - 1]? = some x) : (code.extract s e).getLast? = some x := by
  obtain ⟨i, rfl⟩ : ∃ i, e = i + 1 := ⟨e - 1, by omega⟩
  rw [Nat.add_sub_cancel] at hx
  rw [Program.extract_concat (by omega) hx, List.getLast?_concat]

theorem Laid.opcodes_of_span (h : Laid (locate 0 instrs) b a instrs.length)
    (hreal : n ∉ Sentinels.initial.toList)
    (hlabel : b.graph.label? n = some { opcodes := ⟨s, e⟩ }) :
    (b.program (locate 0 instrs)).opcodes n = .ok ((locate 0 instrs).extract s e) := by
  rw [← length_locate 0 instrs] at h
  obtain ⟨s', e', hflows⟩ := h.tracks.block n _ hlabel (isSentinel_program.mpr hreal)
  obtain ⟨rfl, rfl⟩ := hflows.eq_of_span rfl
  exact h.tracks.opcodes_eq hlabel hflows

/-- Only at a jump destination does a block begin behind an instruction that is no block end. -/
theorem Precedes.jumpdest (hn : Precedes instrs b n m s e) {x : Instr}
    (hx : instrs[e - 1]? = some x) (hinner : x.op.isBlockEnd = false) :
    ∃ y, instrs[e]? = some y ∧ y.op = .jumpdest := by
  have hlt := hn.lt
  rcases hn.begins with hzero | hdest | ⟨j, y, rfl, hy, hend⟩
  · omega
  · exact hdest
  · obtain rfl := Option.some.inj (hx.symm.trans hy)
    rw [hinner] at hend
    cases hend

/-- The block in front of another one has the edges that its last instruction calls for. -/
theorem Precedes.departs (hn : Precedes instrs b n m s e)
    (h : Laid (locate 0 instrs) b a instrs.length) :
    ∃ ops, (b.program (locate 0 instrs)).opcodes n = .ok ops ∧
      (b.program (locate 0 instrs)).Departs n (ops.getLast?.map (·.instr.op)) (some m)
        (b.graph.edgesFrom n) := by
  obtain ⟨y, hy, hedges⟩ := hn.edges
  obtain ⟨x, hx, rfl⟩ := Option.map_eq_some_iff.mp ((getElem?_locate 0 instrs _).trans hy)
  refine ⟨_, h.opcodes_of_span hn.real hn.label?, ?_⟩
  rw [hedges, getLast?_extract hn.lt hx, Option.map_some]
  by_cases hend : x.instr.op.isBlockEnd = true
  · rcases Evm.isBlockEnd_iff.mp hend with (hop | hop) | hhalt
    · rw [hop]
      exact .jump
    · rw [hop]
      exact .jumpi
    · rw [departures_of_isTerminator hhalt]
      exact .halt hhalt
  · have hinner := Bool.eq_false_iff.mpr hend
    obtain ⟨y, hy, hdest⟩ := hn.jumpdest hy hinner
    obtain ⟨z, hz, rfl⟩ := Option.map_eq_some_iff.mp ((getElem?_locate 0 instrs _).trans hy)
    rw [← length_locate 0 instrs] at h
    obtain ⟨ops, hops⟩ := h.opcodes_target hz hn.next
    rw [departures_of_inner hinner]
    exact .fall hinner hops hdest

/-- The last block has no edges. -/
theorem Row.departs (hrow : Row instrs b a instrs.length)
    (h : Laid (locate 0 instrs) b a instrs.length) :
    ∃ ops, (b.program (locate 0 instrs)).opcodes b.current = .ok ops ∧
      (b.program (locate 0 instrs)).Departs b.current (ops.getLast?.map (·.instr.op)) none
        (b.graph.edgesFrom b.current) := by
  refine ⟨_, h.opcodes_of_span h.real h.current, ?_⟩
  rw [hrow.edges]
  have hle := h.le
  have hlength := length_locate 0 instrs
  by_cases ha : a = instrs.length
  · rw [ha, List.extract_eq_take_drop, Nat.sub_self, List.take_zero]
    exact .empty
  · have hx := List.getElem?_eq_getElem (l := locate 0 instrs) (i := instrs.length - 1) (by omega)
    rw [getLast?_extract (by omega) hx]
    exact .final (h.straight _ _ (by omega) (by omega) hx)

end Builder

namespace Program

variable {p : Program}

/-- The edge from the start leads to the first block. -/
theorem Framed.exists_first (h : p.Framed) : ∃ first, p.blocks.head? = some first ∧
    p.graph.edgesFrom p.sentinels.start = [⟨p.sentinels.start, first, .static⟩] := by
  obtain ⟨first, hedges, hstart, hleast⟩ := h.start
  refine ⟨first, ?_, hedges⟩
  have hmem := hstart.mem_blocks
  have hsorted := pairwise_blocks p
  cases hblocks : p.blocks with
  | nil =>
    rw [hblocks] at hmem
    cases hmem
  | cons n ns =>
    rw [hblocks] at hmem hsorted hleast
    rcases List.mem_cons.mp hmem with rfl | hmem
    · rfl
    · have hlt := (List.pairwise_cons.mp hsorted).1 first hmem
      exact absurd (hleast n List.mem_cons_self) (Int.not_le.mpr hlt)

/-- A static edge into a block leaves a block or the start: the other synthetic nodes have none. -/
theorem Framed.source_of_static (h : p.Framed) (hg : p.graph.Incident) {e : EdgeId}
    {x : Graph.Edge} (hx : p.graph.edge? e = some x) (hstatic : x.branch = .static)
    (htarget : x.target ∈ p.blocks) : x.source ∈ p.blocks ∨ x.source = p.sentinels.start := by
  by_cases hsource : p.isSentinel x.source = true
  · right
    have hmem := hg.forward.mem_edgesFrom.mpr ⟨rfl, e, hx⟩
    have hlist : x.source ∈ p.sentinels.toList := List.contains_iff_mem.mp hsource
    simp only [Sentinels.toList, List.mem_cons, List.not_mem_nil, or_false] at hlist
    rcases hlist with heq | heq | heq | heq
    · exact heq
    · -- All edges of the jump table are dynamic.
      rw [heq, h.table] at hmem
      rcases hmem with rfl | ⟨_, _, -, rfl⟩ <;> cases hstatic
    · rw [heq, h.terminator] at hmem
      cases hmem
    · -- The invalid jump leads to the terminator, which is no block.
      rw [heq, h.invalidJump, List.mem_singleton] at hmem
      have hreal := (mem_blocks.mp htarget).2
      rw [hmem] at hreal
      simp [isSentinel, Sentinels.toList] at hreal
  · exact .inl (mem_blocks.mpr ⟨hg.contains_source hx, Bool.eq_false_iff.mpr hsource⟩)

/-- Each block of a new program has the edges that its last instruction calls for. -/
theorem exists_departs (instrs : List Instr) {before after : List NodeId} {n : NodeId}
    (hblocks : (ofInstrs instrs).blocks = before ++ n :: after) :
    ∃ ops, (ofInstrs instrs).opcodes n = .ok ops ∧
      (ofInstrs instrs).Departs n (ops.getLast?.map (·.instr.op)) after.head?
        ((ofInstrs instrs).graph.edgesFrom n) := by
  obtain ⟨b, a, h, hrow, heq⟩ := exists_row instrs
  rw [heq] at hblocks ⊢
  have hblocks : b.blocks = before ++ n :: after := hblocks
  cases after with
  | nil =>
    obtain ⟨ns, hlast⟩ := hrow.last
    rw [hlast] at hblocks
    obtain rfl := List.singleton_inj.mp (List.append_inj_right' hblocks rfl)
    exact hrow.departs h
  | cons m after =>
    have hchain := hrow.chain
    rw [hblocks] at hchain
    obtain ⟨s, e, hn⟩ := List.isChain_iff_forall_rel_of_append_cons_cons.mp hchain rfl
    exact hn.departs h

/-- **New programs are linked.** The edges out of the blocks are exactly those by which control can
leave them, and blocks have no other static edges but the one from the start to the first block. -/
theorem linked_ofInstrs (instrs : List Instr) : (ofInstrs instrs).Linked where
  block before n after hblocks := by
    have hlive : (ofInstrs instrs).graph.contains n = true :=
      (mem_blocks.mp (hblocks ▸ List.mem_append_right _ List.mem_cons_self)).1
    obtain ⟨ops, hops, hdeparts⟩ := exists_departs instrs hblocks
    exact ⟨ops, _, hops, (tracks_ofInstrs instrs).graph.forward.outgoingEdges_eq hlive, hdeparts⟩
  start := by
    obtain ⟨first, hfirst, hedges⟩ := (framed_ofInstrs instrs).exists_first
    have hlive := (sound_ofInstrs instrs).verified.sentinel (ofInstrs instrs).sentinels.start
      List.mem_cons_self
    refine ⟨first, hfirst, ?_⟩
    rw [(tracks_ofInstrs instrs).graph.forward.outgoingEdges_eq hlive, hedges]
  entering m hm := by
    have hg := (sound_ofInstrs instrs).graph
    obtain ⟨es, hes, hentering⟩ := hg.exists_incoming (mem_blocks.mp hm).1
    refine ⟨es, hes, fun e he => ?_⟩
    obtain ⟨x, hx, rfl⟩ := hentering e he
    refine ⟨x, Graph.edge_eq_ok.mpr hx, fun hstatic => ⟨?_, hg.exists_outgoing hx⟩⟩
    exact (framed_ofInstrs instrs).source_of_static hg hx hstatic hm

/-- A conditional jump, a jump, a terminator, and another opcode in front of a jump destination. -/
def fourExits : List Instr := decode [0x57, 0x56, 0x00, 0x01, 0x5b]

theorem linked_ofInstrs_fourExits : (ofInstrs fourExits).blocks = [4, 5, 6] ++ 7 :: [8] ∧
    (∃ ops, (ofInstrs fourExits).opcodes 7 = .ok ops ∧
      (ofInstrs fourExits).Departs 7 (ops.getLast?.map (·.instr.op)) (some 8) [⟨7, 8, .static⟩]) ∧
    ((ofInstrs fourExits).blocks.mapM (ofInstrs fourExits).graph.outgoingEdges).toOption =
      some [[⟨4, 1, .dynamic⟩, ⟨4, 5, .static⟩], [⟨5, 1, .dynamic⟩], [⟨6, 2, .static⟩],
        [⟨7, 8, .static⟩], []] := by
  have hblocks : (ofInstrs fourExits).blocks = [4, 5, 6] ++ 7 :: [8] := by decide +kernel
  have hfall : ((ofInstrs fourExits).graph.outgoingEdges 7).toOption = some [⟨7, 8, .static⟩] := by
    decide +kernel
  obtain ⟨ops, edges, hops, hedges, hdeparts⟩ := (linked_ofInstrs fourExits).block _ _ _ hblocks
  rw [hedges] at hfall
  exact ⟨hblocks, ⟨ops, hops, Option.some.inj hfall ▸ hdeparts⟩, by decide +kernel⟩

end Program

end EvmFlow
