import EvmFlow.Proofs.BlockLayout
import Mathlib.Data.List.Chain

/-!
# The row of blocks

The walk over the code makes one block behind the other. A block that has ended is not touched
again: from then on it has its range, no block begins inside of it, and it has the edges that its
last instruction calls for.

* `Begins`: where the blocks of a code begin;
* `Builder.departures`: the edges of a block that has ended, by its last opcode;
* `Builder.Precedes`: a block that has ended and the one behind it;
* `Builder.Row`: the blocks so far, in the order in which they were made;
* `Builder.Row.step`, **`Program.exists_row`**: one instruction, and the whole walk.
-/

namespace EvmFlow

/-! ## Where blocks begin -/

/-- A block begins with the first instruction, with every jump destination and behind every block
end. -/
def Begins (instrs : List Instr) (i : Nat) : Prop :=
  i = 0 ∨ (∃ x, instrs[i]? = some x ∧ x.op = .jumpdest) ∨
    ∃ j x, i = j + 1 ∧ instrs[j]? = some x ∧ x.op.isBlockEnd = true

theorem Begins.le {instrs : List Instr} {i : Nat} (h : Begins instrs i) : i ≤ instrs.length := by
  rcases h with rfl | ⟨x, hx, -⟩ | ⟨j, x, rfl, hx, -⟩
  · omega
  · exact Nat.le_of_lt (List.getElem?_eq_some_iff.mp hx).1
  · exact (List.getElem?_eq_some_iff.mp hx).1

theorem getElem?_locate (k : Nat) (instrs : List Instr) (i : Nat) :
    (locate k instrs)[i]?.map Located.instr = instrs[i]? := by
  rw [← List.getElem?_map, map_instr_locate]

theorem getElem?_of_locate {k : Nat} {instrs : List Instr} {i : Nat} {x : Located}
    (hx : (locate k instrs)[i]? = some x) : instrs[i]? = some x.instr := by
  rw [← getElem?_locate k, hx]
  rfl

namespace Builder

variable {b b' : Builder} {instrs : List Instr} {n m : NodeId} {a i s e : Nat}

/-! ## Blocks that have ended -/

/-- The blocks so far, in the order in which they were made. -/
def blocks (b : Builder) : List NodeId :=
  b.graph.nodeIds.filter fun n => !Sentinels.initial.toList.contains n

/-- The edges of a block with the last opcode `op` when the block at `m` begins behind it. -/
def departures (n m : NodeId) (op : Opcode) : List Graph.Edge :=
  match op with
  | .jump => [⟨n, Sentinels.initial.jumpTable, .dynamic⟩]
  | .jumpi => [⟨n, Sentinels.initial.jumpTable, .dynamic⟩, ⟨n, m, .static⟩]
  | op =>
    if op.isTerminator then [⟨n, Sentinels.initial.terminator, .static⟩] else [⟨n, m, .static⟩]

/-- The block at `n` is not the current one any more. It goes from `s` to `e`, where the block at
`m` begins. -/
structure Precedes (instrs : List Instr) (b : Builder) (n m : NodeId) (s e : Nat) : Prop where
  real : n ∉ Sentinels.initial.toList
  ended : n ≠ b.current
  label? : b.graph.label? n = some { opcodes := ⟨s, e⟩ }
  next : (b.program (locate 0 instrs)).StartsAt m e
  lt : s < e
  inner : ∀ j, s < j → j < e → ¬ Begins instrs j
  begins : Begins instrs e
  edges : ∃ x, instrs[e - 1]? = some x ∧ b.graph.edgesFrom n = departures n m x.op

/-- The blocks so far. The last one is the current one, which begins at the instruction `a`; the
instruction `i` comes next. -/
structure Row (instrs : List Instr) (b : Builder) (a i : Nat) : Prop where
  first : ∃ n ns, b.blocks = n :: ns ∧ (b.program (locate 0 instrs)).StartsAt n 0
  last : ∃ ns, b.blocks = ns ++ [b.current]
  chain : b.blocks.IsChain fun n m => ∃ s e, Precedes instrs b n m s e
  inner : ∀ j, a < j → j < i → ¬ Begins instrs j
  edges : b.graph.edgesFrom b.current = []

theorem departures_of_inner {op : Opcode} (hop : op.isBlockEnd = false) :
    departures n m op = [⟨n, m, .static⟩] := by
  unfold departures
  split
  · cases hop
  · cases hop
  · refine if_neg fun hhalt => ?_
    rw [Evm.isBlockEnd_iff.mpr (.inr hhalt)] at hop
    cases hop

theorem departures_of_isTerminator {op : Opcode} (hhalt : op.isTerminator = true) :
    departures n m op = [⟨n, Sentinels.initial.terminator, .static⟩] := by
  unfold departures
  split
  · cases hhalt
  · cases hhalt
  · exact if_pos hhalt

theorem exits_of_isBlockEnd {op : Opcode} (hop : op.isBlockEnd = true) :
    exits b b' op = departures b.current b'.current op := by
  rcases Evm.isBlockEnd_iff.mp hop with (rfl | rfl) | hhalt
  · rfl
  · rfl
  · rw [exits_of_isTerminator hhalt, departures_of_isTerminator hhalt]

/-! ## One instruction -/

section Step

variable {x : Located} {z a' : Nat}

/-- No block begins behind an instruction of the current one that is no block end, unless with a
jump destination. -/
theorem Laid.not_begins (h : Laid (locate 0 instrs) b a i) (hai : a < i)
    (hdest : ∀ x, instrs[i]? = some x → x.op ≠ .jumpdest) : ¬ Begins instrs i := by
  rintro (rfl | ⟨x, hx, hop⟩ | ⟨j, x, rfl, hx, hop⟩)
  · omega
  · exact hdest x hx hop
  · rw [← getElem?_locate 0] at hx
    obtain ⟨y, hy, rfl⟩ := Option.map_eq_some_iff.mp hx
    rw [h.straight j y (by omega) (by omega) hy] at hop
    cases hop

theorem Takes.current_ne (h : Laid (locate 0 instrs) b a i)
    (hnew : b.graph.contains b'.current = false) : b.current ≠ b'.current := by
  intro heq
  rw [← heq, h.contains_current] at hnew
  cases hnew

theorem Takes.blocks_of_new (ht : Takes b b' x a i z a') (h : Laid (locate 0 instrs) b a i)
    (hnodes : b'.graph.nodeIds = b.graph.nodeIds ++ [b'.current]) :
    b'.blocks = b.blocks ++ [b'.current] := by
  have hreal := ht.real h
  unfold blocks
  rw [hnodes, List.filter_append]
  congr 1
  simp [hreal]

/-- A new block has no edges yet. -/
theorem Takes.edgesFrom_current (ht : Takes b b' x a i z a') (h : Laid (locate 0 instrs) b a i)
    (hnew : b.graph.contains b'.current = false) : b'.graph.edgesFrom b'.current = [] := by
  have htable : b'.current ≠ Sentinels.initial.jumpTable :=
    fun heq => ht.real h (heq ▸ by decide)
  rw [ht.edgesFrom, if_neg (Takes.current_ne h hnew).symm, if_neg htable,
    Graph.edgesFrom_of_not_contains hnew]
  rfl

/-- The block that takes the instruction gets the edges that the instruction calls for. -/
theorem Takes.edgesFrom_old (ht : Takes b b' x a i z a') (h : Laid (locate 0 instrs) b a i)
    (hrow : Row instrs b a i) : b'.graph.edgesFrom b.current = exits b b' x.instr.op := by
  have htable : b.current ≠ Sentinels.initial.jumpTable := fun heq => h.real (heq ▸ by decide)
  rw [ht.edgesFrom, if_pos rfl, if_neg htable, hrow.edges, List.nil_append, List.append_nil]

/-- A block that has ended stays as it is. -/
theorem Precedes.takes (hn : Precedes instrs b n m s e) (h : Laid (locate 0 instrs) b a i)
    (ht : Takes b b' x a i z a') : Precedes instrs b' n m s e := by
  have hlive := Graph.contains_iff_label?.mpr ⟨_, hn.label?⟩
  have hended : n ≠ b'.current := by
    cases ht.moves with
    | stay same => rw [same]; exact hn.ended
    | split new | close new =>
      rintro rfl
      rw [hlive] at new
      cases new
  refine ⟨hn.real, hended, ?_, ht.startsAt h hn.next, hn.lt, hn.inner, hn.begins, ?_⟩
  · rw [ht.label?, if_neg hended, if_neg hn.ended, hn.label?]
  · obtain ⟨y, hy, hedges⟩ := hn.edges
    refine ⟨y, hy, ?_⟩
    have htable : n ≠ Sentinels.initial.jumpTable := fun heq => hn.real (heq ▸ by decide)
    rw [ht.edgesFrom, if_neg hn.ended, if_neg htable, hedges, List.append_nil, List.append_nil]

/-- No block begins with an instruction that the current block takes in behind its first. -/
theorem Row.inner_succ (hrow : Row instrs b a i) (h : Laid (locate 0 instrs) b a i)
    (hx : (locate 0 instrs)[i]? = some x) (hdest : x.instr.op = .jumpdest → a = i) :
    ∀ j, a < j → j < i + 1 → ¬ Begins instrs j := by
  intro j hj hji
  by_cases heq : j = i
  · subst heq
    refine h.not_begins hj fun y hy hop => ?_
    obtain rfl := Option.some.inj (hy.symm.trans (getElem?_of_locate hx))
    have := hdest hop
    omega
  · exact hrow.inner j hj (by omega)

/-- The block that ends with an instruction or in front of it has its range and its edges. -/
theorem Row.precedes (hrow : Row instrs b a i) (h : Laid (locate 0 instrs) b a i)
    (hx : (locate 0 instrs)[i]? = some x) (ht : Takes b b' x a i z a')
    (hnew : b.graph.contains b'.current = false) :
    Precedes instrs b' b.current b'.current a z := by
  have hne := Takes.current_ne h hnew
  have hlabel : b'.graph.label? b.current = some { opcodes := ⟨a, z⟩ } := by
    rw [ht.label?, if_neg hne, if_pos rfl]
  have hnext := ht.startsAt_current h
  have hedges := ht.edgesFrom_old h hrow
  have hle := h.le
  cases ht.moves with
  | stay same => exact absurd same.symm hne
  | split _ lt dest =>
    refine ⟨h.real, hne, hlabel, hnext, lt, hrow.inner, ?_, ?_⟩
    · exact .inr (.inl ⟨x.instr, getElem?_of_locate hx, dest⟩)
    · -- The instruction in front of the jump destination is no block end.
      have hlt : i < (locate 0 instrs).length := (List.getElem?_eq_some_iff.mp hx).1
      have hlast := List.getElem?_eq_getElem (l := locate 0 instrs) (i := i - 1) (by omega)
      refine ⟨_, getElem?_of_locate hlast, ?_⟩
      have hfresh : b.fresh = false := by
        rw [Bool.eq_false_iff, ne_eq, h.fresh]
        omega
      rw [hedges, dest, departures_of_inner (h.straight _ _ (by omega) (by omega) hlast)]
      simp [exits, hfresh]
  | close _ last =>
    have hdest : x.instr.op ≠ .jumpdest := by
      intro hop
      rw [hop] at last
      cases last
    refine ⟨h.real, hne, hlabel, hnext, by omega, hrow.inner_succ h hx fun hop => absurd hop hdest,
      ?_, ?_⟩
    · exact .inr (.inr ⟨i, x.instr, rfl, getElem?_of_locate hx, last⟩)
    · exact ⟨x.instr, getElem?_of_locate hx, by rw [hedges, exits_of_isBlockEnd last]⟩

/-- A row with one more block. -/
theorem Row.concat (hrow : Row instrs b a i) (h : Laid (locate 0 instrs) b a i)
    (hx : (locate 0 instrs)[i]? = some x) (ht : Takes b b' x a i z a')
    (hnew : b.graph.contains b'.current = false)
    (hnodes : b'.graph.nodeIds = b.graph.nodeIds ++ [b'.current]) (hle : i ≤ a') :
    Row instrs b' a' (i + 1) := by
  have hblocks := ht.blocks_of_new h hnodes
  have hprecedes := hrow.precedes h hx ht hnew
  obtain ⟨n, ns, hfirst, hstart⟩ := hrow.first
  obtain ⟨ns', hlast⟩ := hrow.last
  have hold : b.blocks.IsChain fun n m => ∃ s e, Precedes instrs b' n m s e :=
    hrow.chain.imp fun n m ⟨s, e, hn⟩ => ⟨s, e, hn.takes h ht⟩
  refine ⟨⟨n, ns ++ [b'.current], ?_, ht.startsAt h hstart⟩, ⟨b.blocks, hblocks⟩, ?_, ?_,
    ht.edgesFrom_current h hnew⟩
  · rw [hblocks, hfirst]
    rfl
  · rw [hblocks, List.isChain_append]
    refine ⟨hold, .singleton _, fun k hk l hl => ?_⟩
    rw [hlast, List.getLast?_concat, Option.mem_some_iff] at hk
    rw [List.head?_singleton, Option.mem_some_iff] at hl
    rw [← hk, ← hl]
    exact ⟨a, z, hprecedes⟩
  · intro j hj hji
    omega

/-- **Taking in an instruction keeps the row.** -/
theorem Row.step (hrow : Row instrs b a i) (h : Laid (locate 0 instrs) b a i)
    (hx : (locate 0 instrs)[i]? = some x) (ht : Takes b b' x a i z a') :
    Row instrs b' a' (i + 1) := by
  cases ht.moves with
  | split new _ _ _ nodes => exact hrow.concat h hx ht new nodes (Nat.le_refl i)
  | close new _ _ _ _ nodes => exact hrow.concat h hx ht new nodes (Nat.le_succ i)
  | stay same inner nodes =>
    have hblocks : b'.blocks = b.blocks := by rw [blocks, nodes, blocks]
    have hdest : x.instr.op = .jumpdest → a = i := by
      intro hop
      rcases ht.enters with ⟨-, ha, -⟩ | ⟨hne, -⟩
      · exact ha
      · exact absurd hop hne
    obtain ⟨n, ns, hfirst, hstart⟩ := hrow.first
    obtain ⟨ns', hlast⟩ := hrow.last
    refine ⟨⟨n, ns, hblocks.trans hfirst, ht.startsAt h hstart⟩, ⟨ns', ?_⟩, ?_,
      hrow.inner_succ h hx hdest, ?_⟩
    · rw [hblocks, hlast, same]
    · rw [hblocks]
      exact hrow.chain.imp fun n m ⟨s, e, hn⟩ => ⟨s, e, hn.takes h ht⟩
    · rw [same, ht.edgesFrom_old h hrow]
      by_cases hop : x.instr.op = .jumpdest
      · rw [hop]
        simp [exits, h.fresh.mpr (hdest hop)]
      · exact exits_of_inner hop inner

end Step

theorem row_initial (instrs : List Instr) : Row instrs initial 0 0 where
  first := ⟨4, [], by decide +kernel, .startingAt 0, rfl, rfl, rfl⟩
  last := ⟨[], by decide +kernel⟩
  chain := by
    rw [show initial.blocks = [4] by decide +kernel]
    exact .singleton _
  inner j _ hj := by omega
  edges := by decide +kernel

end Builder

/-- **The blocks of a new program are the row that the walk over the code has made.** -/
theorem Program.exists_row (instrs : List Instr) : ∃ (b : Builder) (a : Nat),
    Builder.Laid (locate 0 instrs) b a instrs.length ∧ Builder.Row instrs b a instrs.length ∧
      ofInstrs instrs = b.program (locate 0 instrs) := by
  rw [← length_locate 0 instrs]
  exact exists_laid_and instrs (Builder.row_initial instrs) fun h hx ht hrow => hrow.step h hx ht

end EvmFlow
