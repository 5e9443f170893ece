import EvmFlow.Proofs.BasicBlocks
import EvmFlow.Proofs.BlockExits
import EvmFlow.Proofs.CodeScan
import EvmFlow.Proofs.Idempotence

/-!
# Static jumps

Lifting gives a jump to a constant the one static edge to where the machine goes, and leaves all
other edges as they are. Passes may have run before: they may have resolved other jumps and removed
jump targets. So the edges of a block are followed back to the new program through every step. They
are the old ones, or the edge through the jump table has been replaced; and as long as a block uses
the jump table, no jump target has been lost.

* `LiftedStack.exists_mem_of_liftAll`: branches come from jumps;
* `Program.BranchesFit`: branches of flat code go to temporaries, those of lifted code are its
  jumps;
* `Program.Exits`, `Program.Rewired`: the edges of a block and of a program, compared with a new
  one, and `Program.Rewired.step`;
* `Program.exists_fallsThrough`: the edges of a block of a new program that ends in a jump;
* `Program.Resolved`: what lifting has to do with the edges;
* **`Program.resolved_runAll`**: that is what it does.
-/

namespace EvmFlow

open Stateful

/-! ## Branches and jumps -/

/-- The jump that a branch comes from. -/
def Instruction.jump? : Instruction → Option Opcode
  | .branch _ => some .jump
  | .condBranch _ _ => some .jumpi
  | _ => none

theorem Instruction.jump?_eq_none {i : Instruction} (h : i.branchTarget? = none) :
    i.jump? = none := by
  cases i with
  | branch | condBranch => cases h
  | _ => rfl

theorem Instruction.exists_jump? {i : Instruction} {x : SymbolRef} (h : i.branchTarget? = some x) :
    ∃ op, i.jump? = some op := by
  cases i with
  | branch | condBranch => exact ⟨_, rfl⟩
  | _ => cases h

namespace Lifted

theorem balances_lowerInstr {Q : Instruction → Prop} {x : Located}
    (hQ : ∀ i : Instruction, (∀ op, i.jump? = some op → x.instr.op = op) → Q i) :
    Balances Q (lowerInstr x : Lifted Bool) := by
  by_cases hjump : x.instr.op = .jump
  · unfold lowerInstr
    rw [hjump]
    refine .bind (Balances.pop.bind fun _ => (Steady.emit (hQ _ ?_)).balances) fun _ =>
      (Steady.pure _).balances
    rintro op ⟨⟩
    exact hjump
  · by_cases hjumpi : x.instr.op = .jumpi
    · unfold lowerInstr
      rw [hjumpi]
      refine .bind (Balances.pop.bind fun _ => Balances.pop.bind fun _ =>
        (Steady.emit (hQ _ ?_)).balances) fun _ => (Steady.pure _).balances
      rintro op ⟨⟩
      exact hjumpi
    · refine (Balances.closedInner fun i hi => hQ i fun op hop => ?_).lowerInstr hjump hjumpi
      rw [Instruction.jump?_eq_none hi] at hop
      cases hop

/-- Code has no branches but those of the jumps it comes from. -/
theorem balances_lowerCode {code rest : List Located} (hrest : ∀ x ∈ rest, x ∈ code) :
    Balances (fun i => ∀ op, i.jump? = some op → ∃ x ∈ code, x.instr.op = op)
      (lowerCode rest : Lifted (List Located)) := by
  induction rest with
  | nil => exact (Steady.pure _).balances
  | cons x rest ih =>
    obtain ⟨hx, hrest⟩ := List.forall_mem_cons.mp hrest
    refine .bind (balances_lowerInstr fun i hi op hop => ⟨x, hx, hi op hop⟩) fun _ => ?_
    exact .bind (ih hrest) fun _ => (Steady.pure _).balances

end Lifted

/-- A branch of lifted code comes from a jump. -/
theorem LiftedStack.exists_mem_of_liftAll {t : SymbolTable} {n : NodeId} {ops : List Located}
    {s : LiftedStack} (h : liftAll t n ops = .ok s) {i : Instruction} (hi : i ∈ s.out.toList)
    {op : Opcode} (hop : i.jump? = some op) : ∃ x ∈ ops, x.instr.op = op := by
  obtain ⟨gaps, hyields⟩ := liftAll_eq_ok.mp h
  have hadds := (Lifted.balances_lowerCode fun _ hx => hx) _ _ _ hyields
  rcases hadds.1.code i (Array.mem_toList_iff.mp hi) with hi | hi
  · cases Array.mem_toList_iff.mpr hi
  · exact hi op hop

/-- The last instruction is not removed if it computes nothing. -/
theorem Pruned.getLast? {dead : SymbolRef → Prop} {code kept : List Instruction}
    (h : Pruned dead code kept) {i : Instruction} (hlast : code.getLast? = some i)
    (hi : i.definition? = none) : kept.getLast? = some i := by
  induction h with
  | nil => cases hlast
  | @keep j code kept h ih =>
    cases code with
    | nil =>
      cases h
      exact hlast
    | cons k code =>
      rw [List.getLast?_cons_cons] at hlast
      rw [List.getLast?_cons, ih hlast]
      rfl
  | @drop j x code kept _ hx _ h ih =>
    cases code with
    | nil =>
      obtain rfl : j = i := by simpa using hlast
      rw [hi] at hx
      cases hx
    | cons k code =>
      rw [List.getLast?_cons_cons] at hlast
      exact ih hlast

namespace Program

variable {o p q : Program}

theorem Steps.opcodes_before (h : Steps p q) {n : NodeId} {ops : List Located}
    (hops : q.opcodes n = .ok ops) : p.opcodes n = .ok ops := by
  induction h with
  | refl => exact hops
  | tail _ hlast ih =>
    obtain ⟨b', hb', -⟩ := bind_eq_ok.mp hops
    have hb' := Graph.label_eq_ok.mp hb'
    obtain ⟨b, hb, hrecoded⟩ := hlast.label? hb'
    exact ih (opcodes_congr hb' hb hrecoded.opcodes.symm hlast.code.symm hops)

theorem Step.opcodes_before (h : Step p q) {n : NodeId} {ops : List Located}
    (hops : q.opcodes n = .ok ops) : p.opcodes n = .ok ops :=
  Steps.opcodes_before (.single h) hops

theorem Step.mem_blocks (h : Step p q) {n : NodeId} (hn : n ∈ q.blocks) : n ∈ p.blocks :=
  (h.keepsSpans n hn).1

/-- The branches of flat code go to temporaries, those of lifted code come from the jumps among the
opcodes of the block. -/
structure BranchesFit (p : Program) : Prop where
  flat : ∀ n b, p.graph.label? n = some b → b.lifted = false → ∀ i ∈ b.instructions,
    ∀ x, i.branchTarget? = some x → p.symbols.IsTemporary x
  lifted : ∀ n b ops, p.graph.label? n = some b → b.lifted = true → p.opcodes n = .ok ops →
    ∀ i ∈ b.instructions, ∀ op, i.jump? = some op → ∃ x ∈ ops, x.instr.op = op

theorem BranchesFit.step (h : p.BranchesFit) (hp : p.Sound) (hstep : Step p q) : q.BranchesFit where
  flat n b' hb' hflat i hi x hx := by
    obtain ⟨b, hb, hrecoded⟩ := hstep.label? hb'
    have hgrows := hstep.grows hp.symbols
    cases hrecoded with
    | same => exact (h.flat n _ hb hflat i hi x hx).grows hgrows
    | trim _ hkept => exact (h.flat n b hb hflat i (hkept.mem_of_mem hi) x hx).grows hgrows
    | lower _ _ _ hsymbols =>
      rw [hsymbols]
      rcases (FlatStack.lowerAll_leads hp.symbols _ _).branch i (Array.mem_toList_iff.mp hi) with
        hi | hi
      · cases Array.mem_toList_iff.mpr hi
      · exact hi x hx
    | lift => cases hflat
  lifted n b' ops hb' hlifted hops i hi op hop := by
    obtain ⟨b, hb, hrecoded⟩ := hstep.label? hb'
    have hops := hstep.opcodes_before hops
    cases hrecoded with
    | same => exact h.lifted n _ ops hb hlifted hops i hi op hop
    | trim _ hkept => exact h.lifted n b ops hb hlifted hops i (hkept.mem_of_mem hi) op hop
    | lower _ flat =>
      rw [flat] at hlifted
      cases hlifted
    | lift _ _ hops' hs =>
      obtain rfl := Except.ok.inj (hops'.symm.trans hops)
      exact LiftedStack.exists_mem_of_liftAll hs hi hop

/-! ## The edges of a block -/

/-- What has become of the edges that the block at `n` has in `o`: they are the same, or the block
is lifted, its jump goes to a constant, and the edge through the jump table has been replaced. -/
inductive Exits (o p : Program) (n : NodeId) : Prop
  | same (h : p.graph.edgesFrom n = o.graph.edgesFrom n)
  | resolved {b : BasicBlock} {w : Word} {rest : List Graph.Edge} (hb : p.graph.label? n = some b)
      (lifted : b.lifted = true) (hw : p.constantTarget? b = .ok (some w))
      (old : o.graph.edgesFrom n = ⟨n, o.sentinels.jumpTable, .dynamic⟩ :: rest)
      (new : p.graph.edgesFrom n = rest ++ [⟨n, o.jumpTo w, .static⟩])

/-- A block has at most one dynamic edge, and has it first. -/
def DynamicFirst (o : Program) : Prop :=
  ∀ n ∈ o.blocks, ∀ x ∈ o.graph.edgesFrom n, x.branch = .dynamic →
    ∃ rest, o.graph.edgesFrom n = x :: rest ∧ ∀ y ∈ rest, y.branch = .static

/-- The jump of a lifted block to a constant stays one. -/
theorem Step.constantTarget? (h : Step p q) (hp : p.Sound) {n : NodeId} {b b' : BasicBlock}
    {w : Word} (hb : p.graph.label? n = some b) (hb' : q.graph.label? n = some b')
    (hlifted : b.lifted = true) (hw : p.constantTarget? b = .ok (some w)) :
    b'.lifted = true ∧ q.constantTarget? b' = .ok (some w) := by
  obtain ⟨c, hc, hrecoded⟩ := h.label? hb'
  obtain rfl := Option.some.inj (hb.symm.trans hc)
  refine ⟨hrecoded.lifted hlifted, ?_⟩
  rw [constantTarget?_eq_some] at hw ⊢
  obtain ⟨i, target, hi, htarget, hw⟩ := hw
  have hw' := hw.grows (h.grows hp.symbols)
  cases hrecoded with
  | same => exact ⟨i, target, hi, htarget, hw'⟩
  | trim _ hkept =>
    refine ⟨i, target, hkept.getLast? hi ?_, htarget, hw'⟩
    cases i with
    | branch | condBranch => rfl
    | _ => cases htarget
  | lower _ flat | lift _ flat =>
    rw [flat] at hlifted
    cases hlifted

theorem Retained.edgesFrom_of_mem {found : List NodeId} (h : Retained p q found)
    (hp : p.graph.Incident) {n : NodeId} (hn : n ∈ found) :
    q.graph.edgesFrom n = p.graph.edgesFrom n := by
  rw [h.graph, hp.edgesFrom_retain (by simp [hn])]
  refine List.filter_eq_self.mpr fun x hx => ?_
  obtain ⟨rfl, e, he⟩ := hp.forward.mem_edgesFrom.mp hx
  simp [h.closed _ hn (hp.forward.links_iff.mpr ⟨e, he⟩)]

/-- A step leaves the edges of a block alone, or resolves its jump. -/
theorem Step.edgesFrom (h : Step p q) (hp : p.Sound) {n : NodeId} (hn : n ∈ q.blocks) :
    q.graph.edgesFrom n = p.graph.edgesFrom n ∨ ∃ e b w, p.graph.label? n = some b ∧
      p.constantTarget? b = .ok (some w) ∧ Replaced p q e n (p.jumpTo w) := by
  cases h with
  | drop _ h =>
    obtain ⟨hlive, hreal⟩ := Program.mem_blocks.mp hn
    obtain ⟨b, hb⟩ := Graph.contains_iff_label?.mp hlive
    rw [h.isSentinel] at hreal
    exact .inl (h.edgesFrom_of_mem hp.graph (h.mem_of_label? hb hreal).1)
  | trim h => exact .inl (Graph.edgesFrom_congr (h.leaving n) h.edge?)
  | lower => exact .inl (Graph.edgesFrom_modifyLabel _ _)
  | lift => exact .inl (Graph.edgesFrom_modifyLabel _ _)
  | @resolve _ e m b w hb _ hw h =>
    by_cases hnm : n = m
    · subst hnm
      exact .inr ⟨e, b, w, hb, hw, h⟩
    · exact .inl (h.edgesFrom hp.graph.forward hnm)
  | retype | count => exact .inl rfl

/-- The edges of a block whose jump is resolved. -/
theorem Replaced.edgesFrom_self {e : EdgeId} {n t : NodeId} (h : Replaced p q e n t)
    (hp : p.graph.Incident) {rest : List Graph.Edge}
    (hedges : p.graph.edgesFrom n = ⟨n, p.sentinels.jumpTable, .dynamic⟩ :: rest)
    (hrest : ∀ y ∈ rest, y.branch = .static) :
    q.graph.edgesFrom n = rest ++ [⟨n, t, .static⟩] := by
  have hlive : (p.graph.unlink e).contains n = true := by
    rw [Graph.contains_unlink]
    exact hp.contains_source h.old
  have hunlink : (p.graph.unlink e).edgesFrom n = rest := by
    refine hp.forward.edgesFrom_unlink h.old hedges fun hmem => ?_
    cases hrest _ hmem
  rw [h.graph, (hp.forward.unlink e).edgesFrom_link hlive, hunlink, if_pos rfl]

theorem Exits.links {n : NodeId} (h : Exits o p n) (ho : o.graph.WellFormed)
    (hp : p.graph.WellFormed) (hs : p.sentinels = o.sentinels)
    (hlink : p.graph.Links n p.sentinels.jumpTable .dynamic) :
    o.graph.Links n o.sentinels.jumpTable .dynamic := by
  obtain ⟨e, he⟩ := hp.links_iff.mp hlink
  have hmem := hp.mem_edgesFrom.mpr ⟨rfl, e, he⟩
  rw [ho.links_iff]
  cases h with
  | same h =>
    rw [h, hs] at hmem
    exact (ho.mem_edgesFrom.mp hmem).2
  | resolved _ _ _ old =>
    exact (ho.mem_edgesFrom.mp (old ▸ List.mem_cons_self)).2

/-! ## The edges of a program -/

/-- `p` comes from `o`: its blocks have the edges they had, up to resolved jumps, and as long as one
of them uses the jump table, words lead where they led. -/
structure Rewired (o p : Program) : Prop where
  sentinels : p.sentinels = o.sentinels
  blocks : ∀ n ∈ p.blocks, n ∈ o.blocks
  framed : p.Framed
  branches : p.BranchesFit
  table : ∀ n ∈ p.blocks, p.graph.Links n p.sentinels.jumpTable .dynamic →
    ∀ w, p.jumpTo w = o.jumpTo w
  exits : ∀ n ∈ p.blocks, Exits o p n

theorem Step.jumpTo (h : Step p q) (hp : p.Sound) (hframed : p.Framed) {n : NodeId}
    (hn : n ∈ q.blocks) (hlink : p.graph.Links n p.sentinels.jumpTable .dynamic) (w : Word) :
    q.jumpTo w = p.jumpTo w := by
  cases h with
  | drop _ h =>
    obtain ⟨hlive, hreal⟩ := Program.mem_blocks.mp hn
    obtain ⟨b, hb⟩ := Graph.contains_iff_label?.mp hlive
    rw [h.isSentinel] at hreal
    have htable := h.closed n (h.mem_of_label? hb hreal).1 hlink
    -- The jump table was found, and with it all jump targets.
    have hsame : ∀ k : Int, q.jumpTargets[k]? = p.jumpTargets[k]? := by
      intro k
      cases hk : p.jumpTargets[k]? with
      | none =>
        rw [Option.eq_none_iff_forall_ne_some]
        intro m hm
        rw [h.fewer k m hm] at hk
        cases hk
      | some m =>
        have hedge := (hframed.table _).mpr (.inr ⟨k, m, hk, rfl⟩)
        have hm := h.closed _ htable
          (hp.graph.forward.links_iff.mpr (hp.graph.forward.mem_edgesFrom.mp hedge).2)
        refine h.kept k m hk (h.contains_iff.mpr ⟨?_, by simp [hm]⟩)
        exact (Program.mem_blocks.mp (hframed.target k m hk).1).1
    unfold Program.jumpTo
    rw [h.sentinels]
    simp only [Std.TreeMap.getD_eq_getD_getElem?, hsame]
  | trim h =>
    rw [h.others]
    rfl
  | resolve _ _ _ h =>
    rw [h.others]
    rfl
  | lower | lift | retype | count => rfl

/-- No step gives a block a dynamic edge. -/
theorem Step.links_of_dynamic (h : Step p q) (hp : p.Sound) {n m : NodeId} (hn : n ∈ q.blocks)
    (hlink : q.graph.Links n m .dynamic) : p.graph.Links n m .dynamic := by
  have hg := hp.graph.forward
  rcases h.edgesFrom hp hn with hedges | ⟨e, b, w, -, -, hreplaced⟩
  · have hg' := (h.sound hp).graph.forward
    obtain ⟨e, he⟩ := hg'.links_iff.mp hlink
    have hmem := hg'.mem_edgesFrom.mpr ⟨rfl, e, he⟩
    rw [hedges] at hmem
    exact hg.links_iff.mpr (hg.mem_edgesFrom.mp hmem).2
  · exact hreplaced.links_of_dynamic hg hlink

/-- Only lifted blocks jump to constants. -/
theorem BranchesFit.lifted_of_constantTarget? (h : p.BranchesFit) {n : NodeId} {b : BasicBlock}
    {w : Word} (hb : p.graph.label? n = some b) (hw : p.constantTarget? b = .ok (some w)) :
    b.lifted = true := by
  obtain ⟨i, target, hi, htarget, hw⟩ := constantTarget?_eq_some.mp hw
  by_contra hflat
  rw [Bool.not_eq_true] at hflat
  exact (h.flat n b hb hflat i (List.mem_of_getLast? hi) target htarget).not_isConstant hw

/-- **Every step leaves the edges of the blocks alone, or replaces the edge of a jump.** -/
theorem Rewired.step (h : Rewired o p) (ho : o.graph.WellFormed) (hfirst : o.DynamicFirst)
    (hp : p.Sound) (hstep : Step p q) : Rewired o q where
  sentinels := hstep.sentinels.trans h.sentinels
  blocks n hn := h.blocks n (hstep.mem_blocks hn)
  framed := h.framed.step hp hstep
  branches := h.branches.step hp hstep
  table n hn hlink w := by
    rw [hstep.sentinels] at hlink
    have hlink := hstep.links_of_dynamic hp hn hlink
    rw [hstep.jumpTo hp h.framed hn hlink, h.table n (hstep.mem_blocks hn) hlink]
  exits n hn := by
    have hn' := hstep.mem_blocks hn
    obtain ⟨b', hb'⟩ := Graph.contains_iff_label?.mp (Program.mem_blocks.mp hn).1
    rcases hstep.edgesFrom hp hn with hedges | ⟨e, b, w, hb, hw, hreplaced⟩
    · cases h.exits n hn' with
      | same heq => exact .same (hedges.trans heq)
      | resolved hb lifted hw old new =>
        obtain ⟨lifted', hw'⟩ := hstep.constantTarget? hp hb hb' lifted hw
        exact .resolved hb' lifted' hw' old (hedges.trans new)
    · have hlifted := h.branches.lifted_of_constantTarget? hb hw
      have hlink := hp.graph.forward.links_iff.mpr ⟨e, hreplaced.old⟩
      obtain ⟨f, hf⟩ := ho.links_iff.mp
        ((h.exits n hn').links ho hp.graph.forward h.sentinels hlink)
      obtain ⟨rest, hrest, hstatic⟩ := hfirst n (h.blocks n hn') _
        (ho.mem_edgesFrom.mpr ⟨rfl, f, hf⟩) rfl
      cases h.exits n hn' with
      | same heq =>
        obtain ⟨lifted', hw'⟩ := hstep.constantTarget? hp hb hb' hlifted hw
        refine .resolved hb' lifted' hw' hrest ?_
        rw [← h.table n hn' hlink w]
        exact hreplaced.edgesFrom_self hp.graph (by rw [heq, hrest, h.sentinels]) hstatic
      | resolved _ _ _ old new =>
        -- The edge through the jump table is gone already.
        obtain rfl := (List.cons.inj (hrest.symm.trans old)).2
        have hmem := hp.graph.forward.mem_edgesFrom.mpr ⟨rfl, e, hreplaced.old⟩
        rw [new, List.mem_append] at hmem
        rcases hmem with hmem | hmem
        · cases hstatic _ hmem
        · cases congrArg Graph.Edge.branch (List.mem_singleton.mp hmem)

/-! ## New programs -/

/-- The edges that leave the block at `n` besides the edge of the branch `i` at its end: behind a
conditional branch, control can fall through to the next block. -/
inductive FallsThrough (p : Program) (n : NodeId) : (i : Instruction) → List Graph.Edge → Prop
  | branch (target : SymbolRef) : FallsThrough p n (.branch target) []
  | condBranch (condition target : SymbolRef) {before after : List NodeId} {m : NodeId}
      (hblocks : p.blocks = before ++ n :: m :: after) :
      FallsThrough p n (.condBranch condition target) [⟨n, m, .static⟩]

theorem dynamicFirst_ofInstrs (instrs : List Instr) : (ofInstrs instrs).DynamicFirst := by
  intro n hn x hx hdynamic
  obtain ⟨before, after, hblocks⟩ := List.append_of_mem hn
  obtain ⟨ops, -, hdeparts⟩ := exists_departs instrs hblocks
  generalize (ofInstrs instrs).graph.edgesFrom n = edges at hx hdeparts ⊢
  generalize ops.getLast?.map (·.instr.op) = last, after.head? = next at hdeparts
  cases hdeparts with
  | jump =>
    obtain rfl := List.mem_singleton.mp hx
    exact ⟨[], rfl, by simp⟩
  | jumpi =>
    rcases List.mem_pair.mp hx with rfl | rfl
    · exact ⟨_, rfl, by simp⟩
    · cases hdynamic
  | halt | fall =>
    obtain rfl := List.mem_singleton.mp hx
    cases hdynamic
  | final | empty => cases hx

/-- The edges of a block that has a jump among its opcodes. -/
theorem exists_fallsThrough (instrs : List Instr) {n : NodeId} (hn : n ∈ (ofInstrs instrs).blocks)
    {ops : List Located} (hops : (ofInstrs instrs).opcodes n = .ok ops) {x : Located} (hx : x ∈ ops)
    {i : Instruction} (hi : i.jump? = some x.instr.op) :
    ∃ fall, (ofInstrs instrs).FallsThrough n i fall ∧ (ofInstrs instrs).graph.edgesFrom n =
      ⟨n, (ofInstrs instrs).sentinels.jumpTable, .dynamic⟩ :: fall := by
  obtain ⟨before, after, hblocks⟩ := List.append_of_mem hn
  obtain ⟨ops', hops', hdeparts⟩ := exists_departs instrs hblocks
  obtain rfl := Except.ok.inj (hops.symm.trans hops')
  have hpairwise := (jumpsLast_ofInstrs instrs).opcodes n ops (mem_blocks.mp hn).2 hops
  have hlast : x.instr.op.isBlockEnd = true → ops.getLast? = some x := fun hend =>
    getLast?_of_pairwise hpairwise hx (by simp [hend])
  generalize (ofInstrs instrs).graph.edgesFrom n = edges at hdeparts ⊢
  generalize hnext : after.head? = next at hdeparts
  cases i with
  | branch target =>
    injection hi with hi
    rw [hlast (by rw [← hi]; rfl), Option.map_some, ← hi] at hdeparts
    cases hdeparts with
    | jump => exact ⟨[], .branch target, rfl⟩
    | halt h | fall h | final h => cases h
  | condBranch condition target =>
    injection hi with hi
    rw [hlast (by rw [← hi]; rfl), Option.map_some, ← hi] at hdeparts
    cases hdeparts with
    | jumpi =>
      obtain ⟨after', rfl⟩ := List.head?_eq_some_iff.mp hnext
      exact ⟨_, .condBranch condition target hblocks, rfl⟩
    | halt h | fall h | final h => cases h
  | _ => cases hi

theorem rewired_ofInstrs (instrs : List Instr) : Rewired (ofInstrs instrs) (ofInstrs instrs) where
  sentinels := rfl
  blocks _ hn := hn
  framed := framed_ofInstrs instrs
  branches := by
    refine ⟨fun n b hb _ i hi => ?_, fun n b ops hb _ _ i hi => ?_⟩ <;>
      rw [label?_ofInstrs hb] at hi <;> cases hi
  table _ _ _ _ := rfl
  exits _ _ := .same rfl

theorem Steps.rewired {instrs : List Instr} (h : Steps (ofInstrs instrs) p) :
    Rewired (ofInstrs instrs) p :=
  (h.induct (sound_ofInstrs instrs) (rewired_ofInstrs instrs) fun hstep hr hrewired =>
    hrewired.step (sound_ofInstrs instrs).graph.forward (dynamicFirst_ofInstrs instrs) hr hstep).2

/-! ## Statement -/

/-- The block at `n` ends in the branch `i`, which goes to `target`. -/
def BranchesAt (p : Program) (n : NodeId) (i : Instruction) (target : SymbolRef) : Prop :=
  ∃ b, p.graph.label? n = some b ∧ b.instructions.getLast? = some i ∧ i.branchTarget? = some target

/-- The block at `n` ends in a branch to the constant `w`. -/
def JumpsTo (p : Program) (n : NodeId) (w : Word) : Prop :=
  ∃ i target, p.BranchesAt n i target ∧ p.symbols.IsConstant target w

/-- What lifting makes of the edges of `p`, where `found` are the reachable nodes and `o` is the new
program of the code. A branch to a constant has one static edge, to where the machine goes, a branch
to another target has one edge to the jump table, and behind both comes nothing but the edge by
which a conditional one falls through. Edges that are gone were those of branches to constants
through the jump table, and there are no other new edges than theirs. -/
structure Resolved (o p q : Program) (code : List Located) (found : List NodeId) : Prop where
  constant : ∀ n ∈ found, ∀ i target w, q.BranchesAt n i target → q.symbols.IsConstant target w →
    ∃ fall t, o.FallsThrough n i fall ∧ o.LeadsTo code w t ∧
      q.graph.outgoingEdges n = .ok (fall ++ [⟨n, t, .static⟩])
  computed : ∀ n ∈ found, ∀ i target, q.BranchesAt n i target →
    (∀ w, ¬ q.symbols.IsConstant target w) → ∃ fall, o.FallsThrough n i fall ∧
      q.graph.outgoingEdges n = .ok (⟨n, q.sentinels.jumpTable, .dynamic⟩ :: fall)
  kept : ∀ e x, p.graph.edge? e = some x → q.graph.edge? e = some x ∨ q.graph.edge? e = none ∧
    ∃ n ∈ found, ∃ w, q.JumpsTo n w ∧ x = ⟨n, q.sentinels.jumpTable, .dynamic⟩
  new : ∀ e x, q.graph.edge? e = some x → p.graph.edge? e = some x ∨ p.graph.edge? e = none ∧
    ∃ n ∈ found, ∃ w t, q.JumpsTo n w ∧ o.LeadsTo code w t ∧ x = ⟨n, t, .static⟩

/-! ## Lifting -/

theorem jumpsTo_iff {n : NodeId} {w : Word} : p.JumpsTo n w ↔
    ∃ b, p.graph.label? n = some b ∧ p.constantTarget? b = .ok (some w) := by
  simp only [constantTarget?_eq_some]
  constructor
  · rintro ⟨i, target, ⟨b, hb, hi, htarget⟩, hw⟩
    exact ⟨b, hb, i, target, hi, htarget, hw⟩
  · rintro ⟨b, hb, i, target, hi, htarget, hw⟩
    exact ⟨i, target, ⟨b, hb, hi, htarget⟩, hw⟩

theorem JumpsTo.value_unique {n : NodeId} {w w' : Word} (h : p.JumpsTo n w) (h' : p.JumpsTo n w') :
    w = w' := by
  obtain ⟨b, hb, hw⟩ := jumpsTo_iff.mp h
  obtain ⟨b', hb', hw'⟩ := jumpsTo_iff.mp h'
  obtain rfl := Option.some.inj (hb.symm.trans hb')
  exact Option.some.inj (Except.ok.inj (hw.symm.trans hw'))

/-- Synthetic nodes have no code. -/
theorem BranchesAt.mem_blocks {n : NodeId} {i : Instruction} {target : SymbolRef}
    (h : p.BranchesAt n i target) (hframed : p.Framed) : n ∈ p.blocks := by
  obtain ⟨b, hb, hi, -⟩ := h
  refine Program.mem_blocks.mpr ⟨Graph.contains_iff_label?.mpr ⟨b, hb⟩, ?_⟩
  by_contra hsentinel
  rw [Bool.not_eq_false] at hsentinel
  obtain ⟨c, hc, -, hnil⟩ := hframed.empty n (List.contains_iff_mem.mp hsentinel)
  obtain rfl := Option.some.inj (hb.symm.trans hc)
  rw [hnil] at hi
  cases hi

section Branches

variable {instrs : List Instr} {n : NodeId} {i : Instruction} {target : SymbolRef}

/-- A lifted block that ends in a branch had, in the new program, the edge through the jump table
and the one to fall through. -/
theorem BranchesAt.exists_fallsThrough (h : q.BranchesAt n i target)
    (hsteps : Steps (ofInstrs instrs) q)
    (hlifted : ∀ b, q.graph.label? n = some b → b.lifted = true) :
    ∃ fall, (ofInstrs instrs).FallsThrough n i fall ∧ (ofInstrs instrs).graph.edgesFrom n =
      ⟨n, (ofInstrs instrs).sentinels.jumpTable, .dynamic⟩ :: fall := by
  have hrewired := hsteps.rewired
  have hn := h.mem_blocks hrewired.framed
  obtain ⟨b, hb, hi, htarget⟩ := h
  have hq := hsteps.sound (sound_ofInstrs instrs)
  have hops := (opcodes_eq_ok hb).mpr
    ⟨(hq.verified.block n b hb (Program.mem_blocks.mp hn).2).span, rfl⟩
  obtain ⟨op, hop⟩ := Instruction.exists_jump? htarget
  obtain ⟨x, hx, rfl⟩ := hrewired.branches.lifted n b _ hb (hlifted b hb) hops i
    (List.mem_of_getLast? hi) op hop
  exact Program.exists_fallsThrough instrs (hrewired.blocks n hn) (hsteps.opcodes_before hops) hx
    hop

/-- If there is nothing left to resolve, a branch to a constant has its static edge. -/
theorem BranchesAt.outgoingEdges_of_isConstant (h : q.BranchesAt n i target)
    (hcode : ∀ x ∈ locate 0 instrs, x.offset < 2 ^ 63) (hsteps : Steps (ofInstrs instrs) q)
    (hlifted : ∀ b, q.graph.label? n = some b → b.lifted = true) (hdone : ∀ e t, ¬ q.Jump e n t)
    {w : Word} (hw : q.symbols.IsConstant target w) :
    ∃ fall t, (ofInstrs instrs).FallsThrough n i fall ∧
      (ofInstrs instrs).LeadsTo (locate 0 instrs) w t ∧
      q.graph.outgoingEdges n = .ok (fall ++ [⟨n, t, .static⟩]) := by
  have hrewired := hsteps.rewired
  have hg := (hsteps.sound (sound_ofInstrs instrs)).graph.forward
  obtain ⟨hlive, hreal⟩ := Program.mem_blocks.mp (h.mem_blocks hrewired.framed)
  obtain ⟨fall, hfall, hold⟩ := h.exists_fallsThrough hsteps hlifted
  rw [hg.outgoingEdges_eq hlive]
  cases hrewired.exits n (h.mem_blocks hrewired.framed) with
  | same heq =>
    -- The edge through the jump table would be one to resolve.
    have hmem : ⟨n, q.sentinels.jumpTable, .dynamic⟩ ∈ q.graph.edgesFrom n := by
      rw [heq, hold, hrewired.sentinels]
      exact List.mem_cons_self
    obtain ⟨-, e, he⟩ := hg.mem_edgesFrom.mp hmem
    obtain ⟨b, hb, hw⟩ := jumpsTo_iff.mp ⟨i, target, h, hw⟩
    exact absurd ⟨hreal, he, b, w, hb, hw, rfl⟩ (hdone e _)
  | @resolved b w' rest hb _ hw' old new =>
    obtain rfl := (List.cons.inj (hold.symm.trans old)).2
    obtain rfl := JumpsTo.value_unique ⟨i, target, h, hw⟩ (jumpsTo_iff.mpr ⟨b, hb, hw'⟩)
    refine ⟨fall, _, hfall, ?_, congrArg Except.ok new⟩
    have htracks := tracks_ofInstrs instrs
    refine htracks.leadsTo_jumpTo hcode ((hsteps.isSentinel n).symm.trans hreal) ?_ w
    exact htracks.graph.forward.links_iff.mpr
      (htracks.graph.forward.mem_edgesFrom.mp (hold ▸ List.mem_cons_self)).2

/-- A branch to another target still has its dynamic edge. -/
theorem BranchesAt.outgoingEdges_of_computed (h : q.BranchesAt n i target)
    (hsteps : Steps (ofInstrs instrs) q)
    (hlifted : ∀ b, q.graph.label? n = some b → b.lifted = true)
    (hw : ∀ w, ¬ q.symbols.IsConstant target w) :
    ∃ fall, (ofInstrs instrs).FallsThrough n i fall ∧
      q.graph.outgoingEdges n = .ok (⟨n, q.sentinels.jumpTable, .dynamic⟩ :: fall) := by
  have hrewired := hsteps.rewired
  have hg := (hsteps.sound (sound_ofInstrs instrs)).graph.forward
  have hn := h.mem_blocks hrewired.framed
  obtain ⟨fall, hfall, hold⟩ := h.exists_fallsThrough hsteps hlifted
  refine ⟨fall, hfall, ?_⟩
  rw [hg.outgoingEdges_eq (Program.mem_blocks.mp hn).1]
  cases hrewired.exits n hn with
  | same heq => rw [heq, hold, hrewired.sentinels]
  | @resolved b w _ hb _ hw' =>
    obtain ⟨j, y, ⟨c, hc, hj, hy⟩, hw'⟩ := jumpsTo_iff.mpr ⟨b, hb, hw'⟩
    obtain ⟨c', hc', hi, htarget⟩ := h
    obtain rfl := Option.some.inj (hc.symm.trans hc')
    obtain rfl := Option.some.inj (hi.symm.trans hj)
    obtain rfl := Option.some.inj (htarget.symm.trans hy)
    exact absurd hw' (hw w)

/-- A jump that is to be resolved leads where the machine goes. -/
theorem Jump.leadsTo {e : EdgeId} {t : NodeId} (h : p.Jump e n t)
    (hcode : ∀ x ∈ locate 0 instrs, x.offset < 2 ^ 63) (hsteps : Steps (ofInstrs instrs) p) :
    ∃ w, p.JumpsTo n w ∧ (ofInstrs instrs).LeadsTo (locate 0 instrs) w t := by
  have hg := (hsteps.sound (sound_ofInstrs instrs)).graph.forward
  have hrewired := hsteps.rewired
  have hlink := hg.links_iff.mpr ⟨e, h.edge?⟩
  obtain ⟨b, w, hb, hw, rfl⟩ := h.target
  have hn : n ∈ p.blocks := Program.mem_blocks.mpr ⟨Graph.contains_iff_label?.mpr ⟨b, hb⟩, h.real⟩
  have htracks := tracks_ofInstrs instrs
  refine ⟨w, jumpsTo_iff.mpr ⟨b, hb, hw⟩, ?_⟩
  rw [hrewired.table n hn hlink w]
  exact htracks.leadsTo_jumpTo hcode ((hsteps.isSentinel n).symm.trans h.real)
    ((hrewired.exits n hn).links htracks.graph.forward hg hrewired.sentinels hlink) w

end Branches

section Resolves

variable {jumps : List (EdgeId × NodeId × NodeId)} {e : EdgeId} {x : Graph.Edge}

/-- Only the edges of the given jumps are replaced. -/
theorem Resolves.edge?_of_old (h : Resolves p q jumps) (hx : p.graph.edge? e = some x) :
    q.graph.edge? e = some x ∨ q.graph.edge? e = none ∧ e ∈ jumps.map Prod.fst := by
  obtain ⟨k, rfl, hk⟩ := Graph.exists_of_edge? hx
  rw [h.issued k (Array.getElem?_eq_some_iff.mp hk).1]
  split
  · next hj => exact .inr ⟨rfl, hj⟩
  · exact .inl hx

/-- There are no new edges but theirs. -/
theorem Resolves.edge?_of_new (h : Resolves p q jumps) (hx : q.graph.edge? e = some x) :
    p.graph.edge? e = some x ∨ p.graph.edge? e = none ∧
      ∃ j ∈ jumps, x = ⟨j.2.1, j.2.2, .static⟩ := by
  cases hold : p.graph.edge? e with
  | some y =>
    rcases h.edge?_of_old hold with hy | ⟨hnone, -⟩
    · exact .inl (hy.symm.trans hx)
    · rw [hnone] at hx
      cases hx
  | none =>
    rcases h.edge? e x hx with ⟨hx, -⟩ | hj
    · rw [hold] at hx
      cases hx
    · exact .inr ⟨rfl, hj⟩

/-- Lifting blocks makes the same nodes reachable. -/
theorem LiftsAt.mem_reachable {nodes lifted found found' : List NodeId}
    (h : LiftsAt p q nodes lifted) (hp : p.Sound) (hfound : p.reachable = .ok found)
    (hfound' : q.reachable = .ok found') {n : NodeId} : n ∈ found' ↔ n ∈ found := by
  have hg := hp.graph.forward
  have hg' := (h.steps.sound hp).graph.forward
  have hlinks : ∀ {n m branch}, q.graph.Links n m branch ↔ p.graph.Links n m branch := by
    intro n m branch
    rw [hg'.links_iff, hg.links_iff]
    simp only [h.edge?]
  exact ⟨reachable_subset hg' hg h.steps.sentinels.symm hfound' hfound
      (fun _ _ _ _ => hlinks.mp) n,
    reachable_subset hg hg' h.steps.sentinels hfound hfound' (fun _ _ _ _ => hlinks.mpr) n⟩

end Resolves

/-- **Lifting resolves exactly the jumps to constants.** -/
theorem LiftsTo.resolved {instrs : List Instr} {changes : Int} (h : LiftsTo p changes q)
    (hcode : ∀ x ∈ locate 0 instrs, x.offset < 2 ^ 63) (hsteps : Steps (ofInstrs instrs) p) :
    ∃ found, p.reachable = .ok found ∧
      Resolved (ofInstrs instrs) p q (locate 0 instrs) found := by
  have hq : Steps (ofInstrs instrs) q := hsteps.trans h.steps
  have hp := hsteps.sound (sound_ofInstrs instrs)
  obtain @⟨r, r', found, lifted, found', jumps, t, hfound, hlifts, hfound', hjumps, hresolves,
    hretypes, -, -⟩ := h
  have hr : Steps (ofInstrs instrs) r := hsteps.trans hlifts.steps
  have hsame := fun n => hlifts.mem_reachable hp hfound hfound' (n := n)
  have hsentinels : r'.sentinels = r.sentinels := hresolves.steps.sentinels
  have hjumpsTo : ∀ {n w}, r.JumpsTo n w → JumpsTo { r' with symbols := t } n w := by
    rintro n w ⟨i, target, ⟨b, hb, hi⟩, a, sc, hid⟩
    refine ⟨i, target, ⟨b, (hresolves.label? n).trans hb, hi⟩, a, sc, ?_⟩
    rw [hretypes.identity?, hresolves.others]
    exact hid
  have hdone : ∀ n ∈ found, ∀ e m, ¬ Jump { r' with symbols := t } e n m := fun n hn e m hj =>
    hresolves.not_jump hjumps ((hsame n).mpr hn) e m (hj.of_retypes hretypes)
  have hlifted : ∀ n ∈ found, ∀ i target, BranchesAt { r' with symbols := t } n i target →
      ∀ b, r'.graph.label? n = some b → b.lifted = true := by
    intro n hn i target hbranches b hb
    have hmem := hbranches.mem_blocks hq.rewired.framed
    refine hlifts.done n hn ?_ b ((hresolves.label? n).symm.trans hb)
    exact (hsteps.isSentinel n).trans ((hq.isSentinel n).symm.trans (mem_blocks.mp hmem).2)
  refine ⟨found, hfound, fun n hn i target w hbranches hw => ?_,
    fun n hn i target hbranches hw => ?_, fun e x hx => ?_, fun e x hx => ?_⟩
  · exact hbranches.outgoingEdges_of_isConstant hcode hq (hlifted n hn i target hbranches)
      (hdone n hn) hw
  · exact hbranches.outgoingEdges_of_computed hq (hlifted n hn i target hbranches) hw
  · rw [← hlifts.edge?] at hx
    refine (hresolves.edge?_of_old hx).imp_right fun ⟨hnone, hmem⟩ => ⟨hnone, ?_⟩
    obtain ⟨⟨e, n, m⟩, hj, rfl⟩ := List.mem_map.mp hmem
    obtain ⟨hjump, hn⟩ := hjumps.jump _ hj
    obtain ⟨w, hw, -⟩ := hjump.leadsTo hcode hr
    refine ⟨n, (hsame n).mp hn, w, hjumpsTo hw, ?_⟩
    exact (Option.some.inj (hx.symm.trans hjump.edge?)).trans (by rw [hsentinels])
  · rw [← hlifts.edge?]
    refine (hresolves.edge?_of_new hx).imp_right fun ⟨hnone, hj⟩ => ⟨hnone, ?_⟩
    obtain ⟨⟨e, n, m⟩, hj, rfl⟩ := hj
    obtain ⟨hjump, hn⟩ := hjumps.jump _ hj
    obtain ⟨w, hw, hleads⟩ := hjump.leadsTo hcode hr
    exact ⟨n, (hsame n).mp hn, w, m, hjumpsTo hw, hleads, rfl⟩

end Program

/-! ## Passes -/

/-- Instructions lie in front of the end of the code. -/
theorem lt_length_encode_of_mem_locate {instrs : List Instr} {k : Nat} {x : Located}
    (hx : x ∈ locate k instrs) : x.offset < k + (encode instrs).length := by
  induction instrs generalizing k with
  | nil => cases hx
  | cons i rest ih =>
    rw [encode_cons, List.length_cons, List.length_append]
    rcases List.mem_cons.mp hx with rfl | hx
    · dsimp only
      omega
    · have hlt := ih hx
      rw [Instr.length] at hlt
      omega

namespace Program

/-- **Jumps to constants, and no others, are resolved, and to the right place.** Whatever built-in
passes have run on the program of a code, lifting succeeds, and what it makes of the edges of all
blocks that can be reached is `Resolved`. -/
theorem resolved_runAll (instrs : List Instr) (hsize : (encode instrs).length < 2 ^ 62) :
    ∃ p₀, build instrs = .ok p₀ ∧
      ∀ passes : List Pass, (∀ pass ∈ passes, pass = .deadCode ∨ pass = .lift) →
        ∃ p q found, p₀.runAll passes = (p, .ok ()) ∧ p.run .lift = .ok q ∧
          p.reachable = .ok found ∧ Resolved (ofInstrs instrs) p q (locate 0 instrs) found := by
  obtain ⟨p₀, hp₀, hruns⟩ := exists_steps_runAll instrs
  refine ⟨p₀, hp₀, fun passes hpasses => ?_⟩
  obtain ⟨p, hp, hsteps⟩ := hruns passes hpasses
  have hsound := hsteps.sound (sound_ofInstrs instrs)
  obtain ⟨changes, r, hr, hlifts⟩ := hsound.exists_lift
  obtain ⟨found, hfound, hresolved⟩ := hlifts.resolved (fun x hx => by
    have hlt := lt_length_encode_of_mem_locate hx
    omega) hsteps
  exact ⟨p, _, found, hp, run_eq_ok (mapError_eq_ok.mpr hr) (hlifts.steps.sound hsound), hfound,
    hresolved.constant, hresolved.computed, hresolved.kept, hresolved.new⟩

/-- A conditional jump to a jump destination, behind which another jump goes where the caller
says; and a jump to a word that is too large for an offset. -/
def crossing : List Instr := decode
  [0x60, 1, 0x60, 8, 0x57, 0x5f, 0x19, 0x56, 0x5b, 0x56]

theorem resolved_runAll_crossing : (encode crossing).length < 2 ^ 62 ∧
    (∀ pass ∈ [Pass.deadCode], pass = .deadCode ∨ pass = .lift) ∧
      ∃ p₀ p q found, build crossing = .ok p₀ ∧ p₀.runAll [.deadCode] = (p, .ok ()) ∧
        p.run .lift = .ok q ∧ p.reachable = .ok found ∧
        Resolved (ofInstrs crossing) p q (locate 0 crossing) found ∧
        ([4, 5, 6].mapM p.graph.outgoingEdges).toOption = some [[⟨4, 1, .dynamic⟩, ⟨4, 5, .static⟩],
          [⟨5, 1, .dynamic⟩], [⟨6, 1, .dynamic⟩]] ∧
        ([4, 5, 6].mapM q.graph.outgoingEdges).toOption = some [[⟨4, 5, .static⟩, ⟨4, 6, .static⟩],
          [⟨5, 3, .static⟩], [⟨6, 1, .dynamic⟩]] := by
  have hsize : (encode crossing).length < 2 ^ 62 := by decide
  have hpasses : ∀ pass ∈ [Pass.deadCode], pass = .deadCode ∨ pass = .lift := by simp
  have hedges : (build crossing).toOption.map (fun p₀ =>
      let p := (p₀.runAll [.deadCode]).1
      (([4, 5, 6].mapM p.graph.outgoingEdges).toOption, (p.run .lift).toOption.map fun q =>
        ([4, 5, 6].mapM q.graph.outgoingEdges).toOption)) =
      some (some [[⟨4, 1, .dynamic⟩, ⟨4, 5, .static⟩], [⟨5, 1, .dynamic⟩], [⟨6, 1, .dynamic⟩]],
        some (some [[⟨4, 5, .static⟩, ⟨4, 6, .static⟩], [⟨5, 3, .static⟩],
          [⟨6, 1, .dynamic⟩]])) := by
    decide +kernel
  obtain ⟨p₀, hp₀, hall⟩ := resolved_runAll crossing hsize
  obtain ⟨p, q, found, hp, hq, hfound, hresolved⟩ := hall _ hpasses
  rw [hp₀] at hedges
  have hedges := Option.some.inj hedges
  dsimp only at hedges
  rw [hp] at hedges
  dsimp only at hedges
  rw [hq] at hedges
  obtain ⟨hbefore, hafter⟩ := Prod.mk.inj hedges
  exact ⟨hsize, hpasses, p₀, p, q, found, hp₀, hp, hq, hfound, hresolved, hbefore,
    Option.some.inj hafter⟩

end Program

end EvmFlow
