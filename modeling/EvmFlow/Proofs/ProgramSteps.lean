import EvmFlow.Proofs.JumpResolution
import EvmFlow.Proofs.OrderlyLifting
import Mathlib.Logic.Relation

/-!
# The steps of building and of the passes

All that building a program and the built-in passes do is made of a few kinds of steps. An invariant
of programs that every step keeps holds wherever these steps lead.

* `Program.Verified`, **`Program.verify_eq_ok`**: what a successful check of a program says;
* `Program.Sound`: besides, the graph lists its edges at both ends and the table of symbols is
  consistent;
* `Program.Step`, `Program.Steps`: one step, and any number of them;
* **`Program.Step.sound`**: a step takes a sound program to a sound program;
* `Program.Step.label?`: no step changes the range of a block;
* `Program.Step.retains`: no step takes a constant out of the pool.
-/

namespace EvmFlow.Program

variable {p q : Program}

/-! ## Checked programs -/

/-- A block has a span in the code, known symbols and a stack summary that adds up. -/
structure Fits (p : Program) (b : BasicBlock) : Prop where
  span : p.hasSpan b.opcodes = true
  known : ∀ i ∈ b.instructions, ∀ x ∈ i.symbols, p.symbols.Knows x
  balanced : b.stackInfo.balanced = true

/-- The sentinels and the jump targets are live, and every block fits. -/
structure Verified (p : Program) : Prop where
  sentinel : ∀ n ∈ p.sentinels.toList, p.graph.contains n = true
  target : ∀ (k : Int) n, p.jumpTargets[k]? = some n → p.graph.contains n = true
  block : ∀ n b, p.graph.label? n = some b → p.isSentinel n = false → p.Fits b

theorem opcodes_eq_ok {n : NodeId} {b : BasicBlock} (hb : p.graph.label? n = some b)
    {ops : List Located} :
    p.opcodes n = .ok ops ↔ p.hasSpan b.opcodes = true ∧ p.slice b.opcodes = ops := by
  have hopcodes : p.opcodes n = if p.hasSpan b.opcodes then .ok (p.slice b.opcodes)
      else .error (.malformedSpan b.opcodes n) := by
    rw [opcodes, block, Graph.label_eq_ok.mpr hb]
    rfl
  rw [hopcodes]
  split <;> simp_all

theorem opcodes_congr {n : NodeId} {b b' : BasicBlock} (hb : p.graph.label? n = some b)
    (hb' : q.graph.label? n = some b') (hopcodes : b'.opcodes = b.opcodes) (hcode : q.code = p.code)
    {ops : List Located} (h : p.opcodes n = .ok ops) : q.opcodes n = .ok ops := by
  rw [opcodes_eq_ok hb] at h
  rw [opcodes_eq_ok hb', hasSpan, slice, hopcodes, hcode]
  exact h

theorem verifyInstruction_eq_ok {i : Instruction} :
    p.verifyInstruction i = .ok () ↔ ∀ x ∈ i.symbols, p.symbols.Knows x := by
  unfold verifyInstruction
  rw [forM_eq_ok]
  refine forall_congr' fun x => imp_congr_right fun _ => ?_
  unfold SymbolRecords.entry
  cases he : p.symbols.entry? x with
  | some e => exact ⟨fun _ => SymbolTable.knows_of_entry he, fun _ => rfl⟩
  | none =>
    refine ⟨fun h => (by cases h), fun ⟨id, hid⟩ => ?_⟩
    rw [SymbolTable.identity?, he] at hid
    cases hid

theorem verifyBlock_eq_ok {n : NodeId} {b : BasicBlock} (hb : p.graph.label? n = some b) :
    p.verifyBlock n = .ok () ↔ p.Fits b := by
  have hblock : p.block n = .ok b := Graph.label_eq_ok.mpr hb
  unfold verifyBlock
  constructor
  · intro h
    obtain ⟨b', hb', h⟩ := bind_eq_ok.mp h
    obtain rfl := Except.ok.inj (hblock.symm.trans hb')
    obtain ⟨ops, hops, h⟩ := bind_eq_ok.mp h
    obtain ⟨_, hknown, h⟩ := bind_eq_ok.mp h
    refine ⟨((opcodes_eq_ok hb).mp hops).1, fun i hi => ?_, ?_⟩
    · exact verifyInstruction_eq_ok.mp (forM_eq_ok.mp hknown i hi)
    · split at h
      · assumption
      · cases h
  · intro h
    refine bind_eq_ok.mpr ⟨b, hblock, bind_eq_ok.mpr ⟨_, (opcodes_eq_ok hb).mpr ⟨h.span, rfl⟩,
      bind_eq_ok.mpr ⟨(), forM_eq_ok.mpr fun i hi => ?_, ?_⟩⟩⟩
    · exact verifyInstruction_eq_ok.mpr (h.known i hi)
    · rw [if_pos h.balanced]
      rfl

/-- **A program passes the check if and only if** its sentinels and jump targets are live and its
blocks fit. -/
theorem verify_eq_ok : p.verify = .ok () ↔ p.Verified := by
  have hlive : ∀ (n : NodeId) (f : Fault),
      (if p.graph.contains n then .ok () else .error f : Except Fault Unit) = .ok () ↔
        p.graph.contains n = true := by
    intro n f
    split <;> simp_all
  unfold verify
  constructor
  · intro h
    obtain ⟨_, hsentinel, h⟩ := bind_eq_ok.mp h
    obtain ⟨_, htarget, hblock⟩ := bind_eq_ok.mp h
    refine ⟨fun n hn => (hlive n _).mp (forM_eq_ok.mp hsentinel n hn), fun k n hk => ?_,
      fun n b hb hreal => ?_⟩
    · have hmem := Std.TreeMap.mem_toList_iff_getElem?_eq_some.mpr hk
      exact (hlive n _).mp (forM_eq_ok.mp htarget (k, n) hmem)
    · have hmem := mem_blocks.mpr ⟨Graph.contains_iff_label?.mpr ⟨b, hb⟩, hreal⟩
      exact (verifyBlock_eq_ok hb).mp (forM_eq_ok.mp hblock n hmem)
  · intro h
    refine bind_eq_ok.mpr ⟨(), forM_eq_ok.mpr fun n hn => (hlive n _).mpr (h.sentinel n hn),
      bind_eq_ok.mpr ⟨(), forM_eq_ok.mpr fun ⟨k, n⟩ hmem => (hlive n _).mpr ?_,
        forM_eq_ok.mpr fun n hn => ?_⟩⟩
    · exact h.target k n (Std.TreeMap.mem_toList_iff_getElem?_eq_some.mp hmem)
    · obtain ⟨hn, hreal⟩ := mem_blocks.mp hn
      obtain ⟨b, hb⟩ := Graph.contains_iff_label?.mp hn
      exact (verifyBlock_eq_ok hb).mpr (h.block n b hb hreal)

/-! ## Sound programs -/

/-- A checked program whose graph lists its edges at both ends and whose table of symbols is
consistent. -/
structure Sound (p : Program) : Prop where
  graph : p.graph.Incident
  symbols : p.symbols.Consistent
  verified : p.Verified

/-! ## Steps -/

/-- The program with flat code for the instructions `ops` in the block at a node. -/
def lowered (p : Program) (n : NodeId) (ops : List Located) : Program :=
  let (gaps, s) := FlatStack.lowerAll p.symbols (.block n) ops
  { p with
    graph := p.graph.modifyLabel n fun b => { b with instructions := s.out.toList }
    symbols := s.symbols
    gaps := p.gaps ++ gaps.map fun i => ⟨i.offset, i.instr.op⟩ }

/-- The program with the code that the symbolic model has made in the block at a node. -/
def lifted (p : Program) (n : NodeId) (s : LiftedStack) : Program :=
  { p with
    graph := p.graph.modifyLabel n fun b =>
      { b with instructions := s.out.toList, stackInfo := s.info, lifted := true }
    symbols := s.symbols }

theorem graph_lowered (n : NodeId) (ops : List Located) : (p.lowered n ops).graph =
    p.graph.modifyLabel n fun b => { b with
      instructions := (FlatStack.lowerAll p.symbols (.block n) ops).2.out.toList } := rfl

theorem graph_lifted (n : NodeId) (s : LiftedStack) : (p.lifted n s).graph =
    p.graph.modifyLabel n fun b =>
      { b with instructions := s.out.toList, stackInfo := s.info, lifted := true } := rfl

/-- One step of building or of a pass. -/
inductive Step (p : Program) : Program → Prop
  /-- The blocks that cannot be reached are removed. -/
  | drop {q : Program} {found : List NodeId} (hfound : p.reachable = .ok found)
      (h : Retained p q found) : Step p q
  /-- Dead instructions are removed. -/
  | trim {q : Program} (h : p.Trimmed q) : Step p q
  /-- A block that is not lifted gets flat code. -/
  | lower {n : NodeId} {b : BasicBlock} {ops : List Located} (hb : p.graph.label? n = some b)
      (real : p.isSentinel n = false) (flat : b.lifted = false) (hops : p.opcodes n = .ok ops) :
      Step p (p.lowered n ops)
  /-- A block is lifted. -/
  | lift {n : NodeId} {b : BasicBlock} {ops : List Located} {s : LiftedStack}
      (hb : p.graph.label? n = some b) (real : p.isSentinel n = false) (flat : b.lifted = false)
      (hops : p.opcodes n = .ok ops) (hs : LiftedStack.liftAll p.symbols n ops = .ok s) :
      Step p (p.lifted n s)
  /-- A jump to a constant gets a static edge. -/
  | resolve {q : Program} {e : EdgeId} {n : NodeId} {b : BasicBlock} {w : Word}
      (hb : p.graph.label? n = some b) (real : p.isSentinel n = false)
      (hw : p.constantTarget? b = .ok (some w)) (h : Replaced p q e n (p.jumpTo w)) : Step p q
  /-- Symbols get other types. -/
  | retype {t : SymbolTable} (h : p.symbols.Retypes t) : Step p { p with symbols := t }
  /-- Changes are counted. -/
  | count (tally : Tally) : Step p { p with tally }

/-- Any number of steps. -/
abbrev Steps : Program → Program → Prop := Relation.ReflTransGen Step

namespace Step

theorem code (h : Step p q) : q.code = p.code := by
  cases h with
  | drop _ h => rw [h.others]
  | trim h => rw [h.others]
  | resolve _ _ _ h => rw [h.others]
  | lower | lift | retype | count => rfl

theorem sentinels (h : Step p q) : q.sentinels = p.sentinels := by
  cases h with
  | drop _ h => exact h.sentinels
  | trim h => exact h.sentinels
  | resolve _ _ _ h => exact h.sentinels
  | lower | lift | retype | count => rfl

theorem isSentinel (h : Step p q) (n : NodeId) : q.isSentinel n = p.isSentinel n :=
  isSentinel_congr h.sentinels n

/-- The table only grows. -/
theorem grows (h : Step p q) (hp : p.symbols.Consistent) : p.symbols.Grows q.symbols := by
  cases h with
  | drop _ h => rw [h.others]; exact .refl _
  | trim h => rw [h.symbols]; exact .refl _
  | lower => exact (FlatStack.lowerAll_leads hp _ _).enlarges.grows
  | lift _ _ _ _ hs => exact (LiftedStack.summary_of_liftAll hs).2
  | resolve _ _ _ h => rw [h.others]; exact .refl _
  | retype h => exact h.grows
  | count => exact .refl _

/-- The shared constants stay shared. -/
theorem retains (h : Step p q) (hp : p.symbols.Consistent) : p.symbols.Retains q.symbols := by
  cases h with
  | drop _ h => rw [h.others]; exact .refl _
  | trim h => rw [h.symbols]; exact .refl _
  | lower => exact (FlatStack.lowerAll_leads hp _ _).enlarges.retains
  | lift _ _ _ _ hs =>
    obtain ⟨gaps, hyields⟩ := LiftedStack.liftAll_eq_ok.mp hs
    exact (Lifted.enlarges_lowerCode hyields).retains
  | resolve _ _ _ h => rw [h.others]; exact .refl _
  | retype h => exact .of_shares h.shares
  | count => exact .refl _

theorem consistent (h : Step p q) (hp : p.symbols.Consistent) : q.symbols.Consistent := by
  cases h with
  | drop _ h => rw [h.others]; exact hp
  | trim h => rw [h.symbols]; exact hp
  | lower => exact (FlatStack.lowerAll_leads hp _ _).consistent
  | lift _ _ _ _ hs => exact (targetsForced_of_liftAll hp hs).1
  | resolve _ _ _ h => rw [h.others]; exact hp
  | retype h => exact h.consistent hp
  | count => exact hp

theorem incident (h : Step p q) (hp : p.graph.Incident) : q.graph.Incident := by
  cases h with
  | drop _ h => exact h.incident hp
  | trim h => exact h.incident hp
  | lower => rw [graph_lowered]; exact hp.modifyLabel _ _
  | lift => rw [graph_lifted]; exact hp.modifyLabel _ _
  | resolve _ _ _ h => exact h.incident
  | retype => exact hp
  | count => exact hp

/-- Only the removal of blocks removes nodes, and it keeps the synthetic ones. -/
theorem contains_of_isSentinel (h : Step p q) {n : NodeId} (hn : p.graph.contains n = true)
    (hsentinel : p.isSentinel n = true) : q.graph.contains n = true := by
  cases h with
  | drop _ h =>
    rw [Graph.contains_iff_label?] at hn ⊢
    rw [h.graph, Graph.label?_retain, hsentinel]
    exact hn
  | trim h => rw [h.contains, hn]
  | lower => exact (Graph.contains_modifyLabel _ _ _ _).trans hn
  | lift => exact (Graph.contains_modifyLabel _ _ _ _).trans hn
  | resolve _ _ _ h =>
    rw [Graph.contains_iff_label?, h.label?]
    exact Graph.contains_iff_label?.mp hn
  | retype => exact hn
  | count => exact hn

/-- A jump target that is left was there, and its node stays. -/
theorem jumpTargets (h : Step p q) {k : Int} {n : NodeId} (hk : q.jumpTargets[k]? = some n) :
    p.jumpTargets[k]? = some n ∧ (p.graph.contains n = true → q.graph.contains n = true) := by
  cases h with
  | drop _ h => exact ⟨h.fewer k n hk, h.live k n hk⟩
  | trim h =>
    rw [h.others] at hk
    exact ⟨hk, (h.contains n).trans⟩
  | lower => exact ⟨hk, (Graph.contains_modifyLabel _ _ _ _).trans⟩
  | lift => exact ⟨hk, (Graph.contains_modifyLabel _ _ _ _).trans⟩
  | resolve _ _ _ h =>
    rw [h.others] at hk
    refine ⟨hk, fun hn => ?_⟩
    rw [Graph.contains_iff_label?, h.label?]
    exact Graph.contains_iff_label?.mp hn
  | retype => exact ⟨hk, id⟩
  | count => exact ⟨hk, id⟩

end Step

/-! ## Blocks -/

/-- What a step from `p` to `q` makes of the block `b` at the node `n`. -/
inductive Recoded (p q : Program) (n : NodeId) (b : BasicBlock) : BasicBlock → Prop
  | same : Recoded p q n b b
  | trim {kept : List Instruction} (hsymbols : q.symbols = p.symbols)
      (h : Pruned q.Dead b.instructions kept) : Recoded p q n b { b with instructions := kept }
  | lower {ops : List Located} (real : p.isSentinel n = false) (flat : b.lifted = false)
      (hops : p.opcodes n = .ok ops)
      (hsymbols : q.symbols = (FlatStack.lowerAll p.symbols (.block n) ops).2.symbols) :
      Recoded p q n b { b with
        instructions := (FlatStack.lowerAll p.symbols (.block n) ops).2.out.toList }
  | lift {ops : List Located} {s : LiftedStack} (real : p.isSentinel n = false)
      (flat : b.lifted = false) (hops : p.opcodes n = .ok ops)
      (hs : LiftedStack.liftAll p.symbols n ops = .ok s) (hsymbols : q.symbols = s.symbols) :
      Recoded p q n b { b with
        instructions := s.out.toList, stackInfo := s.info, lifted := true }

theorem Recoded.opcodes {n : NodeId} {b b' : BasicBlock} (h : Recoded p q n b b') :
    b'.opcodes = b.opcodes := by
  cases h <;> rfl

/-- The blocks after a step are blocks before it, most of them with the same code. -/
theorem Step.label? (h : Step p q) {n : NodeId} {b' : BasicBlock}
    (hb' : q.graph.label? n = some b') :
    ∃ b, p.graph.label? n = some b ∧ Recoded p q n b b' := by
  cases h with
  | drop _ h =>
    rw [h.graph, Graph.label?_retain] at hb'
    split at hb'
    · exact ⟨b', hb', .same⟩
    · cases hb'
  | trim h =>
    obtain ⟨b, kept, hb, rfl, hkept⟩ := h.label? hb'
    exact ⟨b, hb, .trim h.symbols hkept⟩
  | @lower m b ops hb real flat hops =>
    rw [graph_lowered, Graph.label?_modifyLabel] at hb'
    split at hb'
    · next hnm =>
      subst hnm
      rw [hb] at hb'
      cases hb'
      exact ⟨b, hb, .lower real flat hops rfl⟩
    · exact ⟨b', hb', .same⟩
  | @lift m b ops s hb real flat hops hs =>
    rw [graph_lifted, Graph.label?_modifyLabel] at hb'
    split at hb'
    · next hnm =>
      subst hnm
      rw [hb] at hb'
      cases hb'
      exact ⟨b, hb, .lift real flat hops hs rfl⟩
    · exact ⟨b', hb', .same⟩
  | resolve _ _ _ h =>
    rw [h.label?] at hb'
    exact ⟨b', hb', .same⟩
  | retype => exact ⟨b', hb', .same⟩
  | count => exact ⟨b', hb', .same⟩

theorem balanced_of_liftAll {t : SymbolTable} {n : NodeId} {ops : List Located} {s : LiftedStack}
    (h : LiftedStack.liftAll t n ops = .ok s) : s.info.balanced = true := by
  have hsummary := (LiftedStack.summary_of_liftAll h).1
  unfold LiftedStack.summary at hsummary
  split at hsummary
  · assumption
  · cases hsummary

/-- **A step takes a sound program to a sound program.** -/
theorem Step.sound (h : Step p q) (hp : p.Sound) : q.Sound where
  graph := h.incident hp.graph
  symbols := h.consistent hp.symbols
  verified := by
    refine ⟨fun n hn => ?_, fun k n hk => ?_, fun n b' hb' hreal => ?_⟩
    · rw [h.sentinels] at hn
      exact h.contains_of_isSentinel (hp.verified.sentinel n hn) (List.contains_iff_mem.mpr hn)
    · obtain ⟨hk, hlive⟩ := h.jumpTargets hk
      exact hlive (hp.verified.target k n hk)
    · obtain ⟨b, hb, hrecoded⟩ := h.label? hb'
      rw [h.isSentinel] at hreal
      have hfits := hp.verified.block n b hb hreal
      have hspan : q.hasSpan b'.opcodes = true := by
        unfold hasSpan
        rw [h.code, hrecoded.opcodes]
        exact hfits.span
      have hgrows := h.grows hp.symbols
      cases hrecoded with
      | same => exact ⟨hspan, fun i hi x hx => hgrows.knows (hfits.known i hi x hx), hfits.balanced⟩
      | trim _ hkept =>
        exact ⟨hspan, fun i hi x hx => hgrows.knows (hfits.known i (hkept.mem_of_mem hi) x hx),
          hfits.balanced⟩
      | lower _ _ _ hsymbols =>
        refine ⟨hspan, fun i hi x hx => ?_, hfits.balanced⟩
        rw [hsymbols]
        exact ((FlatStack.orderly_lowerAll hp.symbols _ _).has i hi x hx).knows
      | lift _ _ _ hs hsymbols =>
        refine ⟨hspan, fun i hi x hx => ?_, balanced_of_liftAll hs⟩
        obtain ⟨s', hs', horder⟩ := LiftedStack.exists_inOrder hp.symbols n _
        obtain rfl := Except.ok.inj (hs.symm.trans hs')
        rw [hsymbols]
        exact (horder.code.has i hi x hx).knows

/-- What every step from a sound program keeps, any number of steps keeps. -/
theorem Steps.induct {P : Program → Prop} (h : Steps p q) (hp : p.Sound) (hP : P p)
    (hstep : ∀ {r r'}, Step r r' → r.Sound → P r → P r') : q.Sound ∧ P q := by
  induction h with
  | refl => exact ⟨hp, hP⟩
  | tail _ hlast ih => exact ⟨hlast.sound ih.1, hstep hlast ih.1 ih.2⟩

end EvmFlow.Program
