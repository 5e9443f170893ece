import EvmFlow.Pass.DeadCode
import EvmFlow.Proofs.Execution
import EvmFlow.Proofs.Graph
import EvmFlow.Proofs.Outcome
import Mathlib.Algebra.BigOperators.Group.List.Basic
import Mathlib.Algebra.Order.Ring.Nat
import Mathlib.Data.List.Count

/-!
# Removing dead instructions keeps the meaning of code

The sweeps keep one count for each symbol, over all blocks, and lower it whenever they remove an
instruction. The counts stay the numbers of reads that are left, so what is removed defines a
temporary that nothing left reads. A run before and a run after can then differ at such temporaries
only.

* `reads`, `Program.readsOf`: how often a block, and all blocks together, read a symbol, as a case
  of `Program.total`;
* `Pruned`: one list of instructions comes from another by removing dead ones;
* `Program.Trimmed`, `Sweep.Sound`: the invariant of the sweeps, and
  **`Program.trimmed_of_removeDead`**;
* `Machine.shown`, `Environment.KeptByReads`: what a run shows, and environments that reads do not
  change;
* `Alike`: the relation between the two runs, kept by each step and by code (`Pruned.alike_run`);
* **`Program.removeDead_preserves`**: removing dead instructions keeps what runs show.
-/

namespace EvmFlow

/-! ## Counting reads -/

/-- How often instructions read a symbol. -/
def usesIn (code : List Instruction) (x : SymbolRef) : Nat :=
  (code.flatMap Instruction.uses).count x

/-- How often a block reads a symbol: in its code, and as a value it generates. -/
def reads (b : BasicBlock) (x : SymbolRef) : Nat :=
  usesIn b.instructions x + b.stackInfo.generates.count x

theorem usesIn_cons (i : Instruction) (code : List Instruction) (x : SymbolRef) :
    usesIn (i :: code) x = i.uses.count x + usesIn code x := by
  rw [usesIn, List.flatMap_cons, List.count_append, usesIn]

namespace Demand

theorem of_insert (d : Demand) (y x : SymbolRef) (n : Nat) :
    of (d.insert y n) x = if y = x then n else d.of x := by
  simp [of, Std.TreeMap.getD_insert]

theorem of_raise (d : Demand) (refs : List SymbolRef) (x : SymbolRef) :
    (d.raise refs).of x = d.of x + refs.count x := by
  unfold raise
  induction refs generalizing d with
  | nil => rfl
  | cons y refs ih =>
    rw [List.foldl_cons, ih, of_insert, List.count_cons]
    by_cases h : y = x
    · subst h
      simp only [if_true, beq_self_eq_true]
      omega
    · have hb : (y == x) = false := by simpa using h
      simp [h, hb]

theorem of_release (d : Demand) (refs : List SymbolRef) (x : SymbolRef) :
    (d.release refs).of x = d.of x - refs.count x := by
  unfold release
  induction refs generalizing d with
  | nil => rfl
  | cons y refs ih =>
    rw [List.foldl_cons, ih, of_insert, List.count_cons]
    by_cases h : y = x
    · subst h
      simp only [if_true, beq_self_eq_true]
      omega
    · have hb : (y == x) = false := by simpa using h
      simp [h, hb]

theorem of_foldl_raise (d : Demand) (code : List Instruction) (x : SymbolRef) :
    of (code.foldl (fun d i => d.raise i.uses) d) x = d.of x + usesIn code x := by
  induction code generalizing d with
  | nil => rfl
  | cons i code ih =>
    rw [List.foldl_cons, ih, of_raise, usesIn_cons]
    omega

theorem of_addBlock (d : Demand) (b : BasicBlock) (x : SymbolRef) :
    (d.addBlock b).of x = d.of x + reads b x := by
  rw [addBlock, of_raise, of_foldl_raise, reads]
  omega

theorem of_foldl_addBlock (d : Demand) (blocks : List BasicBlock) (x : SymbolRef) :
    of (blocks.foldl addBlock d) x = d.of x + (blocks.map (reads · x)).sum := by
  induction blocks generalizing d with
  | nil => rfl
  | cons b blocks ih =>
    rw [List.foldl_cons, ih, of_addBlock, List.map_cons, List.sum_cons]
    omega

end Demand

/-! ## Pruned code -/

/-- `Pruned dead code kept`: `kept` comes from `code` by removing instructions that only compute a
symbol among `dead`. -/
inductive Pruned (dead : SymbolRef → Prop) : List Instruction → List Instruction → Prop where
  | nil : Pruned dead [] []
  | keep (i : Instruction) {code kept : List Instruction} :
    Pruned dead code kept → Pruned dead (i :: code) (i :: kept)
  | drop {i : Instruction} {x : SymbolRef} {code kept : List Instruction} :
    i.isPure = true → i.definition? = some x → dead x → Pruned dead code kept →
      Pruned dead (i :: code) kept

namespace Pruned

variable {dead dead' : SymbolRef → Prop} {a b c : List Instruction}

theorem refl (dead : SymbolRef → Prop) (code : List Instruction) : Pruned dead code code := by
  induction code with
  | nil => exact .nil
  | cons i _ ih => exact .keep i ih

theorem mono (h : Pruned dead a b) (hd : ∀ x, dead x → dead' x) : Pruned dead' a b := by
  induction h with
  | nil => exact .nil
  | keep i _ ih => exact .keep i ih
  | drop hp hx hdead _ ih => exact .drop hp hx (hd _ hdead) ih

theorem trans (hab : Pruned dead a b) (hbc : Pruned dead b c) : Pruned dead a c := by
  induction hab generalizing c with
  | nil => exact hbc
  | keep i _ ih =>
    cases hbc with
    | keep _ h => exact .keep i (ih h)
    | drop hp hx hdead h => exact .drop hp hx hdead (ih h)
  | drop hp hx hdead _ ih => exact .drop hp hx hdead (ih hbc)

theorem usesIn_le (h : Pruned dead a b) (x : SymbolRef) : usesIn b x ≤ usesIn a x := by
  induction h with
  | nil => exact Nat.le_refl _
  | keep i _ ih =>
    rw [usesIn_cons, usesIn_cons]
    omega
  | drop _ _ _ _ ih =>
    rw [usesIn_cons]
    omega

theorem mem_of_mem (h : Pruned dead a b) {i : Instruction} (hi : i ∈ b) : i ∈ a := by
  induction h with
  | nil => exact hi
  | keep j _ ih =>
    rcases List.mem_cons.mp hi with rfl | hi
    · exact List.mem_cons_self
    · exact List.mem_cons_of_mem _ (ih hi)
  | drop _ _ _ _ ih => exact List.mem_cons_of_mem _ (ih hi)

theorem sublist (h : Pruned dead a b) : b.Sublist a := by
  induction h with
  | nil => exact .slnil
  | keep i _ ih => exact ih.cons_cons i
  | drop _ _ _ _ ih => exact ih.cons _

end Pruned

/-! ## One sweep over code -/

theorem of_isDead {t : SymbolTable} {d : Demand} {i : Instruction}
    (h : isDead t d i = .ok true) :
    ∃ x, i.definition? = some x ∧ d.of x = 0 ∧ t.IsTemporary x ∧ i.isPure = true := by
  unfold isDead at h
  cases hx : i.definition? with
  | none =>
    rw [hx] at h
    cases h
  | some x =>
    rw [hx] at h
    dsimp only at h
    split at h
    · cases h
    · next hd =>
      obtain ⟨s, hs, hdead⟩ := bind_eq_ok.mp h
      obtain ⟨htmp, hpure⟩ := Bool.and_eq_true_iff.mp (Except.ok.inj hdead)
      obtain ⟨haddr, hvar⟩ := of_decide_eq_true htmp
      obtain ⟨sc, hid⟩ := SymbolTable.identity?_of_symbol hs
      refine ⟨x, rfl, by omega, ⟨sc, ?_⟩, hpure⟩
      rw [hid, haddr, hvar]

/-- Whether an instruction is dead is found out if the symbol it defines is known. -/
theorem exists_isDead {t : SymbolTable} (d : Demand) {i : Instruction}
    (hk : ∀ x, i.definition? = some x → t.Knows x) : ∃ dead, isDead t d i = .ok dead := by
  unfold isDead
  cases hx : i.definition? with
  | none => exact ⟨false, rfl⟩
  | some x =>
    dsimp only
    split
    · exact ⟨false, rfl⟩
    · obtain ⟨id, hid⟩ := hk x hx
      obtain ⟨s, hs, -⟩ := SymbolTable.exists_symbol_of_identity? hid
      exact ⟨s.isTemporary && i.isPure, by rw [hs]; rfl⟩

theorem exists_sweepInstructions {t : SymbolTable} (d : Demand) {code : List Instruction}
    (hk : ∀ i ∈ code, ∀ x, i.definition? = some x → t.Knows x) :
    ∃ r, sweepInstructions t d code = .ok r := by
  induction code generalizing d with
  | nil => exact ⟨_, rfl⟩
  | cons i rest ih =>
    obtain ⟨dead, hdead⟩ := exists_isDead d (hk i List.mem_cons_self)
    have ih' := fun d => ih d fun j hj => hk j (List.mem_cons_of_mem _ hj)
    unfold sweepInstructions
    rw [hdead]
    cases dead with
    | true => exact ih' (d.release i.uses)
    | false =>
      obtain ⟨r, hr⟩ := ih' d
      exact ⟨(i :: r.1, r.2), bind_eq_ok.mpr ⟨false, rfl, bind_eq_ok.mpr ⟨r, hr, rfl⟩⟩⟩

/-- A sweep over code, where all other code reads symbols as often as `others` says. The counts stay
the numbers of reads, and what is removed is not read any more. -/
theorem sweepInstructions_pruned {t : SymbolTable} (others : SymbolRef → Nat) {d d' : Demand}
    {code kept : List Instruction} (h : sweepInstructions t d code = .ok (kept, d'))
    (hd : ∀ x, d.of x = others x + usesIn code x) :
    (∀ x, d'.of x = others x + usesIn kept x) ∧
      Pruned (fun x => t.IsTemporary x ∧ others x + usesIn kept x = 0) code kept := by
  induction code generalizing d others kept with
  | nil =>
    cases h
    exact ⟨hd, .nil⟩
  | cons i rest ih =>
    unfold sweepInstructions at h
    obtain ⟨dead, hdead, h⟩ := bind_eq_ok.mp h
    cases dead with
    | true =>
      obtain ⟨x, hx, hzero, htmp, hpure⟩ := of_isDead hdead
      obtain ⟨hcount, hpruned⟩ := ih others h fun y => by
        rw [Demand.of_release, hd y, usesIn_cons]
        omega
      refine ⟨hcount, .drop hpure hx ⟨htmp, ?_⟩ hpruned⟩
      have hread := hd x
      have hless := hpruned.usesIn_le x
      rw [usesIn_cons] at hread
      omega
    | false =>
      obtain ⟨r, hr, h⟩ := bind_eq_ok.mp h
      cases h
      -- For the rest of the code, the reads of the kept instruction are reads by other code.
      obtain ⟨hcount, hpruned⟩ := ih (fun x => others x + i.uses.count x) hr fun y => by
        rw [hd y, usesIn_cons]
        omega
      refine ⟨fun y => ?_, .keep i (hpruned.mono fun y hy => ⟨hy.1, ?_⟩)⟩
      · rw [hcount y, usesIn_cons]
        omega
      · have := hy.2
        rw [usesIn_cons]
        omega

/-! ## Sweeps over a program -/

namespace Program

/-- The number that `f` gives for the block at a node. -/
def weight (p : Program) (f : BasicBlock → Nat) (n : NodeId) : Nat :=
  ((p.graph.node? n).map fun v => f v.label).getD 0

/-- The number that `f` gives for all blocks together. -/
def total (p : Program) (f : BasicBlock → Nat) : Nat := (p.blocks.map (p.weight f)).sum

/-- How often all blocks together read a symbol. -/
def readsOf (p : Program) (x : SymbolRef) : Nat := p.total (reads · x)

/-- A temporary that no block reads. -/
def Dead (p : Program) (x : SymbolRef) : Prop := p.symbols.IsTemporary x ∧ p.readsOf x = 0

/-- Gives the block at a node other code. -/
def setCode (p : Program) (n : NodeId) (code : List Instruction) : Program :=
  p.modifyBlock n fun b => { b with instructions := code }

/-- The blocks define symbols of the table only. -/
def KnowsDefinitions (p : Program) : Prop :=
  ∀ n ∈ p.blocks, ∀ v, p.graph.node? n = some v → ∀ i ∈ v.label.instructions,
    ∀ x, i.definition? = some x → p.symbols.Knows x

variable {p q : Program} {n : NodeId} {v : Graph.Node BasicBlock} {x : SymbolRef}
  {f : BasicBlock → Nat}

theorem mem_blocks : n ∈ p.blocks ↔ p.graph.contains n = true ∧ p.isSentinel n = false := by
  rw [blocks, List.mem_filter, Graph.mem_nodeIds, Bool.not_eq_true']

theorem pairwise_blocks (p : Program) : p.blocks.Pairwise (· < ·) :=
  (Graph.pairwise_nodeIds p.graph).filter _

theorem nodup_blocks (p : Program) : p.blocks.Nodup := (Graph.nodup_nodeIds p.graph).filter _

theorem weight_of_node? (h : p.graph.node? n = some v) : p.weight f n = f v.label := by
  rw [weight, h]
  rfl

theorem sum_blocksAt (p : Program) (f : BasicBlock → Nat) (nodes : List NodeId) :
    ((p.blocksAt nodes).map f).sum = (nodes.map (p.weight f)).sum := by
  induction nodes with
  | nil => rfl
  | cons n nodes ih =>
    rw [List.map_cons, List.sum_cons, ← ih, blocksAt, List.filterMap_cons, weight]
    cases p.graph.node? n with
    | none => exact (Nat.zero_add _).symm
    | some v => rfl

theorem total_eq_of_mem (f : BasicBlock → Nat) (h : n ∈ p.blocks) :
    p.total f = ((p.blocks.erase n).map (p.weight f)).sum + p.weight f n := by
  rw [total, ← List.sum_map_erase (p.weight f) h, Nat.add_comm]

theorem node?_setCode (p : Program) (n m : NodeId) (code : List Instruction) :
    (p.setCode n code).graph.node? m = if m = n then (p.graph.node? m).map fun v =>
      { v with label := { v.label with instructions := code } } else p.graph.node? m :=
  Graph.node?_modifyLabel p.graph n m _

theorem blocks_setCode (p : Program) (n : NodeId) (code : List Instruction) :
    (p.setCode n code).blocks = p.blocks :=
  congrArg (List.filter fun n => !p.isSentinel n) (Graph.nodeIds_modifyLabel p.graph n _)

theorem total_setCode (f : BasicBlock → Nat) (hv : p.graph.node? n = some v) (hn : n ∈ p.blocks)
    (code : List Instruction) :
    (p.setCode n code).total f = ((p.blocks.erase n).map (p.weight f)).sum +
      f { v.label with instructions := code } := by
  have hnew : (p.setCode n code).graph.node? n =
      some { v with label := { v.label with instructions := code } } := by
    rw [node?_setCode, if_pos rfl, hv]
    rfl
  have hothers : (p.blocks.erase n).map ((p.setCode n code).weight f) =
      (p.blocks.erase n).map (p.weight f) := by
    refine List.map_congr_left fun m hm => ?_
    have hne : m ≠ n := ((List.Nodup.mem_erase_iff p.nodup_blocks).mp hm).1
    rw [weight, weight, node?_setCode, if_neg hne]
  rw [total_eq_of_mem f (by rwa [blocks_setCode]), blocks_setCode, hothers, weight_of_node? hnew]

theorem readsOf_eq_of_mem (hv : p.graph.node? n = some v) (hn : n ∈ p.blocks) (x : SymbolRef) :
    p.readsOf x = ((p.blocks.erase n).map (p.weight (reads · x))).sum + reads v.label x := by
  rw [readsOf, total_eq_of_mem _ hn, weight_of_node? hv]

theorem readsOf_setCode (hv : p.graph.node? n = some v) (hn : n ∈ p.blocks)
    (code : List Instruction) (x : SymbolRef) :
    (p.setCode n code).readsOf x = ((p.blocks.erase n).map (p.weight (reads · x))).sum +
      v.label.stackInfo.generates.count x + usesIn code x := by
  rw [readsOf, total_setCode _ hv hn, reads]
  dsimp only
  omega

/-- `q` is `p` with shorter code: what is missing computes temporaries that `q` does not read. -/
structure Trimmed (p q : Program) : Prop where
  others : q = { p with graph := q.graph }
  nodeIds : q.graph.nodeIds = p.graph.nodeIds
  edge? : ∀ e, q.graph.edge? e = p.graph.edge? e
  counts : q.graph.nodeCount = p.graph.nodeCount ∧ q.graph.edgeCount = p.graph.edgeCount
  node? : ∀ n v, p.graph.node? n = some v → ∃ kept,
    q.graph.node? n = some { v with label := { v.label with instructions := kept } } ∧
      Pruned q.Dead v.label.instructions kept

namespace Trimmed

theorem refl (p : Program) : p.Trimmed p where
  others := rfl
  nodeIds := rfl
  edge? _ := rfl
  counts := ⟨rfl, rfl⟩
  node? _ v h := ⟨v.label.instructions, h, .refl _ _⟩

theorem symbols (h : p.Trimmed q) : q.symbols = p.symbols := by rw [h.others]

theorem sentinels (h : p.Trimmed q) : q.sentinels = p.sentinels := by rw [h.others]

theorem blocks (h : p.Trimmed q) : q.blocks = p.blocks := by
  unfold Program.blocks isSentinel
  rw [h.nodeIds, h.sentinels]

theorem node?_eq_none (h : p.Trimmed q) (hn : p.graph.node? n = none) :
    q.graph.node? n = none := by
  rw [← Option.not_isSome_iff_eq_none]
  intro hsome
  have hmem := Graph.mem_nodeIds.mpr hsome
  rw [h.nodeIds, Graph.mem_nodeIds, Graph.contains, hn] at hmem
  cases hmem

/-- Code that is shorter once more. What was dead stays dead, since reads only go away. -/
theorem setCode (h : p.Trimmed q) (hv : q.graph.node? n = some v) (hn : n ∈ q.blocks)
    {kept : List Instruction} (hkept : Pruned (q.setCode n kept).Dead v.label.instructions kept) :
    p.Trimmed (q.setCode n kept) := by
  have hmono : ∀ x, q.Dead x → (q.setCode n kept).Dead x := by
    rintro x ⟨htmp, hzero⟩
    refine ⟨htmp, ?_⟩
    have hless := hkept.usesIn_le x
    rw [readsOf_eq_of_mem hv hn, reads] at hzero
    rw [readsOf_setCode hv hn]
    omega
  refine ⟨?_, ?_, ?_, ?_, ?_⟩
  · have hothers := h.others
    generalize q.graph = g at hothers
    subst hothers
    rfl
  · rw [← h.nodeIds]
    exact Graph.nodeIds_modifyLabel q.graph n _
  · intro e
    rw [← h.edge?]
    exact Graph.edge?_modifyLabel q.graph n _ e
  · exact ⟨(q.graph.nodeCount_modifyNode n _).trans h.counts.1,
      (q.graph.edgeCount_modifyNode n _).trans h.counts.2⟩
  · intro m u hu
    obtain ⟨before, hm, hpruned⟩ := h.node? m u hu
    rw [node?_setCode, hm]
    by_cases hmn : m = n
    · subst hmn
      obtain rfl := Option.some.inj (hv.symm.trans hm)
      exact ⟨kept, by rw [if_pos rfl]; rfl, (hpruned.mono hmono).trans hkept⟩
    · exact ⟨before, by rw [if_neg hmn], hpruned.mono hmono⟩

end Trimmed

end Program

namespace Sweep

variable {p : Program} {s : Sweep}

/-- The state between two steps of the sweeps: code is missing only where it may be, and the counts
are the numbers of reads and of removed instructions. -/
structure Sound (p : Program) (s : Sweep) : Prop where
  trimmed : p.Trimmed s.program
  counted : ∀ x, s.demand.of x = s.program.readsOf x
  removed : s.removed + s.program.total (·.instructions.length) = p.total (·.instructions.length)

theorem Sound.block {s' : Sweep} (h : Sound p s) {n : NodeId} (hn : n ∈ p.blocks)
    (hs : s.block n = .ok s') : Sound p s' := by
  obtain ⟨b, hb, hs⟩ := bind_eq_ok.mp hs
  obtain ⟨⟨kept, d⟩, hsweep, hs⟩ := bind_eq_ok.mp hs
  cases hs
  obtain ⟨v, hv, rfl⟩ := Graph.node?_of_label hb
  have hmem : n ∈ s.program.blocks := by rwa [h.trimmed.blocks]
  have hreads := Program.readsOf_setCode hv hmem kept
  obtain ⟨hcount, hkept⟩ := sweepInstructions_pruned
    (fun x => ((s.program.blocks.erase n).map (s.program.weight (reads · x))).sum +
      v.label.stackInfo.generates.count x) hsweep fun x => by
        rw [h.counted, Program.readsOf_eq_of_mem hv hmem, reads]
        omega
  refine ⟨h.trimmed.setCode hv hmem (hkept.mono fun x hx => ⟨hx.1, ?_⟩), fun x => ?_, ?_⟩
  · rw [hreads]
    exact hx.2
  · exact (hcount x).trans (hreads x).symm
  · have hlength := h.removed
    have hless := hkept.sublist.length_le
    have hnew : (s.program.setCode n kept).total (·.instructions.length) =
        ((s.program.blocks.erase n).map (s.program.weight (·.instructions.length))).sum +
          kept.length := Program.total_setCode _ hv hmem kept
    rw [Program.total_eq_of_mem _ hmem, Program.weight_of_node? hv] at hlength
    change s.removed + (v.label.instructions.length - kept.length) +
      (s.program.setCode n kept).total (·.instructions.length) = _
    rw [hnew]
    omega

theorem Sound.exists_block (hp : p.KnowsDefinitions) (h : Sound p s) {n : NodeId}
    (hn : n ∈ p.blocks) : ∃ s', s.block n = .ok s' ∧ Sound p s' := by
  obtain ⟨u, hu⟩ := Graph.contains_iff.mp (Program.mem_blocks.mp hn).1
  obtain ⟨before, hv, hpruned⟩ := h.trimmed.node? n u hu
  have hknown : ∀ i ∈ before, ∀ x, i.definition? = some x → s.program.symbols.Knows x := by
    intro i hi x hx
    rw [h.trimmed.symbols]
    exact hp n hn u hu i (hpruned.mem_of_mem hi) x hx
  obtain ⟨r, hr⟩ := exists_sweepInstructions s.demand hknown
  obtain ⟨s', hs'⟩ : ∃ s', s.block n = .ok s' :=
    ⟨_, bind_eq_ok.mpr ⟨_, Graph.label_of_node? hv, bind_eq_ok.mpr ⟨r, hr, rfl⟩⟩⟩
  exact ⟨s', hs', h.block hn hs'⟩

theorem Sound.repeat {s' : Sweep} {sweeps : Nat} (h : Sound p s)
    (hs : Sweep.repeat p.blocks sweeps s = .ok s') : Sound p s' := by
  induction sweeps generalizing s with
  | zero =>
    cases hs
    exact h
  | succ sweeps ih =>
    obtain ⟨s₁, hs₁, hs⟩ := bind_eq_ok.mp hs
    have h₁ := foldlM_ok (fun n hn _ _ hs h => hs.block hn h) h hs₁
    split at hs
    · cases hs
      exact h₁
    · exact ih h₁ hs

theorem Sound.exists_repeat (hp : p.KnowsDefinitions) (h : Sound p s) (sweeps : Nat) :
    ∃ s', Sweep.repeat p.blocks sweeps s = .ok s' := by
  induction sweeps generalizing s with
  | zero => exact ⟨s, rfl⟩
  | succ sweeps ih =>
    obtain ⟨s₁, hs₁, h₁⟩ := exists_foldlM (fun n hn _ hs => hs.exists_block hp hn) h
    rw [Sweep.repeat, hs₁]
    by_cases hsame : s₁.removed = s.removed
    · exact ⟨s₁, if_pos hsame⟩
    · obtain ⟨s₂, hs₂⟩ := ih h₁
      exact ⟨s₂, (if_neg hsame).trans hs₂⟩

end Sweep

namespace Program

theorem sound_start (p : Program) :
    Sweep.Sound p ⟨p, (p.blocksAt p.blocks).foldl Demand.addBlock {}, 0⟩ := by
  refine ⟨.refl p, fun x => ?_, Nat.zero_add _⟩
  rw [Demand.of_foldl_addBlock, sum_blocksAt, readsOf, total]
  exact Nat.zero_add _

/-- **Removing dead instructions only trims the code**: what is missing computes temporaries that
the result does not read. -/
theorem trimmed_of_removeDead {p q : Program} {k : Nat} (h : p.removeDead = .ok (k, q)) :
    p.Trimmed q := by
  obtain ⟨s, hs, h⟩ := bind_eq_ok.mp h
  cases h
  exact (p.sound_start.repeat hs).trimmed

theorem exists_removeDead {p : Program} (hp : p.KnowsDefinitions) :
    ∃ k q, p.removeDead = .ok (k, q) := by
  obtain ⟨s, hs⟩ := p.sound_start.exists_repeat hp
    ((p.blocksAt p.blocks).foldl (fun n b => n + b.instructions.length) 0 + 1)
  exact ⟨s.removed, s.program, bind_eq_ok.mpr ⟨s, hs, rfl⟩⟩

end Program

/-! ## Runs before and after -/

/-- Whether an action is more than a read: a call of a procedure or of a function that is not pure,
a store, or a branch. -/
def Action.isObservable : Action → Bool
  | .function g => !g.isPure
  | .load _ => false
  | .procedure _ | .store _ | .branch | .condBranch => true

/-- Reads do not change the environment. -/
def Environment.KeptByReads {σ : Type} (I : Environment σ) : Prop :=
  ∀ a ws e, a.isObservable = false → (I a ws e).2 = e

/-- What a run shows: its actions that are more than reads. -/
def Machine.shown {σ : Type} (m : Machine σ) : List Event :=
  m.trace.filter (·.action.isObservable)

theorem Instruction.isObservable_of_isPure {i : Instruction} (hp : i.isPure = true)
    {r : SymbolRef → Region} {a : Action} (ha : i.action? r = some a) : a.isObservable = false := by
  cases i with
  | function g x _ =>
    cases ha
    rw [Action.isObservable, show g.isPure = true from hp]
    rfl
  | indexedCopy _ _ _ =>
    cases ha
    rfl
  | procedure _ _ | indexedAssign _ _ _ | branch _ | condBranch _ _ => cases hp
  | nop | binary _ _ _ _ | unary _ _ _ | copy _ _ => cases ha

section Runs

variable {σ : Type} {I : Environment σ} {t : SymbolTable} {dead : SymbolRef → Prop}
  {m m' : Machine σ}

/-- What computes a symbol among `dead` changes no other. -/
theorem Machine.step_values_of_not_dead {i : Instruction} {x y : SymbolRef}
    (hx : i.definition? = some x) (hdead : dead x) (hy : ¬ dead y) :
    (m.step I t i).values y = m.values y := by
  refine m.step_values_of_ne I t fun hdef => hy ?_
  obtain rfl := Option.some.inj (hx.symm.trans hdef)
  exact hdead

/-- Two runs that differ at the symbols among `dead` only, and in the reads they make. -/
structure Alike (dead : SymbolRef → Prop) (m m' : Machine σ) : Prop where
  values : ∀ x, ¬ dead x → m.values x = m'.values x
  env : m.env = m'.env
  shown : m.shown = m'.shown

namespace Alike

theorem refl (dead : SymbolRef → Prop) (m : Machine σ) : Alike dead m m :=
  ⟨fun _ _ => rfl, rfl, rfl⟩

theorem assign (h : Alike dead m m') (x : Option SymbolRef) (w : Word) :
    Alike dead (m.assign x w) (m'.assign x w) := by
  cases x with
  | none => exact h
  | some x =>
    exact ⟨fun y hy => m.assign_values_congr (h.values y hy) (some x) w, h.env, h.shown⟩

theorem act (h : Alike dead m m') (x : Option SymbolRef) (a : Action) (ws : List Word) :
    Alike dead (m.act I x a ws) (m'.act I x a ws) := by
  refine ⟨?_, ?_, ?_⟩
  · rw [Machine.act_values, Machine.act_values, h.env]
    exact (h.assign x _).values
  · rw [Machine.act_env, Machine.act_env, h.env]
  · have hshown : m.trace.filter (·.action.isObservable) =
        m'.trace.filter (·.action.isObservable) := h.shown
    rw [Machine.shown, Machine.shown, Machine.act_trace, Machine.act_trace, List.filter_append,
      List.filter_append, hshown]

/-- Both runs take an instruction that reads no symbol among `dead`. -/
theorem step (h : Alike dead m m') {i : Instruction} (hi : ∀ x ∈ i.uses, ¬ dead x) :
    Alike dead (m.step I t i) (m'.step I t i) := by
  obtain ⟨hoperands, haction⟩ := Instruction.congr_of_uses t fun x hx => h.values x (hi x hx)
  unfold Machine.step
  rw [hoperands, haction]
  split
  · exact h.act _ _ _
  · exact h.assign _ _

/-- One run takes an instruction that only computes a symbol among `dead`. -/
theorem step_left (hI : I.KeptByReads) (h : Alike dead m m') {i : Instruction} {x : SymbolRef}
    (hp : i.isPure = true) (hx : i.definition? = some x) (hdead : dead x) :
    Alike dead (m.step I t i) m' := by
  refine ⟨fun y hy => ?_, ?_, ?_⟩
  · rw [Machine.step_values_of_not_dead hx hdead hy, h.values y hy]
  · cases ha : i.action? (t.region m.values) with
    | none => rw [Machine.step_of_no_action I t m ha, Machine.assign_env, h.env]
    | some a =>
      rw [Machine.step_of_action I t m ha, Machine.act_env,
        hI _ _ _ (Instruction.isObservable_of_isPure hp ha), h.env]
  · rw [← h.shown]
    cases ha : i.action? (t.region m.values) with
    | none => rw [Machine.step_of_no_action I t m ha, Machine.shown, Machine.assign_trace,
        Machine.shown]
    | some a =>
      have hhidden := Instruction.isObservable_of_isPure hp ha
      rw [Machine.step_of_action I t m ha, Machine.shown, Machine.act_trace, List.filter_append,
        Machine.shown]
      simp [hhidden]

end Alike

/-- Code and what is left of it keep two runs alike. -/
theorem Pruned.alike_run (hI : I.KeptByReads) {code kept : List Instruction}
    (hpruned : Pruned dead code kept) (hread : ∀ x, dead x → usesIn kept x = 0)
    (h : Alike dead m m') : Alike dead (m.run I t code) (m'.run I t kept) := by
  induction hpruned generalizing m m' with
  | nil => exact h
  | keep i _ ih =>
    have hi : ∀ x ∈ i.uses, ¬ dead x := by
      intro x hx hdead
      have hzero := hread x hdead
      have hpos := List.count_pos_iff.mpr hx
      rw [usesIn_cons] at hzero
      omega
    refine ih (fun x hx => ?_) (h.step hi)
    have hzero := hread x hx
    rw [usesIn_cons] at hzero
    omega
  | drop hp hx hdead _ ih => exact ih hread (h.step_left hI hp hx hdead)

end Runs

namespace Program

variable {p q : Program}

/-- The code of the block at a node. -/
def codeAt (p : Program) (n : NodeId) : List Instruction :=
  ((p.graph.node? n).map fun v => v.label.instructions).getD []

/-- Runs the code of blocks one after another. -/
def runBlocks {σ : Type} (p : Program) (I : Environment σ) (m : Machine σ) (nodes : List NodeId) :
    Machine σ := nodes.foldl (fun m n => m.run I p.symbols (p.codeAt n)) m

theorem codeAt_of_node? {n : NodeId} {v : Graph.Node BasicBlock} (h : p.graph.node? n = some v) :
    p.codeAt n = v.label.instructions := by
  rw [codeAt, h]
  rfl

theorem codeAt_of_label? {n : NodeId} {b : BasicBlock} (h : p.graph.label? n = some b) :
    p.codeAt n = b.instructions := by
  obtain ⟨v, hv, rfl⟩ := Option.map_eq_some_iff.mp h
  exact codeAt_of_node? hv

theorem Dead.reads_eq_zero {x : SymbolRef} (h : p.Dead x) {n : NodeId} (hn : n ∈ p.blocks)
    {v : Graph.Node BasicBlock} (hv : p.graph.node? n = some v) : reads v.label x = 0 := by
  have hzero := h.2
  rw [readsOf_eq_of_mem hv hn] at hzero
  omega

theorem Trimmed.alike_runBlocks {σ : Type} {I : Environment σ} (hI : I.KeptByReads)
    (h : p.Trimmed q) {nodes : List NodeId} (hn : ∀ n ∈ nodes, n ∈ p.blocks) {m m' : Machine σ}
    (hm : Alike q.Dead m m') : Alike q.Dead (p.runBlocks I m nodes) (q.runBlocks I m' nodes) := by
  induction nodes generalizing m m' with
  | nil => exact hm
  | cons n nodes ih =>
    refine ih (fun k hk => hn k (List.mem_cons_of_mem _ hk)) ?_
    have hmem := hn n List.mem_cons_self
    obtain ⟨v, hv⟩ := Graph.contains_iff.mp (mem_blocks.mp hmem).1
    obtain ⟨kept, hq, hpruned⟩ := h.node? n v hv
    dsimp only
    rw [codeAt_of_node? hv, codeAt_of_node? hq, h.symbols]
    refine hpruned.alike_run hI (fun x hx => ?_) hm
    have hzero := hx.reads_eq_zero (by rwa [h.blocks]) hq
    exact (Nat.add_eq_zero_iff.mp hzero).1

/-- **Removing dead instructions keeps what runs show.** It succeeds on every program whose blocks
define known symbols only; and whenever reads do not change the environment, any sequence of blocks
shows the same actions as before, leaves the same environment, and gives the same values to all
symbols but temporaries and to all values that a block generates. -/
theorem removeDead_preserves (hp : p.KnowsDefinitions) :
    ∃ k q, p.removeDead = .ok (k, q) ∧ q.symbols = p.symbols ∧ q.blocks = p.blocks ∧
      ∀ {σ : Type} (I : Environment σ), I.KeptByReads → ∀ (m : Machine σ) (nodes : List NodeId),
        (∀ n ∈ nodes, n ∈ p.blocks) →
          (q.runBlocks I m nodes).shown = (p.runBlocks I m nodes).shown ∧
          (q.runBlocks I m nodes).env = (p.runBlocks I m nodes).env ∧
          (∀ x, ¬ p.symbols.IsTemporary x →
            (q.runBlocks I m nodes).values x = (p.runBlocks I m nodes).values x) ∧
          ∀ n ∈ p.blocks, ∀ v, p.graph.node? n = some v → ∀ x ∈ v.label.stackInfo.generates,
            (q.runBlocks I m nodes).values x = (p.runBlocks I m nodes).values x := by
  obtain ⟨k, q, hq⟩ := exists_removeDead hp
  have htrimmed := trimmed_of_removeDead hq
  refine ⟨k, q, hq, htrimmed.symbols, htrimmed.blocks, fun I hI m nodes hn => ?_⟩
  have halike := htrimmed.alike_runBlocks hI hn (.refl q.Dead m)
  refine ⟨halike.shown.symm, halike.env.symm, fun x hx => ?_, fun n hn v hv x hx => ?_⟩
  · refine (halike.values x fun hdead => hx ?_).symm
    rw [← htrimmed.symbols]
    exact hdead.1
  · refine (halike.values x fun hdead => ?_).symm
    obtain ⟨kept, hv', -⟩ := htrimmed.node? n v hv
    have hzero := hdead.reads_eq_zero (by rwa [htrimmed.blocks]) hv'
    have hpos := List.count_pos_iff.mpr hx
    rw [reads] at hzero
    dsimp only at hzero
    omega

/-- Two blocks that share two temporaries: both assign the second one, which nothing reads, and what
the first block leaves in the first one is stored by the second block. -/
def sharing : Program :=
  let first : BasicBlock :=
    { opcodes := ⟨0, 0⟩, instructions := [.function .gas 0 [], .binary 1 .add 0 0] }
  let second : BasicBlock :=
    { opcodes := ⟨0, 0⟩, instructions := [.indexedAssign 2 0 0, .copy 1 0] }
  let sentinel : Option (Graph.Node BasicBlock) := some { label := .startingAt 0 }
  { code := #[]
    graph := { nodes := #[sentinel, sentinel, sentinel, sentinel, some { label := first },
      some { label := second }] }
    sentinels := ⟨0, 1, 2, 3⟩
    symbols :=
      (((({} : SymbolTable).temporary .program).2.temporary .program).2.global .memory).2 }

/-- An environment that counts what it is shown, and answers with the count. -/
def counting : Environment Word := fun a _ n => (n, if a.isObservable then n + 1 else n)

theorem removeDead_preserves_sharing : sharing.KnowsDefinitions ∧ counting.KeptByReads ∧
    (∀ n ∈ [4, 5, 4, 5], n ∈ sharing.blocks) ∧
      ∃ q, sharing.removeDead = .ok (2, q) ∧ ∀ m,
        (q.runBlocks counting m [4, 5, 4, 5]).shown =
          (sharing.runBlocks counting m [4, 5, 4, 5]).shown ∧
        (q.runBlocks counting m [4, 5, 4, 5]).env =
          (sharing.runBlocks counting m [4, 5, 4, 5]).env := by
  have hknown : sharing.KnowsDefinitions := by
    have h0 : sharing.symbols.Knows 0 := ⟨⟨.temporary, .var, .program⟩, rfl⟩
    have h1 : sharing.symbols.Knows 1 := ⟨⟨.temporary, .var, .program⟩, rfl⟩
    intro n hn v hv i hi x hx
    have hn : n ∈ [(4 : NodeId), 5] := hn
    rcases List.mem_pair.mp hn with rfl | rfl <;> cases hv <;>
      rcases List.mem_pair.mp hi with rfl | rfl <;> cases hx <;> assumption
  have hreads : counting.KeptByReads := by
    intro a ws n ha
    simp [counting, ha]
  have hblocks : ∀ n ∈ [4, 5, 4, 5], n ∈ sharing.blocks := by decide
  have hcount : (sharing.removeDead.map (·.1)).toOption = some 2 := by decide +kernel
  obtain ⟨k, q, hq, -, -, hrun⟩ := removeDead_preserves hknown
  have hk : k = 2 := by
    rw [hq] at hcount
    exact Option.some.inj hcount
  subst hk
  refine ⟨hknown, hreads, hblocks, q, hq, fun m => ?_⟩
  have hpreserved := hrun counting hreads m [4, 5, 4, 5] hblocks
  exact ⟨hpreserved.1, hpreserved.2.1⟩

end Program

end EvmFlow
