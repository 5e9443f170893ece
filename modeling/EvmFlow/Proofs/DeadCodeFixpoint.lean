import EvmFlow.Proofs.PassSuccess

/-!
# Dead code elimination leaves no dead code

The last sweep removes nothing, so no instruction is dead with the counts it ends with, which are
the numbers of reads. There is always such a sweep, since each one before it removes an instruction.
And all blocks that are left can be reached, since a path to a block leads through blocks that stay.

* `Sweep.Idle`, `Sweep.foldlM_idle`: sweeps that remove nothing;
* `Program.Swept`: no code computes what nobody reads (`Program.swept_of_removeDead`), so that
  nothing is removed (`Program.Swept.removeDead`);
* `Program.Connected`: the same for blocks;
* **`Program.clean_of_eliminateDeadCode`**, **`Program.Clean.eliminateDeadCode`**: the two together.
-/

namespace EvmFlow

variable {t : SymbolTable} {d d' : Demand} {code kept : List Instruction}

/-! ## Sweeps that remove nothing -/

theorem isDead_of_isTemporary {i : Instruction} {x : SymbolRef} (hx : i.definition? = some x)
    (hzero : d.of x = 0) (htmp : t.IsTemporary x) (hpure : i.isPure = true) :
    isDead t d i = .ok true := by
  obtain ⟨sc, hid⟩ := htmp
  obtain ⟨s, hs, haddress, hkind⟩ := SymbolTable.exists_symbol_of_identity? hid
  have htemporary : s.isTemporary = true := by simp [Symbol.isTemporary, haddress, hkind]
  unfold isDead
  rw [hx]
  dsimp only
  rw [if_neg (by omega), hs, hpure]
  exact congrArg Except.ok (Bool.and_eq_true_iff.mpr ⟨htemporary, rfl⟩)

theorem length_le_of_sweepInstructions (h : sweepInstructions t d code = .ok (kept, d')) :
    kept.length ≤ code.length := by
  induction code generalizing d kept with
  | nil =>
    cases h
    exact Nat.le_refl _
  | cons i rest ih =>
    obtain ⟨dead, -, h⟩ := bind_eq_ok.mp h
    cases dead with
    | true => exact Nat.le_succ_of_le (ih h)
    | false =>
      obtain ⟨r, hr, h⟩ := bind_eq_ok.mp h
      cases h
      exact Nat.succ_le_succ (ih hr)

/-- If nothing is removed, the counts stay, and nothing is dead. -/
theorem sweepInstructions_idle (h : sweepInstructions t d code = .ok (kept, d'))
    (hlength : code.length ≤ kept.length) :
    kept = code ∧ d' = d ∧ ∀ i ∈ code, isDead t d i = .ok false := by
  induction code generalizing d kept with
  | nil =>
    cases h
    exact ⟨rfl, rfl, fun i hi => by cases hi⟩
  | cons i rest ih =>
    obtain ⟨dead, hdead, h⟩ := bind_eq_ok.mp h
    cases dead with
    | true =>
      have hless := length_le_of_sweepInstructions h
      rw [List.length_cons] at hlength
      omega
    | false =>
      obtain ⟨⟨kept', d₁⟩, hr, h⟩ := bind_eq_ok.mp h
      cases h
      obtain ⟨rfl, rfl, hrest⟩ := ih hr (Nat.le_of_succ_le_succ hlength)
      exact ⟨rfl, rfl, List.forall_mem_cons.mpr ⟨hdead, hrest⟩⟩

theorem sweepInstructions_of_live (h : ∀ i ∈ code, isDead t d i = .ok false) :
    sweepInstructions t d code = .ok (code, d) := by
  induction code with
  | nil => rfl
  | cons i rest ih =>
    obtain ⟨hi, hrest⟩ := List.forall_mem_cons.mp h
    unfold sweepInstructions
    rw [hi]
    exact bind_eq_ok.mpr ⟨false, rfl, bind_eq_ok.mpr ⟨_, ih hrest, rfl⟩⟩

namespace Sweep

variable {p : Program} {s s' : Sweep} {n : NodeId} {nodes : List NodeId}

/-- Nothing in the block at a node is dead. -/
def Idle (s : Sweep) (n : NodeId) : Prop :=
  ∀ b, s.program.graph.label? n = some b → ∀ i ∈ b.instructions,
    isDead s.program.symbols s.demand i = .ok false

theorem removed_le_of_block (h : s.block n = .ok s') : s.removed ≤ s'.removed := by
  obtain ⟨b, -, h⟩ := bind_eq_ok.mp h
  obtain ⟨r, -, h⟩ := bind_eq_ok.mp h
  cases h
  exact Nat.le_add_right _ _

theorem removed_le_of_foldlM (h : nodes.foldlM Sweep.block s = .ok s') :
    s.removed ≤ s'.removed :=
  foldlM_ok (P := fun r => s.removed ≤ r.removed)
    (fun _ _ _ _ hle hblock => Nat.le_trans hle (removed_le_of_block hblock)) (Nat.le_refl _) h

theorem block_of_idle (hn : s.program.graph.contains n = true) (h : s.Idle n) :
    s.block n = .ok s := by
  obtain ⟨b, hb⟩ := Graph.contains_iff_label?.mp hn
  refine bind_eq_ok.mpr ⟨b, Graph.label_eq_ok.mpr hb, bind_eq_ok.mpr
    ⟨_, sweepInstructions_of_live (h b hb), ?_⟩⟩
  have hprogram : s.program.modifyBlock n (fun c => { c with instructions := b.instructions }) =
      s.program := by
    have hgraph := s.program.graph.modifyLabel_eq_self n
      (f := fun c => { c with instructions := b.instructions }) fun c hc => by
        obtain rfl := Option.some.inj (hb.symm.trans hc)
        rfl
    rw [Program.modifyBlock, hgraph]
  dsimp only
  rw [hprogram, Nat.sub_self]
  rfl

theorem block_idle (h : s.block n = .ok s') (hsame : s'.removed = s.removed) :
    s' = s ∧ s.Idle n := by
  obtain ⟨b, hb, hrest⟩ := bind_eq_ok.mp h
  obtain ⟨⟨kept, d⟩, hsweep, hrest⟩ := bind_eq_ok.mp hrest
  cases hrest
  have hless : b.instructions.length ≤ kept.length := by
    have hzero : s.removed + (b.instructions.length - kept.length) = s.removed := hsame
    omega
  obtain ⟨-, -, hlive⟩ := sweepInstructions_idle hsweep hless
  have hlabel := Graph.label_eq_ok.mp hb
  have hidle : s.Idle n := fun c hc => by
    obtain rfl := Option.some.inj (hlabel.symm.trans hc)
    exact hlive
  rw [block_of_idle (Graph.contains_iff_label?.mpr ⟨b, hlabel⟩) hidle] at h
  exact ⟨(Except.ok.inj h).symm, hidle⟩

theorem foldlM_of_idle (hnodes : ∀ n ∈ nodes, s.program.graph.contains n = true)
    (h : ∀ n ∈ nodes, s.Idle n) : nodes.foldlM Sweep.block s = .ok s := by
  induction nodes with
  | nil => rfl
  | cons n rest ih =>
    obtain ⟨hn, hrest⟩ := List.forall_mem_cons.mp hnodes
    obtain ⟨hidle, hidles⟩ := List.forall_mem_cons.mp h
    rw [List.foldlM_cons, block_of_idle hn hidle]
    exact ih hrest hidles

/-- A sweep over blocks that removes nothing finds nothing dead, and the state stays. -/
theorem foldlM_idle (h : nodes.foldlM Sweep.block s = .ok s') (hsame : s'.removed = s.removed) :
    s' = s ∧ ∀ n ∈ nodes, s.Idle n := by
  induction nodes with
  | nil =>
    cases h
    exact ⟨rfl, fun n hn => by cases hn⟩
  | cons n rest ih =>
    rw [List.foldlM_cons] at h
    obtain ⟨s₁, hblock, hrest⟩ := bind_eq_ok.mp h
    have hle := removed_le_of_block hblock
    have hle' := removed_le_of_foldlM hrest
    obtain ⟨rfl, hidle⟩ := block_idle hblock (by omega)
    obtain ⟨heq, hidles⟩ := ih hrest
    exact ⟨heq, List.forall_mem_cons.mpr ⟨hidle, hidles⟩⟩

/-- With more sweeps to come than instructions are left, there is a sweep that removes nothing. -/
theorem Sound.repeat_idle {sweeps : Nat} (h : Sound p s)
    (hs : Sweep.repeat p.blocks sweeps s = .ok s')
    (henough : p.total (·.instructions.length) < sweeps + s.removed) :
    ∀ n ∈ p.blocks, s'.Idle n := by
  induction sweeps generalizing s with
  | zero =>
    have hremoved := h.removed
    omega
  | succ sweeps ih =>
    obtain ⟨s₁, hs₁, hs⟩ := bind_eq_ok.mp hs
    have h₁ := foldlM_ok (fun n hn _ _ hs h => hs.block hn h) h hs₁
    split at hs
    · next hsame =>
      cases hs
      obtain ⟨rfl, hidle⟩ := foldlM_idle hs₁ hsame
      exact hidle
    · next hmore =>
      have hle := removed_le_of_foldlM hs₁
      exact ih h₁ hs (by omega)

end Sweep

namespace Program

variable {p q : Program}

/-! ## Dead instructions -/

/-- No code of a block computes a temporary that no block reads. -/
def Swept (p : Program) : Prop :=
  ∀ n b, p.graph.label? n = some b → p.isSentinel n = false → ∀ i ∈ b.instructions,
    ∀ x, i.isPure = true → i.definition? = some x → ¬ p.Dead x

theorem foldl_length (blocks : List BasicBlock) (k : Nat) :
    blocks.foldl (fun k b => k + b.instructions.length) k =
      k + (blocks.map (·.instructions.length)).sum := by
  induction blocks generalizing k with
  | nil => rfl
  | cons b blocks ih =>
    rw [List.foldl_cons, ih, List.map_cons, List.sum_cons]
    omega

/-- **No dead instruction is left.** -/
theorem swept_of_removeDead {k : Nat} (h : p.removeDead = .ok (k, q)) : q.Swept := by
  obtain ⟨s, hs, h⟩ := bind_eq_ok.mp h
  cases h
  have hsound := p.sound_start.repeat hs
  have hidle := p.sound_start.repeat_idle hs (by
    rw [foldl_length, sum_blocksAt, total]
    omega)
  intro n b hb hreal i hi x hpure hx hdead
  have hn : n ∈ p.blocks := by
    rw [← hsound.trimmed.blocks]
    exact mem_blocks.mpr ⟨Graph.contains_iff_label?.mpr ⟨b, hb⟩, hreal⟩
  have hlive := hidle n hn b hb i hi
  rw [isDead_of_isTemporary hx ((hsound.counted x).trans hdead.2) hdead.1 hpure] at hlive
  cases hlive

/-- Without dead instructions, there is nothing to remove. -/
theorem Swept.removeDead (h : p.Swept) (hp : p.KnowsDefinitions) : p.removeDead = .ok (0, p) := by
  let s : Sweep := ⟨p, (p.blocksAt p.blocks).foldl Demand.addBlock {}, 0⟩
  have hidle : ∀ n ∈ p.blocks, s.Idle n := by
    intro n hn b hb i hi
    obtain ⟨v, hv, rfl⟩ := Graph.node?_of_label (Graph.label_eq_ok.mpr hb)
    obtain ⟨dead, hdead⟩ := exists_isDead s.demand (hp n hn v hv i hi)
    cases dead with
    | false => exact hdead
    | true =>
      obtain ⟨x, hx, hzero, htmp, hpure⟩ := of_isDead hdead
      exact absurd ⟨htmp, (p.sound_start.counted x).symm.trans hzero⟩
        (h n _ hb (mem_blocks.mp hn).2 i hi x hpure hx)
  have hsweep : p.blocks.foldlM Sweep.block s = .ok s :=
    Sweep.foldlM_of_idle (fun n hn => (mem_blocks.mp hn).1) hidle
  refine bind_eq_ok.mpr ⟨s, ?_, rfl⟩
  unfold Sweep.repeat
  exact bind_eq_ok.mpr ⟨s, hsweep, if_pos rfl⟩

/-! ## Unreachable blocks -/

/-- All blocks can be reached. -/
def Connected (p : Program) : Prop :=
  ∃ found, p.reachable = .ok found ∧
    ∀ n, p.graph.contains n = true → p.isSentinel n = true ∨ n ∈ found

section Reachable

variable {found found' : List NodeId}

/-- Edges of `p` between what can be reached in `q` make no more nodes reachable. -/
theorem reachable_subset_of_closed (hp : p.graph.WellFormed) (hq : q.graph.WellFormed)
    (hsentinels : q.sentinels = p.sentinels) (hfound : p.reachable = .ok found)
    (hfound' : q.reachable = .ok found')
    (hclosed : ∀ n ∈ found', n ∈ found → ∀ {m branch}, p.graph.Links n m branch → m ∈ found') :
    ∀ n ∈ found, n ∈ found' := by
  obtain ⟨hstart, hstays⟩ := hp.dfs_closed hfound
  have hstart' : p.sentinels.start ∈ found' := by
    rw [← hsentinels]
    exact (hq.dfs_closed hfound').1
  intro n hn
  exact (hp.dfs_least hfound (S := fun n => n ∈ found' ∧ n ∈ found) ⟨hstart', hstart⟩
    (fun n hn m branch hlink => ⟨hclosed n hn.1 hn.2 hlink, hstays n hn.2 hlink⟩) n hn).1

/-- What can be reached by edges of one program can be reached in another that has those edges. -/
theorem reachable_subset (hp : p.graph.WellFormed) (hq : q.graph.WellFormed)
    (hsentinels : q.sentinels = p.sentinels) (hfound : p.reachable = .ok found)
    (hfound' : q.reachable = .ok found')
    (hlinks : ∀ n ∈ found, ∀ {m branch}, p.graph.Links n m branch → q.graph.Links n m branch) :
    ∀ n ∈ found, n ∈ found' :=
  reachable_subset_of_closed hp hq hsentinels hfound hfound' fun n hn hn' _ _ hlink =>
    (hq.dfs_closed hfound').2 n hn (hlinks n hn' hlink)

end Reachable

theorem Connected.removeUnreachable (h : p.Connected) : p.removeUnreachable = .ok ([], p) := by
  obtain ⟨found, hfound, hall⟩ := h
  refine bind_eq_ok.mpr ⟨found, hfound, ?_⟩
  have hkeep : ∀ n, p.graph.contains n = true →
      (p.isSentinel n || (Std.TreeSet.ofList found : NodeSet).contains n) = true := by
    intro n hn
    rw [Std.TreeSet.contains_ofList]
    simpa using hall n hn
  have hnone := Graph.refused_eq_nil hkeep
  dsimp only
  rw [Graph.apply_retainNodes, Graph.retain_of_refused_eq_nil hnone, hnone]
  rfl

/-- **No block is left that cannot be reached.** -/
theorem connected_of_removeUnreachable (hp : p.Sound) {removed : List NodeId}
    (h : p.removeUnreachable = .ok (removed, q)) : q.Connected := by
  obtain ⟨found, hfound, -, hretained⟩ := exists_retained hp.graph.forward h
  have hq : q.Sound := Step.sound (.drop hfound hretained) hp
  obtain ⟨found', hfound'⟩ := hq.exists_reachable
  have hsub := reachable_subset hp.graph.forward hq.graph.forward hretained.sentinels hfound hfound'
    fun n hn _ _ hlink => hretained.links hp.graph hn hlink
  refine ⟨found', hfound', fun n hn => ?_⟩
  obtain ⟨b, hb⟩ := Graph.contains_iff_label?.mp hn
  cases hreal : p.isSentinel n with
  | true => exact .inl ((hretained.isSentinel n).trans hreal)
  | false => exact .inr (hsub n (hretained.mem_of_label? hb hreal).1)

theorem Trimmed.links (h : p.Trimmed q) (hp : p.graph.WellFormed) (hq : q.graph.WellFormed)
    {n m : NodeId} {branch : Branch} : q.graph.Links n m branch ↔ p.graph.Links n m branch := by
  rw [hp.links_iff, hq.links_iff]
  simp only [h.edge?]

theorem Connected.trimmed (h : p.Connected) (hp : p.Sound) (hq : p.Trimmed q) : q.Connected := by
  obtain ⟨found, hfound, hall⟩ := h
  have hsound : q.Sound := Step.sound (.trim hq) hp
  obtain ⟨found', hfound'⟩ := hsound.exists_reachable
  have hsub := reachable_subset hp.graph.forward hsound.graph.forward hq.sentinels hfound hfound'
    fun n _ _ _ hlink => (hq.links hp.graph.forward hsound.graph.forward).mpr hlink
  refine ⟨found', hfound', fun n hn => ?_⟩
  rw [hq.contains] at hn
  rw [isSentinel_congr hq.sentinels]
  exact (hall n hn).imp_right (hsub n)

/-! ## The pass -/

/-- There is no dead code. -/
structure Clean (p : Program) : Prop where
  connected : p.Connected
  swept : p.Swept

theorem clean_of_eliminateDeadCode (hp : p.Sound) {changes : Int}
    (h : p.eliminateDeadCode = .ok (changes, q)) : q.Clean := by
  obtain ⟨_, _, r, found, hr, hq, hfound, hretained, htrimmed⟩ :=
    exists_of_eliminateDeadCode hp.graph.forward h
  have hsound : r.Sound := Step.sound (.drop hfound hretained) hp
  exact ⟨(connected_of_removeUnreachable hp hr).trimmed hsound htrimmed, swept_of_removeDead hq⟩

/-- Where there is no dead code, eliminating it changes nothing. -/
theorem Clean.eliminateDeadCode (h : p.Clean) (hp : p.Sound) :
    p.eliminateDeadCode = .ok (0, p) :=
  bind_eq_ok.mpr ⟨_, h.connected.removeUnreachable, bind_eq_ok.mpr
    ⟨_, h.swept.removeDead hp.knowsDefinitions, rfl⟩⟩

end Program

end EvmFlow
