import EvmFlow.Proofs.BasicBlocks
import EvmFlow.Proofs.LiftedSimulation
import EvmFlow.Proofs.TypeHints

/-!
# Types are lost where slots wrap around

A block that reads memory where the top of the stack says, takes entries until the number of entries
taken has 33 bits and branches on the next entry has one symbol for the index and for the condition:
the slot of the condition is that of the index. Type propagation makes the index a pointer at first
and a truth value in the end.

* `LiftedStack.Draws`: what taking entries does, and `Lifted.exists_draws_lowerCode` for logs;
* `LiftedStack.exists_index_is_condition`: the code of such a block;
* `Program.exists_first_block`: code without inner block ends is one block, which can be reached;
* **`Program.index_becomes_truth_value`**: its index after lifting.
-/

namespace EvmFlow

open Stateful

/-! ## Taking entries -/

/-- `s'` comes from `s` by taking `k` entries, and the local stack is empty. -/
structure LiftedStack.Draws (s s' : LiftedStack) (k : Nat) : Prop where
  wellFormed : s'.WellFormed
  stack : s'.stack = []
  borrows : s'.borrows = s.borrows + k
  argument : ∀ {slot x}, s.arguments.lookup slot = some x → s'.arguments.lookup slot = some x
  code : ∀ i ∈ s.out, i ∈ s'.out

namespace LiftedStack

variable {s s' s'' : LiftedStack} {k l : Nat}

theorem Draws.refl (h : s.WellFormed) (hs : s.stack = []) : s.Draws s 0 :=
  ⟨h, hs, rfl, id, fun _ => id⟩

theorem Draws.trans (h : s.Draws s' k) (h' : s'.Draws s'' l) : s.Draws s'' (k + l) where
  wellFormed := h'.wellFormed
  stack := h'.stack
  borrows := by rw [h'.borrows, h.borrows, Nat.add_assoc]
  argument ha := h'.argument (h.argument ha)
  code i hi := h'.code i (h.code i hi)

theorem Draws.emitted (h : s.Draws s' k) (i : Instruction) : s.Draws (s'.emitted i) k where
  wellFormed := h.wellFormed.emitted i
  stack := h.stack
  borrows := h.borrows
  argument := h.argument
  code j hj := Array.mem_push.mpr (.inl (h.code j hj))

end LiftedStack

namespace Lifted

variable {s s' : LiftedStack}

theorem exists_draws_pop (h : s.WellFormed) (hs : s.stack = []) :
    ∃ x s', Yields pop s x s' ∧ s.Draws s' 1 ∧ s'.out = s.out ∧
      s'.arguments.lookup (Int32.ofNat s.borrows) = some x := by
  obtain ⟨x, s', hpop, hext, hl⟩ := yields_pop_entry h hs
  have hslot := LiftedStack.slot_eq (s := s) (n := 0) (by rw [hs]; exact Nat.le_refl 0)
  rw [hs, List.length_nil, Nat.sub_zero, Nat.zero_add] at hslot
  refine ⟨x, _, hpop, ⟨hext.wellFormed.withBorrows _, hext.stack.trans hs, ?_, hext.argument, ?_⟩,
    hext.out, hslot ▸ hl⟩
  · exact congrArg (· + 1) hext.borrows
  · intro i hi
    exact hext.out ▸ hi

theorem exists_draws_popN (h : s.WellFormed) (hs : s.stack = []) (k : Nat) :
    ∃ refs s', Yields (popN k : Lifted (List SymbolRef)) s refs s' ∧ s.Draws s' k := by
  induction k generalizing s with
  | zero => exact ⟨[], s, yields_pure _ _, .refl h hs⟩
  | succ k ih =>
    obtain ⟨x, s₁, hpop, hdraws, -, -⟩ := exists_draws_pop h hs
    obtain ⟨refs, s₂, hrefs, hdraws₂⟩ := ih hdraws.wellFormed hdraws.stack
    refine ⟨x :: refs, s₂, yields_bind hpop (yields_bind hrefs (yields_pure _ _)), ?_⟩
    exact Nat.add_comm k 1 ▸ hdraws.trans hdraws₂

/-- Logs take their operands and put nothing on the stack. -/
theorem exists_draws_lowerCode {code : List Located} (hcode : ∀ i ∈ code, ∃ k, i.instr.op = .log k)
    (h : s.WellFormed) (hs : s.stack = []) :
    ∃ gaps s', Yields (lowerCode code : Lifted (List Located)) s gaps s' ∧
      s.Draws s' (code.map fun i => i.instr.op.inputs).sum := by
  induction code generalizing s with
  | nil => exact ⟨[], s, yields_pure _ _, .refl h hs⟩
  | cons i rest ih =>
    obtain ⟨⟨k, hk⟩, hrest⟩ := List.forall_mem_cons.mp hcode
    obtain ⟨refs, s₁, hrefs, hdraws⟩ := exists_draws_popN h hs (2 + k.val)
    have hinstr : Yields (lowerInstr i : Lifted Bool) s true
        (s₁.emitted (.procedure .log refs)) := by
      unfold lowerInstr
      rw [hk]
      exact yields_bind (yields_bind hrefs (yields_emit s₁ _)) (yields_pure true _)
    have hdraws₁ := hdraws.emitted (.procedure .log refs)
    obtain ⟨gaps, s₂, hlower, hdraws₂⟩ := ih hrest hdraws₁.wellFormed hdraws₁.stack
    refine ⟨_, s₂, yields_bind hinstr (yields_bind hlower (yields_pure _ _)), ?_⟩
    have hinputs : i.instr.op.inputs = 2 + k.val := by
      rw [hk]
      exact Lowering.inputs_eq (l := .procedure .log (2 + k.val)) rfl
    rw [List.map_cons, List.sum_cons, hinputs]
    exact hdraws₁.trans hdraws₂

/-- A load reads the entry on top, and a drop after it takes the result away. -/
theorem draws_of_load_drop {a b : Located} {gaps : List Located} (ha : a.instr.op = .mload)
    (hb : b.instr.op = .pop) (h : s.WellFormed) (hs : s.stack = [])
    (hyields : Yields (lowerCode [a, b] : Lifted (List Located)) s gaps s') :
    ∃ x y region, s.Draws s' 1 ∧ s'.arguments.lookup (Int32.ofNat s.borrows) = some x ∧
      .indexedCopy y region x ∈ s'.out := by
  obtain ⟨_, _, s₁, hload, hdrop⟩ := exists_of_yields_append (a := [a]) (b := [b]) hyields
  have hload := yields_lower_of_singleton (l := .load .memory) (by rw [ha]; rfl) hload
  have hdrop := yields_lower_of_singleton (l := .drop) (by rw [hb]; rfl) hdrop
  obtain ⟨x, s₂, hpop, hdraws, -, hl⟩ := exists_draws_pop h hs
  obtain ⟨y, s₃, htemp, hext, -, -, -⟩ := yields_temporary hdraws.wellFormed
  obtain ⟨region, s₄, hglobal, hext', -, -⟩ := yields_global .memory hext.wellFormed
  let s₅ : LiftedStack := s₄.emitted (.indexedCopy y region x)
  have hlower : Yields (lower a (.load .memory) : Lifted Unit) s ()
      { s₅ with stack := y :: s₅.stack, height := s₅.height + 1 } :=
    yields_bind hpop (yields_bind htemp (yields_bind hglobal
      (yields_bind (yields_emit s₄ _) (yields_push y s₅))))
  cases hload.symm.trans hlower
  cases hdrop.symm.trans (yields_drop (yields_pop_local rfl))
  have hstack : s₅.stack = [] := (hext'.stack.trans hext.stack).trans hdraws.stack
  refine ⟨x, y, region, ⟨?_, hstack, ?_, ?_, ?_⟩, hext'.argument (hext.argument hl),
    Array.mem_push_self⟩
  · have hwf := hext'.wellFormed.emitted (.indexedCopy y region x)
    exact ⟨hwf.consistent, hwf.argument, hwf.stack⟩
  · exact (hext'.borrows.trans hext.borrows).trans hdraws.borrows
  · exact fun ha => hext'.argument (hext.argument (hdraws.argument ha))
  · intro i hi
    exact Array.mem_push.mpr (.inl (hext'.out ▸ hext.out ▸ hdraws.code i hi))

/-- A conditional jump takes its target and its condition from the entries on top. -/
theorem draws_of_jumpi {j : Located} {gaps : List Located} (hj : j.instr.op = .jumpi)
    (h : s.WellFormed) (hs : s.stack = [])
    (hyields : Yields (lowerCode [j] : Lifted (List Located)) s gaps s') :
    ∃ target condition, s.Draws s' 2 ∧
      s'.arguments.lookup (Int32.ofNat s.borrows) = some target ∧
      s'.arguments.lookup (Int32.ofNat (s.borrows + 1)) = some condition ∧
      s'.out.toList = s.out.toList ++ [.condBranch condition target] := by
  have hyields := yields_lower_of_singleton (l := .jumpIf) (by rw [hj]; rfl) hyields
  obtain ⟨target, s₁, hpop, hdraws, hout, hl⟩ := exists_draws_pop h hs
  obtain ⟨condition, s₂, hpop', hdraws', hout', hl'⟩ :=
    exists_draws_pop hdraws.wellFormed hdraws.stack
  have hlower : Yields (lower j .jumpIf : Lifted Unit) s ()
      (s₂.emitted (.condBranch condition target)) :=
    yields_bind hpop (yields_bind hpop' (yields_emit s₂ _))
  cases hyields.symm.trans hlower
  refine ⟨target, condition, (hdraws.trans hdraws').emitted _, hdraws'.argument hl, ?_, ?_⟩
  · rw [← hdraws.borrows]
    exact hl'
  · rw [LiftedStack.emitted, Array.toList_push, hout', hout]

end Lifted

/-! ## One symbol for the index and the condition -/

/-- Code that reads memory where the top of the stack says, drops what it read, runs logs and
branches. -/
def readLogBranch (logs : List Instr) : List Instr :=
  [⟨.mload, []⟩, ⟨.pop, []⟩] ++ (logs ++ [⟨.jumpi, []⟩])

namespace LiftedStack

variable {t : SymbolTable}

/-- **If the logs take all but two of `2 ^ 32` entries, the branch is on the index of the load.** -/
theorem exists_index_is_condition (ht : t.Consistent) (n : NodeId) {logs : List Instr}
    (hlogs : ∀ i ∈ logs, ∃ k, i.op = .log k)
    (hsum : (logs.map fun i => i.op.inputs).sum = 2 ^ 32 - 2) {code : List Located}
    (hcode : code.map Located.instr = readLogBranch logs) :
    ∃ s x y region target before, liftAll t n code = .ok s ∧ s.symbols.IsSlot n 0 x ∧
      x ≠ target ∧ .indexedCopy y region x ∈ s.out.toList ∧
      s.out.toList = before ++ [.condBranch x target] := by
  obtain ⟨s, hs, horder⟩ := exists_inOrder ht n code
  obtain ⟨gaps, hyields⟩ := liftAll_eq_ok.mp hs
  obtain ⟨head, tail, rfl, hhead, htail⟩ := List.map_eq_append_iff.mp hcode
  obtain ⟨middle, last, rfl, hmiddle, hlast⟩ := List.map_eq_append_iff.mp htail
  obtain ⟨a, _, rfl, ha, hrest⟩ := List.map_eq_cons_iff.mp hhead
  obtain ⟨b, _, rfl, hb, hrest⟩ := List.map_eq_cons_iff.mp hrest
  obtain rfl := List.map_eq_nil_iff.mp hrest
  obtain ⟨j, _, rfl, hj, hrest⟩ := List.map_eq_cons_iff.mp hlast
  obtain rfl := List.map_eq_nil_iff.mp hrest
  have hlogs' : ∀ i ∈ middle, ∃ k, i.instr.op = .log k := by
    intro i hi
    exact hlogs i.instr (hmiddle ▸ List.mem_map_of_mem hi)
  have hsum' : (middle.map fun i => i.instr.op.inputs).sum = 2 ^ 32 - 2 := by
    rw [← hsum, ← hmiddle, List.map_map]
    rfl
  obtain ⟨_, _, s₁, hload, hyields⟩ := Lifted.exists_of_yields_append hyields
  obtain ⟨_, _, s₂, hdraw, hjump⟩ := Lifted.exists_of_yields_append hyields
  obtain ⟨x, y, region, hdraws₁, hx, hmem⟩ := Lifted.draws_of_load_drop (congrArg Instr.op ha)
    (congrArg Instr.op hb) (inOrder_start ht n).wellFormed rfl hload
  obtain ⟨_, _, hdraw', hdraws₂⟩ :=
    Lifted.exists_draws_lowerCode hlogs' hdraws₁.wellFormed hdraws₁.stack
  cases hdraw.symm.trans hdraw'
  obtain ⟨target, condition, hdraws₃, htarget, hcondition, hout⟩ :=
    Lifted.draws_of_jumpi (congrArg Instr.op hj) hdraws₂.wellFormed hdraws₂.stack hjump
  have hborrows : s₂.borrows = 2 ^ 32 - 1 := by
    have hstart : s₁.borrows = 1 := hdraws₁.borrows
    rw [hdraws₂.borrows, hstart, hsum']
    omega
  -- The slot of the condition has wrapped around to that of the index.
  have hx' : s.arguments.lookup (Int32.ofNat 0) = some x :=
    hdraws₃.argument (hdraws₂.argument hx)
  have hwrap : Int32.ofNat (2 ^ 32 - 1 + 1) = Int32.ofNat 0 := by decide
  rw [hborrows] at htarget hcondition
  rw [hwrap] at hcondition
  obtain rfl : x = condition := Option.some.inj (hx'.symm.trans hcondition)
  have hslot : s.symbols.IsSlot n 0 x := horder.node ▸ horder.wellFormed.argument hx'
  refine ⟨s, x, y, region, target, _, hs, hslot, ?_, ?_, hout⟩
  · rintro rfl
    have hne := hslot.slot_unique (horder.wellFormed.argument htarget)
    exact absurd hne (by decide)
  · exact Array.mem_toList_iff.mpr (hdraws₃.code _ (hdraws₂.code _ hmem))

end LiftedStack

/-! ## Code that is one block -/

theorem Splits.eq_of_start_zero {instrs : List Instr} {spans : List Span} {s : Span}
    (h : Splits instrs 0 spans) (hinner : ∀ j, 0 < j → j < instrs.length → ¬ Begins instrs j)
    (hs : s ∈ spans) (hstart : s.start = 0) : s = ⟨0, instrs.length⟩ := by
  cases h with
  | last => exact List.mem_singleton.mp hs
  | @cons _ e rest lt _ begins hrest =>
    have he : e = instrs.length := by
      by_contra hne
      exact hinner e lt (Nat.lt_of_le_of_ne begins.le hne) begins
    rcases List.mem_cons.mp hs with rfl | hs
    · rw [he]
      rfl
    · -- No range behind the first one begins at the first instruction.
      rcases (hrest.exists_start_iff 0).mp ⟨s, hs, hstart⟩ with heq | ⟨hlt, -⟩ <;> omega

namespace Program

variable {q : Program}

/-- Code without inner block ends is one block, which can be reached from the start. -/
theorem exists_first_block {instrs : List Instr}
    (hinner : ∀ j, 0 < j → j < instrs.length → ¬ Begins instrs j) (h : Steps (ofInstrs instrs) q) :
    ∃ found n, q.reachable = .ok found ∧ n ∈ found ∧ q.isSentinel n = false ∧
      q.opcodes n = .ok (locate 0 instrs) := by
  have hregular := h.regular (regular_ofInstrs instrs)
  have hgraph := hregular.sound.graph.forward
  obtain ⟨n, hedges, ⟨b, hb, hreal, hstart⟩, -⟩ := hregular.framed.start
  obtain ⟨found, hfound⟩ := hregular.sound.exists_reachable
  obtain ⟨hmem, hclosed⟩ := hgraph.dfs_closed hfound
  have hlink : q.graph.Links q.sentinels.start n .static :=
    hgraph.links_iff.mpr (hgraph.mem_edgesFrom.mp (hedges ▸ List.mem_singleton_self _)).2
  refine ⟨found, n, hfound, hclosed _ hmem hlink, hreal, ?_⟩
  obtain ⟨hn, span, hspan, hspan'⟩ :=
    h.keepsSpans n (mem_blocks.mpr ⟨Graph.contains_iff_label?.mpr ⟨b, hb⟩, hreal⟩)
  obtain ⟨b', hb', rfl⟩ := span_eq_ok.mp hspan'
  cases hb.symm.trans hb'
  obtain ⟨spans, hspans, hsplits⟩ := splits_ofInstrs instrs
  obtain ⟨_, hin, heq⟩ := exists_mem_of_mapM hspans hn
  cases hspan.symm.trans heq
  have hwhole := hsplits.eq_of_start_zero hinner hin hstart
  refine (opcodes_eq_ok hb).mpr ⟨(hregular.sound.verified.block n b hb hreal).span, ?_⟩
  have hcode : q.code = (locate 0 instrs).toArray :=
    h.code.trans (tracks_ofInstrs instrs).instrs
  rw [slice, hwhole, hcode, ← length_locate 0 instrs]
  simp

theorem not_begins_readLogBranch {logs : List Instr} (hlogs : ∀ i ∈ logs, ∃ k, i.op = .log k)
    {j : Nat} (hpos : 0 < j) (hlt : j < (readLogBranch logs).length) :
    ¬ Begins (readLogBranch logs) j := by
  have hplain : ∀ i ∈ [⟨.mload, []⟩, ⟨.pop, []⟩] ++ logs, i.op ≠ .jumpdest ∧
      i.op.isBlockEnd = false := by
    intro i hi
    rcases List.mem_append.mp hi with hi | hi
    · rcases List.mem_pair.mp hi with rfl | rfl <;> exact ⟨by simp, rfl⟩
    · obtain ⟨k, hk⟩ := hlogs i hi
      rw [hk]
      exact ⟨by simp, rfl⟩
  have hcode : readLogBranch logs = ([⟨.mload, []⟩, ⟨.pop, []⟩] ++ logs) ++ [⟨.jumpi, []⟩] := by
    rw [readLogBranch, List.append_assoc]
  rw [hcode] at hlt ⊢
  rw [List.length_append, List.length_singleton] at hlt
  rintro (rfl | ⟨x, hx, hop⟩ | ⟨i, x, rfl, hx, hop⟩)
  · exact absurd hpos (Nat.lt_irrefl 0)
  · rcases List.mem_append.mp (List.mem_of_getElem? hx) with hx | hx
    · exact (hplain x hx).1 hop
    · rw [List.mem_singleton.mp hx] at hop
      cases hop
  · rw [List.getElem?_append_left (by omega)] at hx
    rw [(hplain x (List.mem_of_getElem? hx)).2] at hop
    cases hop

/-- A symbol of the block that the last branch asks to be a truth value is one. -/
theorem NarrowedAt.type?_of_condition {n : NodeId} {before : List Instruction} {t t' : SymbolTable}
    {x target : SymbolRef} {slot : Int32}
    (h : NarrowedAt n (before ++ [.condBranch x target]) t t') (hx : t.IsSlot n slot x)
    (hne : x ≠ target) : t'.type? x = some .bool := by
  obtain ⟨v, v', hv, -, hfold, -, hagrees⟩ := h
  rw [List.foldlM_append] at hfold
  obtain ⟨w, hw, hlast⟩ := bind_eq_ok.mp hfold
  obtain ⟨w', hnarrow, hlast⟩ := bind_eq_ok.mp hlast
  cases hlast
  have hslot : w.IsSlot n slot x :=
    ((hv.trans (retypes_of_foldlM_narrow hw)).identity? x).trans hx
  have hslot' : v'.IsSlot n slot x := ((retypes_of_narrow hnarrow).identity? x).trans hslot
  rw [SymbolTable.type?_congr (hagrees fun _ => SymbolTable.scope_of_identity? hslot')]
  exact SymbolTable.type?_of_narrow_condition hnarrow hslot.isVariable hne

/-- **The index of the load is a truth value in the end**, and neither a constant nor a pointer,
though its block can be reached and is lifted. -/
theorem index_becomes_truth_value {logs : List Instr} (hlogs : ∀ i ∈ logs, ∃ k, i.op = .log k)
    (hsum : (logs.map fun i => i.op.inputs).sum = 2 ^ 32 - 2) :
    ∃ p q found n b x y region, build (readLogBranch logs) = .ok p ∧ p.run .lift = .ok q ∧
      q.reachable = .ok found ∧ n ∈ found ∧ q.block n = .ok b ∧ b.lifted = true ∧
      .indexedCopy y region x ∈ b.instructions ∧ q.symbols.type? x = some .bool ∧
      ¬ q.symbols.Typed x .pointer := by
  obtain ⟨p, hp, hsteps⟩ := exists_steps_build (readLogBranch logs)
  have hhinted := hinted_of_build hp
  obtain ⟨q, u, lifted, hq, hlifts⟩ := hhinted.regular.exists_liftsWith hhinted.tidy
  obtain ⟨found, n, hfound, hn, hreal, hops⟩ := exists_first_block
    (fun _ hpos hlt => not_begins_readLogBranch hlogs hpos hlt) (hsteps.trans hlifts.steps)
  have hsound := hlifts.steps.sound hhinted.regular.sound
  obtain ⟨b, hb⟩ := Graph.contains_iff_label?.mp (hsound.contains_of_reachable hfound hn)
  obtain ⟨found₀, hfound₀⟩ := hhinted.regular.sound.exists_reachable
  have hdone := hlifts.done hfound₀ n (hlifts.reachable hfound₀ hfound n hn)
    ((hlifts.steps.isSentinel n).symm.trans hreal) b hb
  have hmem : n ∈ lifted := by
    by_contra hnot
    rw [(hlifts.other n hnot).1] at hb
    cases ((filled_of_build hp).lifted_eq_false hb).symm.trans hdone
  obtain ⟨t, ops, s, b', ht, hops', hs, hsu, hb'⟩ := hlifts.code n hmem
  cases (hlifts.steps.opcodes_before hops).symm.trans hops'
  obtain ⟨s', x, y, region, target, before, hs', hslot, hne, hload, hout⟩ :=
    LiftedStack.exists_index_is_condition (ht.consistent hhinted.regular.sound.symbols) n hlogs
      hsum (map_instr_locate 0 _)
  cases hs.symm.trans hs'
  have hnarrowed := hlifts.narrowed hfound n hmem hn b hb
  cases hb.symm.trans hb'
  have hslot' : u.IsSlot n 0 x := hsu.grows.identity hslot
  have hbool : q.symbols.type? x = some .bool :=
    NarrowedAt.type?_of_condition (hout ▸ hnarrowed) hslot' hne
  refine ⟨p, q, found, n, _, x, y, region, hp, hq, hfound, hn, Graph.label_eq_ok.mpr hb, rfl, hload,
    hbool, ?_⟩
  rintro (⟨w, hconst⟩ | hpointer)
  · have hslotq : q.symbols.IsSlot n 0 x := (hlifts.retypes.identity? x).trans hslot'
    exact hslotq.not_isConstant hconst
  · cases hbool.symm.trans hpointer

end Program

end EvmFlow
