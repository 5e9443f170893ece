import EvmFlow.Proofs.BlockDiscipline
import EvmFlow.Proofs.DeadCodeFixpoint

/-!
# Dead code elimination keeps what is needed, and nothing else

What an instruction computes is needed if it is left on the stack, or if an instruction that is
needed reads it; and an instruction that does more than compute a temporary is needed by itself. The
sweeps remove what nobody reads, over and over. This could stop short of what is not needed, where
instructions read each other's results in a circle. There is no circle in the code of a program: a
temporary is assigned once, before it is read, and within one block.

* `Instruction.Removable`: an instruction that only computes a temporary;
* `Program.InstructionAt`, `Program.Generated`, `Program.Needed`: the instructions of a program by
  their places, what blocks leave on the stack, and the least set of places that is needed;
* `Picked`, `Pruned.exists_picked`: what is left of code, by its places;
* `Orderly.lt_of_uses`: code in order reads temporaries behind their assignment;
* `Program.Survivors`: the places that the sweeps leave, which are needed
  (`Program.Survivors.needed`) and all that are needed (`Program.Survivors.mem_of_needed`);
* **`Program.removeDead_keeps_needed`**: this holds after all passes.
-/

namespace EvmFlow

/-! ## Needed instructions -/

/-- An instruction that does nothing but compute a temporary: it assigns one, and calls no function
that is not pure. -/
def Instruction.Removable (t : SymbolTable) (i : Instruction) : Prop :=
  (∃ x, i.definition? = some x ∧ t.IsTemporary x) ∧
    ∀ g x parameters, i = .function g x parameters → g.isPure = true

theorem Instruction.removable_iff {t : SymbolTable} {i : Instruction} :
    i.Removable t ↔ i.isPure = true ∧ ∃ x, i.definition? = some x ∧ t.IsTemporary x := by
  rw [Removable, and_comm]
  refine and_congr_left ?_
  rintro ⟨x, hx, -⟩
  cases i <;> simp [definition?, isPure] at hx ⊢

namespace Program

/-- The instruction at place `k` in the code of a block. -/
def InstructionAt (p : Program) (n : NodeId) (k : Nat) (i : Instruction) : Prop :=
  n ∈ p.blocks ∧ (p.codeAt n)[k]? = some i

/-- A symbol that a block leaves on the stack. -/
def Generated (p : Program) (x : SymbolRef) : Prop :=
  ∃ n ∈ p.blocks, ∃ b, p.graph.label? n = some b ∧ x ∈ b.stackInfo.generates

/-- The places whose instructions are needed. -/
inductive Needed (p : Program) : (n : NodeId) → (k : Nat) → Prop
  | irremovable {n : NodeId} {k : Nat} {i : Instruction} : p.InstructionAt n k i →
      ¬ i.Removable p.symbols → Needed p n k
  | generated {n : NodeId} {k : Nat} {i : Instruction} {x : SymbolRef} : p.InstructionAt n k i →
      i.definition? = some x → p.Generated x → Needed p n k
  | used {n m : NodeId} {k l : Nat} {i j : Instruction} {x : SymbolRef} : p.InstructionAt n k i →
      i.definition? = some x → p.symbols.IsTemporary x → p.InstructionAt m l j → x ∈ j.uses →
      Needed p m l → Needed p n k

end Program

/-! ## Places -/

/-- `kept` are the instructions of `code` at the given places, in their order. -/
structure Picked (code : List Instruction) (places : List Nat) (kept : List Instruction) :
    Prop where
  ascending : places.Pairwise (· < ·)
  picks : places.map (code[·]?) = kept.map some

namespace Picked

variable {code kept : List Instruction} {places : List Nat}

/-- An instruction in front moves all places. -/
theorem skip (h : Picked code places kept) (i : Instruction) :
    Picked (i :: code) (places.map (· + 1)) kept where
  ascending := h.ascending.map _ fun _ _ hlt => Nat.succ_lt_succ hlt
  picks := by
    rw [← h.picks, List.map_map]
    rfl

theorem cons (h : Picked code places kept) (i : Instruction) :
    Picked (i :: code) (0 :: places.map (· + 1)) (i :: kept) where
  ascending := by
    refine List.pairwise_cons.mpr ⟨fun k hk => ?_, (h.skip i).ascending⟩
    obtain ⟨l, -, rfl⟩ := List.mem_map.mp hk
    exact Nat.succ_pos l
  picks := congrArg (some i :: ·) (h.skip i).picks

theorem exists_of_mem (h : Picked code places kept) {k : Nat} (hk : k ∈ places) :
    ∃ i ∈ kept, code[k]? = some i := by
  have hmem : code[k]? ∈ places.map (code[·]?) := List.mem_map.mpr ⟨k, hk, rfl⟩
  rw [h.picks] at hmem
  obtain ⟨i, hi, heq⟩ := List.mem_map.mp hmem
  exact ⟨i, hi, heq.symm⟩

theorem exists_place (h : Picked code places kept) {i : Instruction} (hi : i ∈ kept) :
    ∃ k ∈ places, code[k]? = some i := by
  have hmem : some i ∈ kept.map some := List.mem_map.mpr ⟨i, hi, rfl⟩
  rw [← h.picks] at hmem
  exact List.mem_map.mp hmem

end Picked

/-- Pruned code is made of places, and what stands at the others is dead. -/
theorem Pruned.exists_picked {dead : SymbolRef → Prop} {code kept : List Instruction}
    (h : Pruned dead code kept) : ∃ places, Picked code places kept ∧
      ∀ k i, code[k]? = some i → k ∉ places →
        i.isPure = true ∧ ∃ x, i.definition? = some x ∧ dead x := by
  induction h with
  | nil => exact ⟨[], ⟨.nil, rfl⟩, fun k i hi => by simp at hi⟩
  | keep i _ ih =>
    obtain ⟨places, hpicked, hdead⟩ := ih
    refine ⟨_, hpicked.cons i, fun k j hj hk => ?_⟩
    cases k with
    | zero => exact absurd List.mem_cons_self hk
    | succ k =>
      refine hdead k j hj fun hmem => hk ?_
      exact List.mem_cons_of_mem _ (List.mem_map.mpr ⟨k, hmem, rfl⟩)
  | @drop i x _ _ hpure hx hdeadx _ ih =>
    obtain ⟨places, hpicked, hdead⟩ := ih
    refine ⟨_, hpicked.skip i, fun k j hj hk => ?_⟩
    cases k with
    | zero =>
      obtain rfl := Option.some.inj hj
      exact ⟨hpure, x, hx, hdeadx⟩
    | succ k => exact hdead k j hj fun hmem => hk (List.mem_map.mpr ⟨k, hmem, rfl⟩)

/-- A temporary that the code of a scope may use belongs to that scope. -/
theorem SymbolTable.Has.identity?_of_isTemporary {t : SymbolTable} {sc : Scope}
    {slots : List (Int32 × SymbolRef)} {x : SymbolRef} (h : t.Has sc slots x)
    (htmp : t.IsTemporary x) : t.identity? x = some ⟨.temporary, .var, sc⟩ := by
  obtain ⟨id, hid, husable⟩ := h
  obtain ⟨sc', htmp⟩ := htmp
  obtain rfl := Option.some.inj (hid.symm.trans htmp)
  cases husable
  exact hid

/-- A temporary is read at a later place than it is assigned. -/
theorem Orderly.lt_of_uses {t : SymbolTable} {sc : Scope} {slots : List (Int32 × SymbolRef)}
    {code : List Instruction} (h : Orderly t sc slots code) {k l : Nat} {i j : Instruction}
    {x : SymbolRef} (hi : code[k]? = some i) (hx : i.definition? = some x) (htmp : t.IsTemporary x)
    (hj : code[l]? = some j) (huse : x ∈ j.uses) : k < l := by
  obtain ⟨hl, rfl⟩ := List.getElem?_eq_some_iff.mp hj
  have hsplit : code = code.take l ++ code[l] :: code.drop (l + 1) := by
    rw [List.getElem_cons_drop, List.take_append_drop]
  have hearlier := h.earlier hsplit x huse htmp
  -- A second assignment behind the reading would be one too many.
  by_contra hlater
  have hmem : i ∈ code.drop l := by
    apply List.mem_of_getElem? (i := k - l)
    rw [List.getElem?_drop, Nat.add_sub_cancel' (Nat.le_of_not_lt hlater)]
    exact hi
  have hagain : x ∈ assigned (code.drop l) := mem_assigned.mpr ⟨i, hmem, hx⟩
  have hcount : (assigned code).count x =
      (assigned (code.take l)).count x + (assigned (code.drop l)).count x := by
    rw [← List.count_append, assigned, assigned, assigned, ← List.filterMap_append,
      List.take_append_drop]
  have honce := h.once x htmp
  have hfirst := List.count_pos_iff.mpr hearlier
  have hsecond := List.count_pos_iff.mpr hagain
  omega

namespace Program

variable {p q : Program} {n m : NodeId} {k l : Nat} {i j : Instruction} {x : SymbolRef}

theorem InstructionAt.unique (h : p.InstructionAt n k i) (h' : p.InstructionAt n k j) : i = j :=
  Option.some.inj (h.2.symm.trans h'.2)

theorem exists_label?_of_mem_blocks (hn : n ∈ p.blocks) : ∃ b, p.graph.label? n = some b ∧
    p.isSentinel n = false ∧ p.codeAt n = b.instructions := by
  obtain ⟨hlive, hreal⟩ := mem_blocks.mp hn
  obtain ⟨b, hb⟩ := Graph.contains_iff_label?.mp hlive
  exact ⟨b, hb, hreal, codeAt_of_label? hb⟩

theorem Generated.not_dead (h : p.Generated x) : ¬ p.Dead x := by
  obtain ⟨n, hn, b, hb, hx⟩ := h
  exact Program.not_dead hb (mem_blocks.mp hn).2 (.inr hx)

theorem not_dead_of_uses (hn : n ∈ p.blocks) (hi : i ∈ p.codeAt n) (hx : x ∈ i.uses) :
    ¬ p.Dead x := by
  obtain ⟨b, hb, hreal, hcode⟩ := exists_label?_of_mem_blocks hn
  exact not_dead hb hreal (.inl ⟨i, hcode ▸ hi, hx⟩)

theorem AllTidy.orderly (h : p.AllTidy) (hn : n ∈ p.blocks) :
    ∃ slots, Orderly p.symbols (.block n) slots (p.codeAt n) := by
  obtain ⟨b, hb, hreal, hcode⟩ := exists_label?_of_mem_blocks hn
  rw [hcode]
  exact (h.block n b hb hreal).code

/-- A temporary that is not dead is left on the stack or read. -/
theorem exists_reader (htmp : p.symbols.IsTemporary x) (hlive : ¬ p.Dead x) :
    p.Generated x ∨ ∃ n ∈ p.blocks, ∃ i ∈ p.codeAt n, x ∈ i.uses := by
  have hpos : p.readsOf x ≠ 0 := fun hzero => hlive ⟨htmp, hzero⟩
  have hsome : ∃ n ∈ p.blocks, p.weight (reads · x) n ≠ 0 := by
    by_contra hnone
    push Not at hnone
    refine hpos (List.sum_eq_zero fun k hk => ?_)
    obtain ⟨n, hn, rfl⟩ := List.mem_map.mp hk
    exact hnone n hn
  obtain ⟨n, hn, hreads⟩ := hsome
  obtain ⟨v, hv⟩ := Graph.contains_iff.mp (mem_blocks.mp hn).1
  rw [weight_of_node? hv, reads] at hreads
  by_cases hgenerates : x ∈ v.label.stackInfo.generates
  · exact .inl ⟨n, hn, v.label, Graph.label?_of_node? hv, hgenerates⟩
  · rw [List.count_eq_zero_of_not_mem hgenerates, Nat.add_zero] at hreads
    obtain ⟨i, hi, hx⟩ := List.mem_flatMap.mp (List.count_pos_iff.mp (Nat.pos_of_ne_zero hreads))
    exact .inr ⟨n, hn, i, by rwa [codeAt_of_node? hv], hx⟩

/-- `q` is `p` with the code at the given places only, and what stands elsewhere is dead in `q`. -/
structure Survivors (p q : Program) (places : NodeId → List Nat) : Prop where
  symbols : q.symbols = p.symbols
  blocks : q.blocks = p.blocks
  generated : ∀ x, q.Generated x ↔ p.Generated x
  picked : ∀ n ∈ p.blocks, Picked (p.codeAt n) (places n) (q.codeAt n)
  dead : ∀ n k i, p.InstructionAt n k i → k ∉ places n →
    i.isPure = true ∧ ∃ x, i.definition? = some x ∧ q.Dead x

theorem Trimmed.generated (h : p.Trimmed q) (x : SymbolRef) : q.Generated x ↔ p.Generated x := by
  unfold Generated
  rw [h.blocks]
  refine exists_congr fun n => and_congr_right fun hn => ?_
  obtain ⟨v, hv⟩ := Graph.contains_iff.mp (mem_blocks.mp hn).1
  obtain ⟨kept, hv', -⟩ := h.node? n v hv
  rw [Graph.label?_of_node? hv, Graph.label?_of_node? hv']
  simp only [Option.some.injEq, exists_eq_left']

theorem Trimmed.exists_survivors (h : p.Trimmed q) : ∃ places, Survivors p q places := by
  have hblock : ∀ n ∈ p.blocks, ∃ places, Picked (p.codeAt n) places (q.codeAt n) ∧
      ∀ k i, (p.codeAt n)[k]? = some i → k ∉ places →
        i.isPure = true ∧ ∃ x, i.definition? = some x ∧ q.Dead x := by
    intro n hn
    obtain ⟨v, hv⟩ := Graph.contains_iff.mp (mem_blocks.mp hn).1
    obtain ⟨kept, hv', hpruned⟩ := h.node? n v hv
    rw [codeAt_of_node? hv, codeAt_of_node? hv']
    exact hpruned.exists_picked
  choose! places hplaces using hblock
  exact ⟨places, h.symbols, h.blocks, h.generated, fun n hn => (hplaces n hn).1,
    fun n k i hi => (hplaces n hi.1).2 k i hi.2⟩

namespace Survivors

variable {places : NodeId → List Nat}

/-- What is needed survives. -/
theorem mem_of_needed (h : Survivors p q places) (hk : p.Needed n k) : k ∈ places n := by
  induction hk with
  | irremovable hi hirremovable =>
    by_contra hgone
    obtain ⟨hpure, x, hx, hdead⟩ := h.dead _ _ _ hi hgone
    exact hirremovable (Instruction.removable_iff.mpr ⟨hpure, x, hx, h.symbols ▸ hdead.1⟩)
  | generated hi hx hgenerated =>
    by_contra hgone
    obtain ⟨-, y, hy, hdead⟩ := h.dead _ _ _ hi hgone
    obtain rfl := Option.some.inj (hx.symm.trans hy)
    exact ((h.generated _).mpr hgenerated).not_dead hdead
  | @used n m k l i j x hi hx _ hj huse _ ih =>
    by_contra hgone
    obtain ⟨-, y, hy, hdead⟩ := h.dead _ _ _ hi hgone
    obtain rfl := Option.some.inj (hx.symm.trans hy)
    obtain ⟨j', hj', heq⟩ := (h.picked m hj.1).exists_of_mem ih
    obtain rfl := hj.unique ⟨hj.1, heq⟩
    exact not_dead_of_uses (by rw [h.blocks]; exact hj.1) hj' huse hdead

/-- What survives is needed. The induction is on the code behind a place: a temporary that survives
is left on the stack, or read further behind in the same block by an instruction that survives. -/
theorem needed (h : Survivors p q places) (htidy : p.AllTidy) (hswept : q.Swept)
    (hn : n ∈ p.blocks) (hk : k ∈ places n) : p.Needed n k := by
  induction hbehind : (p.codeAt n).length - k using Nat.strongRecOn generalizing k with
  | ind behind ih =>
    obtain ⟨i, hi, hat⟩ := (h.picked n hn).exists_of_mem hk
    by_cases hremovable : i.Removable p.symbols
    · obtain ⟨hpure, x, hx, htmp⟩ := Instruction.removable_iff.mp hremovable
      have hlive : ¬ q.Dead x := by
        obtain ⟨b, hb, hreal, hcode⟩ := exists_label?_of_mem_blocks (h.blocks.symm ▸ hn)
        exact hswept n b hb hreal i (hcode ▸ hi) x hpure hx
      rcases exists_reader (h.symbols.symm ▸ htmp) hlive with hgenerated | ⟨m, hm, j, hj, huse⟩
      · exact .generated ⟨hn, hat⟩ hx ((h.generated x).mp hgenerated)
      · rw [h.blocks] at hm
        obtain ⟨l, hl, hjl⟩ := (h.picked m hm).exists_place hj
        obtain ⟨slots, hcode⟩ := htidy.orderly hn
        obtain ⟨slots', hcode'⟩ := htidy.orderly hm
        obtain rfl : n = m := by
          have hdef : x ∈ i.symbols :=
            List.mem_append_left _ (Option.mem_toList.mpr hx)
          have hid := (hcode.has i (List.mem_of_getElem? hat) x hdef).identity?_of_isTemporary htmp
          have hid' := (hcode'.has j (List.mem_of_getElem? hjl) x
            (List.mem_append_right _ huse)).identity?_of_isTemporary htmp
          rw [hid] at hid'
          cases hid'
          rfl
        have hlt := hcode.lt_of_uses hat hx htmp hjl huse
        have hbound := (List.getElem?_eq_some_iff.mp hjl).1
        exact .used ⟨hn, hat⟩ hx htmp ⟨hn, hjl⟩ huse (ih _ (by omega) hl rfl)
    · exact .irremovable ⟨hn, hat⟩ hremovable

end Survivors

/-- The number that is returned counts the instructions that are gone. -/
theorem total_of_removeDead {count : Nat} (h : p.removeDead = .ok (count, q)) :
    count + q.total (·.instructions.length) = p.total (·.instructions.length) := by
  obtain ⟨s, hs, h⟩ := bind_eq_ok.mp h
  cases h
  exact (p.sound_start.repeat hs).removed

/-- **Dead code elimination keeps exactly what is needed.** Whatever built-in passes have run on the
program of a code, the removal of dead instructions succeeds. In each block it leaves the
instructions that are needed, in their order, and it returns the number of the others. -/
theorem removeDead_keeps_needed (instrs : List Instr) : ∃ o, build instrs = .ok o ∧
    ∀ passes : List Pass, (∀ pass ∈ passes, pass = .deadCode ∨ pass = .lift) →
      ∃ p, o.runAll passes = (p, .ok ()) ∧ ∃ count q, p.removeDead = .ok (count, q) ∧
        q = { p with graph := q.graph } ∧ q.blocks = p.blocks ∧
        (∀ n ∈ p.blocks, ∃ b kept places, p.block n = .ok b ∧
          q.block n = .ok { b with instructions := kept } ∧
          Picked b.instructions places kept ∧ ∀ k, k ∈ places ↔ p.Needed n k) ∧
        count + q.total (·.instructions.length) = p.total (·.instructions.length) := by
  obtain ⟨o, ho, hruns⟩ := exists_steps_runAll instrs
  refine ⟨o, ho, fun passes hpasses => ?_⟩
  obtain ⟨p, hp, hsteps⟩ := hruns passes hpasses
  obtain ⟨hsound, htidy⟩ :=
    hsteps.induct (sound_ofInstrs instrs) (allTidy_ofInstrs instrs) AllTidy.step
  obtain ⟨count, q, hq⟩ := exists_removeDead hsound.knowsDefinitions
  have htrimmed := trimmed_of_removeDead hq
  obtain ⟨places, hsurvivors⟩ := htrimmed.exists_survivors
  refine ⟨p, hp, count, q, hq, htrimmed.others, htrimmed.blocks, fun n hn => ?_,
    total_of_removeDead hq⟩
  obtain ⟨v, hv⟩ := Graph.contains_iff.mp (mem_blocks.mp hn).1
  obtain ⟨kept, hv', -⟩ := htrimmed.node? n v hv
  have hpicked := hsurvivors.picked n hn
  rw [codeAt_of_node? hv, codeAt_of_node? hv'] at hpicked
  exact ⟨v.label, kept, places n, Graph.label_of_node? hv, Graph.label_of_node? hv', hpicked,
    fun k => ⟨hsurvivors.needed htidy (swept_of_removeDead hq) hn, hsurvivors.mem_of_needed⟩⟩

/-- The sender added to itself and dropped, a call that creates a contract, whose answer is dropped,
and the complement of the origin, which is left on the stack. -/
def wasteful : List Instr := decode [0x33, 0x33, 0x01, 0x50, 0xf0, 0x50, 0x32, 0x19]

theorem removeDead_keeps_needed_wasteful :
    (∀ pass ∈ [Pass.lift], pass = .deadCode ∨ pass = .lift) ∧
      ∃ o p q, build wasteful = .ok o ∧ o.runAll [.lift] = (p, .ok ()) ∧
        p.removeDead = .ok (3, q) ∧ p.blocks = [4] ∧
        (∃ b kept places, p.block 4 = .ok b ∧ q.block 4 = .ok { b with instructions := kept } ∧
          Picked b.instructions places kept ∧ ∀ k, k ∈ places ↔ p.Needed 4 k) ∧
        3 + q.total (·.instructions.length) = p.total (·.instructions.length) := by
  have hpasses : ∀ pass ∈ [Pass.lift], pass = .deadCode ∨ pass = .lift := by simp
  have hblocks : (build wasteful).toOption.map (fun o => (o.runAll [.lift]).1.blocks) =
      some [4] := by decide +kernel
  have hcount : (build wasteful).toOption.bind (fun o =>
      (o.runAll [.lift]).1.removeDead.toOption.map Prod.fst) = some 3 := by decide +kernel
  obtain ⟨o, ho, hall⟩ := removeDead_keeps_needed wasteful
  obtain ⟨p, hp, count, q, hq, -, -, hkept, htotal⟩ := hall _ hpasses
  rw [ho] at hblocks hcount
  have hblocks : (o.runAll [.lift]).1.blocks = [4] := Option.some.inj hblocks
  have hcount : (o.runAll [.lift]).1.removeDead.toOption.map Prod.fst = some 3 := hcount
  rw [hp] at hblocks hcount
  rw [hq] at hcount
  obtain rfl : count = 3 := Option.some.inj hcount
  exact ⟨hpasses, o, p, q, ho, hp, hq, hblocks, hkept 4 (by rw [hblocks]; exact List.mem_cons_self),
    htotal⟩

end Program

end EvmFlow
