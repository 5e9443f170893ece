import EvmFlow.Proofs.PassSuccess

/-!
# Every block is well-formed

Whatever sequence of the built-in passes runs on a new program, the code of each block assigns
temporaries once and before they are read, and works on symbols of its own and of the program only.

* `Pruned.split`, `Pruned.mem_assigned`: removing dead instructions keeps the assignments of what is
  still read;
* `Program.Tidy`, `Program.Tidy.recoded`: the invariant of a block, and what a step makes of it;
* `Program.WellFormedBlock`: what the invariant says about a block;
* **`Program.wellFormedBlock_runAll`**: it holds of every block, after all passes.
-/

namespace EvmFlow

/-! ## Pruned code -/

namespace Pruned

variable {dead : SymbolRef → Prop} {code kept : List Instruction}

/-- What stands before an instruction that is kept is pruned code, too. -/
theorem split (h : Pruned dead code kept) {before after : List Instruction} {i : Instruction}
    (hkept : kept = before ++ i :: after) :
    ∃ before' after', code = before' ++ i :: after' ∧ Pruned dead before' before := by
  induction h generalizing before with
  | nil => simp at hkept
  | keep j _ ih =>
    cases before with
    | nil =>
      obtain ⟨rfl, -⟩ := List.cons.inj hkept
      exact ⟨[], _, rfl, .nil⟩
    | cons k before =>
      obtain ⟨rfl, hrest⟩ := List.cons.inj hkept
      obtain ⟨before', after', rfl, hbefore⟩ := ih hrest
      exact ⟨j :: before', after', rfl, .keep j hbefore⟩
  | drop hpure hdef hdead _ ih =>
    obtain ⟨before', after', rfl, hbefore⟩ := ih hkept
    exact ⟨_ :: before', after', rfl, .drop hpure hdef hdead hbefore⟩

/-- Symbols that are not dead stay assigned. -/
theorem mem_assigned (h : Pruned dead code kept) {x : SymbolRef} (hx : x ∈ assigned code)
    (hlive : ¬ dead x) : x ∈ assigned kept := by
  rw [EvmFlow.mem_assigned] at hx ⊢
  induction h with
  | nil => exact hx
  | keep i _ ih =>
    obtain ⟨j, hj, hdef⟩ := hx
    rcases List.mem_cons.mp hj with rfl | hj
    · exact ⟨j, List.mem_cons_self, hdef⟩
    · obtain ⟨k, hk, hdef⟩ := ih ⟨j, hj, hdef⟩
      exact ⟨k, List.mem_cons_of_mem _ hk, hdef⟩
  | drop _ hdef hdead _ ih =>
    obtain ⟨j, hj, hx⟩ := hx
    rcases List.mem_cons.mp hj with rfl | hj
    · rw [hdef] at hx
      cases hx
      exact absurd hdead hlive
    · exact ih ⟨j, hj, hx⟩

end Pruned

/-- Code in order stays so if only assignments of symbols that are not read go away. -/
theorem Orderly.pruned {t : SymbolTable} {sc : Scope} {slots : List (Int32 × SymbolRef)}
    {dead : SymbolRef → Prop} {code kept : List Instruction} (h : Orderly t sc slots code)
    (hkept : Pruned dead code kept) (hread : ∀ i ∈ kept, ∀ x ∈ i.uses, ¬ dead x) :
    Orderly t sc slots kept where
  has i hi := h.has i (hkept.mem_of_mem hi)
  earlier {before i after} heq x hx htmp := by
    obtain ⟨before', after', hcode, hbefore⟩ := hkept.split heq
    exact hbefore.mem_assigned (h.earlier hcode x hx htmp) (hread i (by simp [heq]) x hx)
  once x htmp := by
    have hsub : (assigned kept).Sublist (assigned code) := hkept.sublist.filterMap _
    exact (hsub.count_le x).trans (h.once x htmp)
  call hi := h.call (hkept.mem_of_mem hi)

/-- The symbols in the code of a block and in what it leaves on the stack. -/
def BasicBlock.symbols (b : BasicBlock) : List SymbolRef :=
  b.instructions.flatMap Instruction.symbols ++ b.stackInfo.generates

namespace Program

variable {p q : Program} {n : NodeId} {b b' : BasicBlock}

/-! ## The invariant -/

/-- The code of the block `b` at the node `n` is in order, and what it leaves on the stack are
constants and temporaries that it assigns, none of these twice. -/
structure Tidy (p : Program) (n : NodeId) (b : BasicBlock) : Prop where
  code : ∃ slots, Orderly p.symbols (.block n) slots b.instructions
  owned : ∀ x ∈ b.stackInfo.generates, p.symbols.IsTemporary x ∧ x ∈ assigned b.instructions ∨
    ∃ w, p.symbols.IsConstant x w
  distinct : ∀ x, p.symbols.IsTemporary x → b.stackInfo.generates.count x ≤ 1
  flat : b.lifted = false → b.stackInfo = {}

/-- A temporary that a block reads is not dead. -/
theorem not_dead (hb : p.graph.label? n = some b) (hreal : p.isSentinel n = false) {x : SymbolRef}
    (hx : (∃ i ∈ b.instructions, x ∈ i.uses) ∨ x ∈ b.stackInfo.generates) : ¬ p.Dead x := by
  intro hdead
  obtain ⟨v, hv, rfl⟩ := Option.map_eq_some_iff.mp hb
  have hmem := mem_blocks.mpr ⟨Graph.contains_iff_label?.mpr ⟨_, hb⟩, hreal⟩
  obtain ⟨huses, hgenerates⟩ := Nat.add_eq_zero_iff.mp (hdead.reads_eq_zero hmem hv)
  rcases hx with ⟨i, hi, hx⟩ | hx
  · exact List.count_eq_zero.mp huses (List.mem_flatMap.mpr ⟨i, hi, hx⟩)
  · exact List.count_eq_zero.mp hgenerates hx

namespace Tidy

theorem grows (h : p.Tidy n b) (hg : p.symbols.Grows q.symbols) : q.Tidy n b where
  code := by
    obtain ⟨slots, hcode⟩ := h.code
    exact ⟨slots, hcode.grows hg id⟩
  owned x hx := by
    rcases h.owned x hx with ⟨htmp, hassigned⟩ | ⟨w, hw⟩
    · exact .inl ⟨htmp.grows hg, hassigned⟩
    · exact .inr ⟨w, hw.grows hg⟩
  distinct x htmp := by
    by_cases hx : x ∈ b.stackInfo.generates
    · have hknows : p.symbols.Knows x := by
        rcases h.owned x hx with ⟨htmp, -⟩ | ⟨w, hw⟩
        · exact htmp.knows
        · exact hw.knows
      exact h.distinct x (hg.isTemporary_of_knows hknows htmp)
    · rw [List.count_eq_zero_of_not_mem hx]
      exact Nat.zero_le 1
  flat := h.flat

theorem pruned (h : p.Tidy n b) (hsymbols : q.symbols = p.symbols) {kept : List Instruction}
    (hb' : q.graph.label? n = some { b with instructions := kept }) (hreal : q.isSentinel n = false)
    (hkept : Pruned q.Dead b.instructions kept) : q.Tidy n { b with instructions := kept } where
  code := by
    obtain ⟨slots, hcode⟩ := h.code
    rw [hsymbols]
    exact ⟨slots, hcode.pruned hkept fun i hi x hx => not_dead hb' hreal (.inl ⟨i, hi, hx⟩)⟩
  owned x hx := by
    rw [hsymbols]
    rcases h.owned x hx with ⟨htmp, hassigned⟩ | hconst
    · exact .inl ⟨htmp, hkept.mem_assigned hassigned (not_dead hb' hreal (.inr hx))⟩
    · exact .inr hconst
  distinct x htmp := h.distinct x (hsymbols ▸ htmp)
  flat := h.flat

theorem lowered (h : p.Tidy n b) (hp : p.symbols.Consistent) (hflat : b.lifted = false)
    (ops : List Located)
    (hsymbols : q.symbols = (FlatStack.lowerAll p.symbols (.block n) ops).2.symbols) :
    q.Tidy n { b with
      instructions := (FlatStack.lowerAll p.symbols (.block n) ops).2.out.toList } := by
  have hinfo := h.flat hflat
  refine ⟨⟨[], ?_⟩, fun x hx => ?_, fun x _ => ?_, h.flat⟩
  · rw [hsymbols]
    exact FlatStack.orderly_lowerAll hp _ ops
  · rw [hinfo] at hx
    cases hx
  · rw [hinfo]
    exact Nat.zero_le 1

theorem lifted (hp : p.symbols.Consistent) {ops : List Located} {s : LiftedStack}
    (hs : LiftedStack.liftAll p.symbols n ops = .ok s) (hsymbols : q.symbols = s.symbols) :
    q.Tidy n { b with instructions := s.out.toList, stackInfo := s.info, lifted := true } := by
  obtain ⟨s', hs', horder⟩ := LiftedStack.exists_inOrder hp n ops
  obtain rfl := Except.ok.inj (hs.symm.trans hs')
  refine ⟨⟨s.arguments, ?_⟩, fun x hx => ?_, fun x htmp => ?_, fun hflat => (by cases hflat)⟩
  · rw [hsymbols]
    exact horder.code
  · have howned := horder.stack x (List.mem_reverse.mp hx)
    rw [hsymbols]
    exact howned.kind.imp_left fun htmp => ⟨htmp, howned.ready.assigned htmp⟩
  · rw [hsymbols] at htmp
    change s.stack.reverse.count x ≤ 1
    rw [List.count_reverse]
    exact horder.distinct x htmp

/-- What a step makes of a tidy block is tidy. -/
theorem recoded (h : p.Tidy n b) (hp : p.Sound) (hstep : Step p q)
    (hb' : q.graph.label? n = some b') (hreal : q.isSentinel n = false)
    (hrecoded : Recoded p q n b b') : q.Tidy n b' := by
  cases hrecoded with
  | same => exact h.grows (hstep.grows hp.symbols)
  | trim hsymbols hkept => exact h.pruned hsymbols hb' hreal hkept
  | lower _ hflat _ hsymbols => exact h.lowered hp.symbols hflat _ hsymbols
  | lift _ _ _ hs hsymbols => exact lifted hp.symbols hs hsymbols

end Tidy

theorem Step.proper (h : Step p q) (hp : p.Sound) (hproper : p.symbols.Proper) :
    q.symbols.Proper := by
  cases h with
  | drop _ h => rw [h.others]; exact hproper
  | trim h => rw [h.symbols]; exact hproper
  | lower => exact (FlatStack.lowerAll_leads hp.symbols _ _).enlarges.proper hproper
  | lift _ _ _ _ hs =>
    obtain ⟨s', hs', horder⟩ := LiftedStack.exists_inOrder hp.symbols _ _
    obtain rfl := Except.ok.inj (hs.symm.trans hs')
    exact horder.proper hproper
  | resolve _ _ _ h => rw [h.others]; exact hproper
  | retype h => exact hproper.of_identity? h.identity?
  | count => exact hproper

/-- All blocks are tidy, and the symbols of the whole program are its constants and globals. -/
structure AllTidy (p : Program) : Prop where
  block : ∀ n b, p.graph.label? n = some b → p.isSentinel n = false → p.Tidy n b
  proper : p.symbols.Proper

theorem AllTidy.step (hstep : Step p q) (hp : p.Sound) (h : p.AllTidy) : q.AllTidy where
  block n b' hb' hreal := by
    obtain ⟨b, hb, hrecoded⟩ := hstep.label? hb'
    have htidy := h.block n b hb ((hstep.isSentinel n).symm.trans hreal)
    exact htidy.recoded hp hstep hb' hreal hrecoded
  proper := hstep.proper hp h.proper

theorem allTidy_ofInstrs (instrs : List Instr) : (ofInstrs instrs).AllTidy where
  block n b hb _ := by
    rw [label?_ofInstrs hb]
    exact ⟨⟨[], orderly_nil⟩, fun x hx => (by cases hx), fun x _ => Nat.zero_le 1, fun _ => rfl⟩
  proper := SymbolTable.proper_empty

/-! ## Well-formed blocks -/

/-- The block `b` at the node `n` is well-formed. -/
structure WellFormedBlock (p : Program) (n : NodeId) (b : BasicBlock) : Prop where
  /-- A temporary that an instruction reads is assigned once, by an earlier instruction. -/
  read : ∀ before i after, b.instructions = before ++ i :: after → ∀ x ∈ i.uses,
    p.symbols.IsTemporary x → x ∈ assigned before ∧ (assigned b.instructions).count x = 1
  /-- A temporary that is left on the stack is assigned once. -/
  left : ∀ x ∈ b.stackInfo.generates, p.symbols.IsTemporary x →
    (assigned b.instructions).count x = 1
  /-- All symbols belong to the block or to the program. -/
  scope : ∀ x ∈ b.symbols,
    p.symbols.scope x = .ok (.block n) ∨ p.symbols.scope x = .ok .program
  /-- What is left on the stack are constants and temporaries, without a place of their own. -/
  kind : ∀ x ∈ b.stackInfo.generates, ∃ s, p.symbols.symbol x = .ok s ∧
    (s.isTemporary = true ∨ s.isConstant = true) ∧ s.address = .temporary
  /-- No temporary is left on the stack twice. -/
  distinct : ∀ x, p.symbols.IsTemporary x → b.stackInfo.generates.count x ≤ 1
  /-- An entry slot has one symbol. -/
  slot : ∀ x ∈ b.symbols, ∀ y ∈ b.symbols, ∀ s s' slot, p.symbols.symbol x = .ok s →
    p.symbols.symbol y = .ok s' → s.address = .stackSlot slot → s'.address = .stackSlot slot → x = y

namespace Tidy

/-- A symbol that is assigned in order is assigned once. -/
theorem count_assigned (h : p.Tidy n b) {x : SymbolRef} (hx : x ∈ assigned b.instructions)
    (htmp : p.symbols.IsTemporary x) : (assigned b.instructions).count x = 1 := by
  obtain ⟨slots, hcode⟩ := h.code
  have honce := hcode.once x htmp
  have hpos := List.count_pos_iff.mpr hx
  omega

/-- A symbol that is left on the stack is used in the block. -/
theorem has (h : p.Tidy n b) {slots : List (Int32 × SymbolRef)}
    (hcode : Orderly p.symbols (.block n) slots b.instructions) {x : SymbolRef}
    (hx : x ∈ b.symbols) : p.symbols.Has (.block n) slots x := by
  rcases List.mem_append.mp hx with hx | hx
  · obtain ⟨i, hi, hx⟩ := List.mem_flatMap.mp hx
    exact hcode.has i hi x hx
  · rcases h.owned x hx with ⟨-, hassigned⟩ | ⟨w, hw⟩
    · exact hcode.has_of_mem_assigned hassigned
    · exact hw.has

theorem wellFormedBlock (h : p.Tidy n b) (hproper : p.symbols.Proper) : p.WellFormedBlock n b := by
  obtain ⟨slots, hcode⟩ := h.code
  have hslot : ∀ x ∈ b.symbols, ∀ s slot, p.symbols.symbol x = .ok s →
      s.address = .stackSlot slot → slots.lookup slot = some x := by
    intro x hx s slot hs haddress
    obtain ⟨id, hid, huse⟩ := h.has hcode hx
    obtain ⟨sc, hid'⟩ := SymbolTable.identity?_of_symbol hs
    rw [hid] at hid'
    cases hid'
    rw [haddress] at huse hid
    generalize s.kind = kind at huse hid
    cases huse with
    | slot hk => exact hk
    | constant _ w => exact absurd (hproper.constant hid).1 (by simp)
  refine ⟨fun before i after heq x hx htmp => ?_, fun x hx htmp => ?_, fun x hx => ?_,
    fun x hx => ?_, h.distinct, fun x hx y hy s s' slot hs hs' ha ha' => ?_⟩
  · have hearlier := hcode.earlier heq x hx htmp
    refine ⟨hearlier, h.count_assigned ?_ htmp⟩
    rw [heq, assigned, List.filterMap_append]
    exact List.mem_append_left _ hearlier
  · rcases h.owned x hx with ⟨-, hassigned⟩ | ⟨w, hw⟩
    · exact h.count_assigned hassigned htmp
    · exact absurd hw htmp.not_isConstant
  · obtain ⟨id, hid, huse⟩ := h.has hcode hx
    have hscope := SymbolTable.scope_of_identity? hid
    cases huse with
    | temporary => exact .inl hscope
    | slot => exact .inl hscope
    | constant => exact .inr (hscope.trans (congrArg _ (hproper.constant hid).2))
    | label => exact .inr (hscope.trans (congrArg _ (hproper.label hid)))
  · rcases h.owned x hx with ⟨⟨sc, hid⟩, -⟩ | ⟨w, a, sc, hid⟩
    · obtain ⟨s, hs, haddress, hkind⟩ := SymbolTable.exists_symbol_of_identity? hid
      exact ⟨s, hs, .inl (by simp [Symbol.isTemporary, haddress, hkind]), haddress⟩
    · obtain ⟨s, hs, haddress, hkind⟩ := SymbolTable.exists_symbol_of_identity? hid
      refine ⟨s, hs, .inr ?_, haddress.trans (hproper.constant hid).1⟩
      simp [Symbol.isConstant, Symbol.value?, hkind, SymbolKind.value?]
  · have hx := hslot x hx s slot hs ha
    have hy := hslot y hy s' slot hs' ha'
    exact Option.some.inj (hx.symm.trans hy)

end Tidy

/-- **Every block is well-formed, after all passes.** Whatever built-in passes run on the program of
a code, they succeed, and the code of each block of the result assigns temporaries once and before
they are read, and uses symbols of its own and of the program only. -/
theorem wellFormedBlock_runAll (instrs : List Instr) : ∃ p, build instrs = .ok p ∧
    ∀ passes : List Pass, (∀ pass ∈ passes, pass = .deadCode ∨ pass = .lift) →
      ∃ q, p.runAll passes = (q, .ok ()) ∧
        ∀ n ∈ q.blocks, ∃ b, q.block n = .ok b ∧ q.WellFormedBlock n b := by
  obtain ⟨p, hp, hruns⟩ := exists_steps_runAll instrs
  refine ⟨p, hp, fun passes hpasses => ?_⟩
  obtain ⟨q, hq, hsteps⟩ := hruns passes hpasses
  obtain ⟨-, htidy⟩ := hsteps.induct (sound_ofInstrs instrs) (allTidy_ofInstrs instrs) AllTidy.step
  refine ⟨q, hq, fun n hn => ?_⟩
  obtain ⟨hlive, hreal⟩ := mem_blocks.mp hn
  obtain ⟨b, hb⟩ := Graph.contains_iff_label?.mp hlive
  exact ⟨b, Graph.label_eq_ok.mpr hb, (htidy.block n b hb hreal).wellFormedBlock htidy.proper⟩

/-- A copy of the second entry, added to the first; a third entry is exchanged with the sum. -/
def shuffle : List Instr := decode [0x81, 0x01, 0x91, 0x50, 0x50]

theorem wellFormedBlock_runAll_shuffle :
    (∀ pass ∈ [Pass.lift, .deadCode], pass = .deadCode ∨ pass = .lift) ∧
      ∃ p q, build shuffle = .ok p ∧ p.runAll [.lift, .deadCode] = (q, .ok ()) ∧
        q.blocks = [4] ∧ ∃ b, q.block 4 = .ok b ∧ q.WellFormedBlock 4 b := by
  have hpasses : ∀ pass ∈ [Pass.lift, .deadCode], pass = .deadCode ∨ pass = .lift := by simp
  have hblocks : (build shuffle).toOption.map (fun p => (p.runAll [.lift, .deadCode]).1.blocks) =
      some [4] := by decide +kernel
  obtain ⟨p, hp, hall⟩ := wellFormedBlock_runAll shuffle
  obtain ⟨q, hq, hblock⟩ := hall _ hpasses
  rw [hp] at hblocks
  have hblocks : q.blocks = [4] := by
    have heq : (p.runAll [.lift, .deadCode]).1.blocks = [4] := Option.some.inj hblocks
    rwa [hq] at heq
  exact ⟨hpasses, p, q, hp, hq, hblocks, hblock 4 (by simp [hblocks])⟩

end Program

end EvmFlow
