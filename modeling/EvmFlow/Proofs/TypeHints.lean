import EvmFlow.Proofs.LiftedTypes
import EvmFlow.Proofs.MemorySize
import EvmFlow.Proofs.SpentOperands

/-!
# The types of branches, indices and comparisons

Type propagation gives conditions, branch targets, indices and results of comparisons their types.
In a block that it goes through these types last: operands are used up, so that no later instruction
retypes them, and later passes do not touch the types of symbols that the block uses.

* `WellTyped`: the types that the instructions of a block ask for, and
  **`LiftedStack.Narrows.wellTyped`**: narrowing the types in lifted code yields them;
* `Program.WellHinted`: the blocks of a program;
* `SymbolTable.KeepsFixed`: constants and globals stay as they are;
* **`Program.Hinted.exists_run`**, **`Program.Hinted.exists_runAll`**: what one pass keeps, and what
  any sequence of passes keeps.
-/

namespace EvmFlow

/-! ## Types that instructions ask for -/

/-- A constant, or a symbol of the given type. -/
def SymbolTable.Typed (t : SymbolTable) (x : SymbolRef) (type : TypeHint) : Prop :=
  (∃ w, t.IsConstant x w) ∨ t.type? x = some type

/-- Conditions and results of comparisons that are left on the stack are truth values, targets and
indices are pointers, except for constants. -/
structure WellTyped (t : SymbolTable) (code : List Instruction) (generates : List SymbolRef) :
    Prop where
  condition : ∀ x target, .condBranch x target ∈ code → t.Typed x .bool
  target : ∀ i ∈ code, ∀ x ∈ i.branchTarget?, t.Typed x .pointer
  index : ∀ i ∈ code, ∀ x ∈ i.index?, t.Typed x .pointer
  comparison : ∀ i ∈ code, ∀ x ∈ i.comparison?, x ∈ generates → t.type? x = some .bool

section Instructions

variable {i : Instruction} {x : SymbolRef}

theorem Instruction.mem_spends_of_branchTarget? (h : x ∈ i.branchTarget?) : x ∈ i.spends := by
  cases i <;> simp_all [branchTarget?, spends, operands]

theorem Instruction.mem_spends_of_index? (h : x ∈ i.index?) : x ∈ i.spends := by
  cases i <;> simp_all [index?, spends, operands]

theorem Instruction.definition?_of_comparison? (h : x ∈ i.comparison?) :
    i.definition? = some x := by
  cases i with
  | binary y op | unary y op =>
    rw [comparison?] at h
    split at h
    · exact h
    · cases h
  | _ => cases h

end Instructions

section Blocks

variable {t t' u u' : SymbolTable} {code code' : List Instruction} {generates : List SymbolRef}
  {x : SymbolRef} {type : TypeHint}

theorem SymbolTable.Typed.congr (h : t.Typed x type) (hx : t'.entry? x = t.entry? x) :
    t'.Typed x type := by
  rcases h with ⟨w, a, sc, hid⟩ | htype
  · exact .inl ⟨w, a, sc, (identity?_congr hx).trans hid⟩
  · exact .inr ((type?_congr hx).trans htype)

/-- What less code asks for, of a table that agrees about its symbols. -/
theorem WellTyped.mono (h : WellTyped t code generates) (hcode : ∀ i ∈ code', i ∈ code)
    (hsame : ∀ i ∈ code', ∀ x ∈ i.symbols, t'.entry? x = t.entry? x) :
    WellTyped t' code' generates where
  condition x target hi := (h.condition x target (hcode _ hi)).congr
    (hsame _ hi x (Instruction.mem_symbols_of_spends List.mem_cons_self))
  target i hi x hx := (h.target i (hcode i hi) x hx).congr
    (hsame i hi x (Instruction.mem_symbols_of_spends (Instruction.mem_spends_of_branchTarget? hx)))
  index i hi x hx := (h.index i (hcode i hi) x hx).congr
    (hsame i hi x (Instruction.mem_symbols_of_spends (Instruction.mem_spends_of_index? hx)))
  comparison i hi x hx hmem := by
    have hdef := Instruction.definition?_of_comparison? hx
    rw [SymbolTable.type?_congr
      (hsame i hi x (List.mem_append_left _ (Option.mem_toList.mpr hdef)))]
    exact h.comparison i (hcode i hi) x hx hmem

end Blocks

/-! ## Lifted code -/

namespace LiftedStack

variable {t u u' : SymbolTable} {n : NodeId} {s : LiftedStack} {depth : Nat} {i : Instruction}
  {x : SymbolRef} {before after : List Instruction}

/-- Narrowing the types in the code takes the table `u`, which knows its symbols, to `u'`. -/
structure Narrows (s : LiftedStack) (u u' : SymbolTable) : Prop where
  same : ∀ i ∈ s.out, ∀ x ∈ i.symbols, u.identity? x = s.symbols.identity? x
  run : s.out.toList.foldlM SymbolTable.narrow u = .ok u'

/-- What one instruction does to types lasts, if no later instruction retypes the symbol. -/
theorem Narrows.exists_narrow (h : s.Narrows u u') (hout : s.out.toList = before ++ i :: after) :
    ∃ v v' : SymbolTable, v.narrow i = .ok v' ∧ ∀ x ∈ i.symbols, s.symbols.IsVariable x →
      v.IsVariable x ∧ ((∀ j ∈ after, x ∉ j.retyped) → u'.type? x = v'.type? x) := by
  have hrun := h.run
  rw [hout, List.foldlM_append] at hrun
  obtain ⟨v, hv, hrun⟩ := bind_eq_ok.mp hrun
  rw [List.foldlM_cons] at hrun
  obtain ⟨v', hv', hrun⟩ := bind_eq_ok.mp hrun
  refine ⟨v, v', hv', fun x hx hvar => ⟨?_, fun hlater => SymbolTable.type?_congr ?_⟩⟩
  · have hi : i ∈ s.out := Array.mem_toList_iff.mp (by simp [hout])
    rw [(Program.retypes_of_foldlM_narrow hv).isVariable]
    exact (SymbolTable.isVariable_congr (h.same i hi x hx)).mpr hvar
  · exact SymbolTable.entry?_of_foldlM_narrow hrun fun j hj hmem => absurd hmem (hlater j hj)

/-- What code uses up is a constant or has the type that it is asked for. -/
theorem Thrifty.typed (hs : s.Thrifty depth) (h : s.Narrows u u') {type : TypeHint}
    (hi : i ∈ s.out) (hx : x ∈ i.spends)
    (htype : s.symbols.IsVariable x → u'.type? x = some type) : u'.Typed x type := by
  rcases hs.plain i hi x hx with ⟨w, a, sc, hconst⟩ | hvar
  · have hsame := h.same i hi x (Instruction.mem_symbols_of_spends hx)
    exact .inl ⟨w, a, sc, ((Program.retypes_of_foldlM_narrow h.run).identity? x).trans
      (hsame.trans hconst)⟩
  · exact .inr (htype hvar)

/-- Nothing comes after a branch. -/
theorem eq_nil_of_branch (hlast : s.out.toList.Pairwise fun i _ => i.branchTarget? = none)
    (hout : s.out.toList = before ++ i :: after) (hi : i.branchTarget? ≠ none) : after = [] := by
  rw [hout, List.pairwise_append, List.pairwise_cons] at hlast
  cases after with
  | nil => rfl
  | cons j after => exact absurd (hlast.2.1.1 j List.mem_cons_self) hi

theorem Narrows.target (h : s.Narrows u u') (hs : s.Thrifty depth)
    (hlast : s.out.toList.Pairwise fun i _ => i.branchTarget? = none) (hi : i ∈ s.out)
    (hx : x ∈ i.branchTarget?) : u'.Typed x .pointer := by
  have hspends := Instruction.mem_spends_of_branchTarget? hx
  refine hs.typed h hi hspends fun hvar => ?_
  obtain ⟨before, after, hout⟩ := List.append_of_mem (Array.mem_toList_iff.mpr hi)
  obtain rfl := eq_nil_of_branch hlast hout (by rw [Option.mem_def.mp hx]; exact nofun)
  obtain ⟨v, v', hnarrow, hkeep⟩ := h.exists_narrow hout
  obtain ⟨hvar', htype⟩ := hkeep x (Instruction.mem_symbols_of_spends hspends) hvar
  rw [htype nofun]
  exact SymbolTable.type?_of_narrow_target hnarrow hx hvar'

theorem Narrows.condition {target : SymbolRef} (h : s.Narrows u u') (hs : s.Thrifty depth)
    (hapart : Lifted.Apart s) (hlast : s.out.toList.Pairwise fun i _ => i.branchTarget? = none)
    (hi : .condBranch x target ∈ s.out) : u'.Typed x .bool := by
  have hspends : x ∈ (Instruction.condBranch x target).spends := List.mem_cons_self
  refine hs.typed h hi hspends fun hvar => ?_
  have hne : x ≠ target := by
    rintro rfl
    obtain ⟨w, hw⟩ := hapart x hi
    exact hw.not_isVariable hvar
  obtain ⟨before, after, hout⟩ := List.append_of_mem (Array.mem_toList_iff.mpr hi)
  obtain rfl := eq_nil_of_branch hlast hout nofun
  obtain ⟨v, v', hnarrow, hkeep⟩ := h.exists_narrow hout
  obtain ⟨hvar', htype⟩ := hkeep x (Instruction.mem_symbols_of_spends hspends) hvar
  rw [htype nofun]
  exact SymbolTable.type?_of_narrow_condition hnarrow hvar' hne

theorem Narrows.index (h : s.Narrows u u') (hs : s.Thrifty depth) (hi : i ∈ s.out)
    (hx : x ∈ i.index?) : u'.Typed x .pointer := by
  have hspends := Instruction.mem_spends_of_index? hx
  refine hs.typed h hi hspends fun hvar => ?_
  obtain ⟨before, after, hout⟩ := List.append_of_mem (Array.mem_toList_iff.mpr hi)
  obtain ⟨v, v', hnarrow, hkeep⟩ := h.exists_narrow hout
  obtain ⟨hvar', htype⟩ := hkeep x (Instruction.mem_symbols_of_spends hspends) hvar
  have honce := hs.once
  rw [hout, List.pairwise_append, List.pairwise_cons] at honce
  rw [htype fun j hj hmem => honce.2.1.1 j hj x hspends hvar
    (Instruction.mem_symbols_of_retyped hmem)]
  exact SymbolTable.type?_of_narrow_index hnarrow hx hvar'

/-- The result of a comparison is a temporary. -/
theorem InOrder.isTemporary_of_comparison? (hr : s.InOrder t n) (hi : i ∈ s.out)
    (hx : x ∈ i.comparison?) : s.symbols.IsTemporary x := by
  rcases hr.result i hi x (Instruction.definition?_of_comparison? hx) with htmp | ⟨-, y, rfl⟩
  · exact htmp
  · cases hx

theorem Narrows.comparison (h : s.Narrows u u') (hr : s.InOrder t n) (hs : s.Thrifty depth)
    (hi : i ∈ s.out) (hx : x ∈ i.comparison?) (hmem : x ∈ s.stack) :
    u'.type? x = some .bool := by
  have hdef := Instruction.definition?_of_comparison? hx
  have htmp := hr.isTemporary_of_comparison? hi hx
  obtain ⟨before, after, hout⟩ := List.append_of_mem (Array.mem_toList_iff.mpr hi)
  obtain ⟨v, v', hnarrow, hkeep⟩ := h.exists_narrow hout
  obtain ⟨hvar', htype⟩ := hkeep x (List.mem_append_left _ (Option.mem_toList.mpr hdef))
    htmp.isVariable
  rw [htype fun j hj hretyped => ?_]
  · exact SymbolTable.type?_of_narrow_comparison hnarrow hx hvar'
  · -- It is assigned once, and what is left on the stack is not used up.
    have hj' : j ∈ s.out := Array.mem_toList_iff.mp (by simp [hout, hj])
    rcases Instruction.mem_spends_of_retyped hretyped with hagain | hspends
    · exact (hr.code.unassigned hout hdef htmp).2 (mem_assigned.mpr ⟨j, hj, hagain⟩)
    · exact hs.not_spent hmem ⟨htmp.isVariable, j, hj', hspends⟩

/-- **Narrowing the types in lifted code** gives its symbols the types that are asked for. -/
theorem Narrows.wellTyped (h : s.Narrows u u') (hr : s.InOrder t n) (hs : s.Thrifty depth)
    (hapart : Lifted.Apart s) (hlast : s.out.toList.Pairwise fun i _ => i.branchTarget? = none) :
    WellTyped u' s.out.toList s.info.generates where
  condition _ _ hi := h.condition hs hapart hlast (Array.mem_toList_iff.mp hi)
  target _ hi _ hx := h.target hs hlast (Array.mem_toList_iff.mp hi) hx
  index _ hi _ hx := h.index hs (Array.mem_toList_iff.mp hi) hx
  comparison _ hi _ hx hmem :=
    h.comparison hr hs (Array.mem_toList_iff.mp hi) hx (List.mem_reverse.mp hmem)

end LiftedStack

/-! ## Constants and globals -/

namespace SymbolTable

variable {t t' t'' : SymbolTable}

/-- Constants and globals stay as they are. -/
def KeepsFixed (t t' : SymbolTable) : Prop :=
  ∀ x s, t.symbol x = .ok s → s.isConstant = true ∨ s.isGlobal = true → t'.symbol x = .ok s

theorem KeepsFixed.refl (t : SymbolTable) : t.KeepsFixed t := fun _ _ hs _ => hs

theorem KeepsFixed.trans (h : t.KeepsFixed t') (h' : t'.KeepsFixed t'') : t.KeepsFixed t'' :=
  fun x s hs hfixed => h' x s (h x s hs hfixed) hfixed

theorem not_isVariable_of_entry {x : SymbolRef} {e : SymbolEntry} (hx : t.entry? x = some e)
    (h : e.symbol.isConstant = true ∨ e.symbol.isGlobal = true) : ¬ t.IsVariable x := by
  rintro ⟨s, hs, hconst, hglobal⟩
  cases hs.symm.trans (symbol_of_entry hx)
  simp [hconst, hglobal] at h

theorem keepsFixed_of_entry? (h : ∀ x, ¬ t.IsVariable x → t'.entry? x = t.entry? x) :
    t.KeepsFixed t' := by
  intro x s hs hfixed
  obtain ⟨e, he, rfl⟩ := entry?_of_symbol hs
  exact symbol_of_entry ((h x (not_isVariable_of_entry he hfixed)).trans he)

theorem Enlarges.keepsFixed (h : t.Enlarges t') : t.KeepsFixed t' := by
  intro x s hs _
  obtain ⟨e, he, rfl⟩ := entry?_of_symbol hs
  exact symbol_of_entry (h.entry? he)

/-- New types for variables leave constants and globals genuine. -/
theorem Genuine.retypes (ht : t.Genuine) (h : t.Retypes t')
    (hfixed : ∀ x, ¬ t.IsVariable x → t'.entry? x = t.entry? x) : t'.Genuine := by
  have hold : ∀ {x e}, t'.entry? x = some e →
      e.symbol.isConstant = true ∨ e.symbol.isGlobal = true → t.entry? x = some e := by
    intro x e hx hkind
    rw [← hfixed x (mt h.isVariable.mpr (not_isVariable_of_entry hx hkind)), hx]
  refine ⟨fun {x e} hx hc => ?_, fun {x e g} hx hg => ?_⟩
  · rw [h.shares]
    exact ht.constant (hold hx (.inl hc)) hc
  · refine ht.global (hold hx (.inr ?_)) hg
    rw [Symbol.isGlobal, hg]

end SymbolTable

/-! ## Programs -/

namespace Program

variable {p q : Program} {n : NodeId} {u : SymbolTable} {lifted : List NodeId}

theorem NarrowedAt.wellTyped {t t' : SymbolTable} {s : LiftedStack} {depth : Nat}
    (h : NarrowedAt n s.out.toList t t') (hr : s.InOrder u n) (hs : s.Thrifty depth)
    (hapart : Lifted.Apart s) (hlast : s.out.toList.Pairwise fun i _ => i.branchTarget? = none)
    (hgrows : s.symbols.Grows t) : WellTyped t' s.out.toList s.info.generates := by
  obtain ⟨u₁, u₂, hretypes, -, hnarrow, -, hagrees⟩ := h
  have hsame : ∀ {v}, t.Retypes v → ∀ i ∈ s.out, ∀ x ∈ i.symbols,
      v.identity? x = s.symbols.identity? x := fun hv i hi x hx =>
    hr.identity?_of_mem_symbols hgrows hv (Array.mem_toList_iff.mpr hi) hx
  have hnarrows : s.Narrows u₁ u₂ := ⟨hsame hretypes, hnarrow⟩
  refine (hnarrows.wellTyped hr hs hapart hlast).mono (fun _ hi => hi) fun i hi x hx => hagrees ?_
  have hretypes₂ := hretypes.trans (retypes_of_foldlM_narrow hnarrow)
  refine (SymbolTable.open_congr (hsame hretypes₂ i (Array.mem_toList_iff.mp hi) x hx)).mpr ?_
  exact (hr.code.has i hi x hx).open

/-- The types in every lifted block that can be reached are as its instructions ask for, unless it
reaches so far down the stack that slots are not different. -/
def WellHinted (p : Program) : Prop :=
  ∀ found, p.reachable = .ok found → ∀ n ∈ found, p.isSentinel n = false → ∀ b ops,
    p.graph.label? n = some b → p.opcodes n = .ok ops → b.lifted = true →
    Evm.required ops ≤ 2 ^ 32 → WellTyped p.symbols b.instructions b.stackInfo.generates

/-- Dead code elimination keeps less code, of blocks that can be reached. -/
theorem WellHinted.eliminateDeadCode (h : p.WellHinted) (hp : p.Sound) {changes : Int}
    (hq : p.eliminateDeadCode = .ok (changes, q)) (hsteps : Steps p q) : q.WellHinted := by
  intro _ _ n _ hreal b ops hb hops hlifted hneed
  obtain ⟨-, -, r, found₀, -, -, hfound₀, hretained, htrimmed⟩ :=
    exists_of_eliminateDeadCode hp.graph.forward hq
  obtain ⟨b₀, kept, hb₀, rfl, hpruned⟩ := htrimmed.label? hb
  have hreal₀ : p.isSentinel n = false := (hsteps.isSentinel n).symm.trans hreal
  obtain ⟨hmem, hlabel⟩ := hretained.mem_of_label? hb₀ hreal₀
  have hold := h found₀ hfound₀ n hmem hreal₀ b₀ ops hlabel (hsteps.opcodes_before hops) hlifted
    hneed
  refine hold.mono (fun i hi => hpruned.sublist.subset hi) fun i hi x hx => ?_
  rw [hp.symbols_of_eliminateDeadCode hq]

/-- Lifting narrows the types in new blocks, and leaves other blocks alone. -/
theorem LiftsWith.wellHinted (h : LiftsWith p q u lifted) (hp : p.Regular) (htidy : p.AllTidy)
    (hhints : p.WellHinted) : q.WellHinted := by
  intro found hfound n hn hreal b ops hb hops hlifted hneed
  have hops := h.steps.opcodes_before hops
  have hreal₀ : p.isSentinel n = false := (h.steps.isSentinel n).symm.trans hreal
  by_cases hmem : n ∈ lifted
  · obtain ⟨t, ops', s, b', ht, hops', hs, hsu, hb'⟩ := h.code n hmem
    cases hops.symm.trans hops'
    have hends := hp.jumpsLast.opcodes n ops hreal₀ hops
    obtain ⟨s', depth, hs', hr, hthrifty, hapart⟩ :=
      LiftedStack.exists_thrifty (ht.consistent hp.sound.symbols) n hneed hends
    cases hs.symm.trans hs'
    have hnarrowed := h.narrowed hfound n hmem hn b hb
    cases hb.symm.trans hb'
    exact hnarrowed.wellTyped hr hthrifty hapart (LiftedStack.pairwise_of_liftAll hs hends)
      hsu.grows
  · obtain ⟨hlabel, hagrees⟩ := h.other n hmem
    rw [hlabel] at hb
    obtain ⟨found₀, hfound₀⟩ := hp.sound.exists_reachable
    have hold := hhints found₀ hfound₀ n (h.reachable hfound₀ hfound n hn) hreal₀ b ops hb hops
      hlifted hneed
    refine hold.mono (fun _ hi => hi) fun i hi x hx => ?_
    -- The symbols of the block have been in the table, and belong to the block.
    obtain ⟨slots, hcode⟩ := (htidy.block n b hb hreal₀).code
    have hhas := hcode.has i hi x hx
    obtain ⟨id, hid⟩ := hhas.knows
    obtain ⟨e, he, -⟩ := SymbolTable.exists_entry_of_identity? hid
    have hopen : u.Open (.block n) x := (SymbolTable.open_congr
      ((h.created.grows.identity hid).trans hid.symm)).mpr hhas.open
    rw [hagrees hopen, h.created.entry? he, he]

/-- What every pass keeps. -/
structure Hinted (p : Program) : Prop where
  regular : p.Regular
  tidy : p.AllTidy
  hints : p.WellHinted
  genuine : p.symbols.Genuine

/-- **A pass keeps types.** Constants and globals stay as they are, also those that lifting creates
before it goes through types. -/
theorem Hinted.exists_run (h : p.Hinted) {pass : Pass} (hpass : pass = .deadCode ∨ pass = .lift) :
    ∃ q, p.run pass = .ok q ∧ q.Hinted ∧ p.symbols.KeepsFixed q.symbols ∧
      (pass = .lift → ∃ lifted r, p.liftBlocks = .ok (lifted, r) ∧ p.symbols.Enlarges r.symbols ∧
        r.symbols.KeepsFixed q.symbols) := by
  have htidy : ∀ {q}, Steps p q → q.AllTidy := fun hsteps =>
    (hsteps.induct h.regular.sound h.tidy AllTidy.step).2
  rcases hpass with rfl | rfl
  · obtain ⟨changes, q, hq, hsteps⟩ := h.regular.sound.exists_eliminateDeadCode
    have hsymbols := h.regular.sound.symbols_of_eliminateDeadCode hq
    have happly : Pass.deadCode.apply p = .ok (changes, q) := mapError_eq_ok.mpr hq
    have hcount : Steps p _ := hsteps.tail (.count (q.tally.add Pass.deadCode.name changes))
    refine ⟨_, run_eq_ok happly (hsteps.sound h.regular.sound),
      ⟨hcount.regular h.regular, htidy hcount, ?_, ?_⟩, ?_, fun heq => ?_⟩
    · have hhints := h.hints.eliminateDeadCode h.regular.sound hq hsteps
      exact hhints
    · change q.symbols.Genuine
      rw [hsymbols]
      exact h.genuine
    · change p.symbols.KeepsFixed q.symbols
      rw [hsymbols]
      exact .refl p.symbols
    · exact absurd (congrArg Pass.name heq) (by decide)
  · obtain ⟨q, u, lifted, hq, hlift⟩ := h.regular.exists_liftsWith h.tidy
    obtain ⟨r, hr, rfl⟩ := hlift.blocks
    have hfixed := SymbolTable.keepsFixed_of_entry? hlift.fixed
    exact ⟨q, hq, ⟨hlift.steps.regular h.regular, htidy hlift.steps,
        hlift.wellHinted h.regular h.tidy h.hints,
        (hlift.created.genuine h.genuine).retypes hlift.retypes hlift.fixed⟩,
      hlift.created.keepsFixed.trans hfixed, fun _ => ⟨lifted, r, hr, hlift.created, hfixed⟩⟩

/-- **Passes keep types**, by induction on the sequence. -/
theorem Hinted.exists_runAll (h : p.Hinted) {passes : List Pass}
    (hpasses : ∀ pass ∈ passes, pass = .deadCode ∨ pass = .lift) :
    ∃ q, p.runAll passes = (q, .ok ()) ∧ q.Hinted ∧ ∀ first rest, passes = first ++ rest →
      ∃ r, p.runAll first = (r, .ok ()) ∧ r.symbols.KeepsFixed q.symbols ∧
        (rest.head? = some .lift → ∃ lifted r', r.liftBlocks = .ok (lifted, r') ∧
          r.symbols.Enlarges r'.symbols ∧ r'.symbols.KeepsFixed q.symbols) := by
  induction passes generalizing p with
  | nil =>
    refine ⟨p, rfl, h, fun first rest heq => ?_⟩
    obtain ⟨rfl, rfl⟩ := List.append_eq_nil_iff.mp heq.symm
    exact ⟨p, rfl, .refl _, nofun⟩
  | cons pass passes ih =>
    obtain ⟨hpass, hpasses⟩ := List.forall_mem_cons.mp hpasses
    obtain ⟨r, hr, hhinted, hkeeps, hlift⟩ := h.exists_run hpass
    obtain ⟨q, hq, hqhinted, hall⟩ := ih hhinted hpasses
    refine ⟨q, (runAll_cons hr passes).trans hq, hqhinted, fun first rest heq => ?_⟩
    cases first with
    | nil =>
      obtain rfl : pass :: passes = rest := heq
      obtain ⟨r₁, hr₁, hkeeps₁, -⟩ := hall [] passes rfl
      cases hr₁
      refine ⟨p, rfl, hkeeps.trans hkeeps₁, fun hhead => ?_⟩
      obtain ⟨lifted, r', hr', hcreated, hfixed⟩ := hlift (Option.some.inj hhead)
      exact ⟨lifted, r', hr', hcreated, hfixed.trans hkeeps₁⟩
    | cons pass' first =>
      obtain ⟨rfl, htail⟩ := List.cons.inj heq
      obtain ⟨r₁, hr₁, hfirst⟩ := hall first rest htail
      exact ⟨r₁, (runAll_cons hr first).trans hr₁, hfirst⟩

theorem hinted_of_build {instrs : List Instr} (h : build instrs = .ok p) : p.Hinted where
  regular := (steps_of_build h).regular (regular_ofInstrs instrs)
  tidy := ((steps_of_build h).induct (sound_ofInstrs instrs) (allTidy_ofInstrs instrs)
    AllTidy.step).2
  hints _ _ n _ _ b _ hb _ hlifted := by
    cases ((filled_of_build h).lifted_eq_false hb).symm.trans hlifted
  genuine := (filled_of_build h).enlarges.genuine SymbolTable.genuine_empty

end Program

end EvmFlow
