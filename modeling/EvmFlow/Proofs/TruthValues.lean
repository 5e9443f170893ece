import EvmFlow.Proofs.LiftedTypes

/-!
# Symbols that are taken to be truth values

Type propagation takes the result of a comparison to be a truth value, and what is copied or
complemented from a truth value, too. The complement of a truth value is none: a word of ones except
for the last bit. So the symbols that are taken to be truth values hold truth values or complements
of such, and which of the two depends on the code alone.

* `Word.IsTruth`, `complemented`: truth values, and symbols with complements of truth values;
* `Truthful`, `Truthful.step`, `Truthful.run`: what symbols that are taken to be truth values hold,
  kept by one instruction and by a run;
* **`Program.lift_hints_truthfully`**: this is so in all blocks after lifting;
* `Program.lift_hints_complements`: a complement that is taken to be a truth value.
-/

namespace EvmFlow

/-! ## Truth values -/

/-- A word that is a truth value. -/
def Word.IsTruth (w : Word) : Prop := w = 0 ∨ w = 1

instance : DecidablePred Word.IsTruth := fun w => inferInstanceAs (Decidable (w = 0 ∨ w = 1))

theorem Word.isTruth_ofBool (b : Bool) : IsTruth (ofBool b) := by
  cases b
  · exact .inl rfl
  · exact .inr rfl

/-- Comparisons yield truth values. -/
theorem Operator.isTruth_eval {op : Operator} (hop : op.isComparison = true) (ws : List Word) :
    Word.IsTruth ((op.eval ws).getD 0) := by
  have hnone : Word.IsTruth ((none : Option Word).getD 0) := .inl rfl
  rcases ws with _ | ⟨a, _ | ⟨b, rest⟩⟩
  · exact hnone
  · cases op with
    | isZero => exact Word.isTruth_ofBool _
    | lessThan | greaterThan | signedLessThan | signedGreaterThan | equal => exact hnone
    | _ => cases hop
  · cases op with
    | isZero | lessThan | greaterThan | signedLessThan | signedGreaterThan | equal =>
      exact Word.isTruth_ofBool _
    | _ => cases hop

/-- So does every operator on one operand but the complement. -/
theorem Operator.isTruth_eval_unary {op : Operator} (hop : op ≠ .not) (w : Word) :
    Word.IsTruth ((op.eval [w]).getD 0) := by
  cases op with
  | isZero => exact Word.isTruth_ofBool _
  | not => exact absurd rfl hop
  | _ => exact .inl rfl

/-- How an instruction changes which symbols hold complements of truth values: a copy holds what its
source holds, a complement holds the other, and other results are no complements. -/
def Instruction.complements (odd : SymbolRef → Bool) : Instruction → SymbolRef → Bool
  | copy x y => Function.update odd x (odd y)
  | unary x .not y => Function.update odd x !odd y
  | binary x _ _ _ | unary x _ _ | function _ x _ | indexedCopy x _ _ => Function.update odd x false
  | nop | branch _ | condBranch _ _ | procedure _ _ | indexedAssign _ _ _ => odd

/-- The symbols that hold, after the code, complements of truth values rather than truth values: an
odd number of complements lies between such a symbol and the comparison its value comes from. -/
def complemented (code : List Instruction) : SymbolRef → Bool :=
  code.foldl Instruction.complements fun _ => false

/-- What a symbol holds, with a complement undone. -/
def plainValue (code : List Instruction) (values : SymbolRef → Word) (x : SymbolRef) : Word :=
  if complemented code x then ~~~values x else values x

section Complements

variable {code : List Instruction} {i : Instruction} {x y : SymbolRef}

theorem complemented_concat (code : List Instruction) (i : Instruction) :
    complemented (code ++ [i]) = i.complements (complemented code) := List.foldl_concat ..

theorem Instruction.complements_of_ne {odd : SymbolRef → Bool} (h : i.definition? ≠ some x) :
    i.complements odd x = odd x := by
  have hne : ∀ {z}, i.definition? = some z → x ≠ z := by
    rintro z hz rfl
    exact h hz
  cases i with
  | unary z op =>
    cases op with
    | _ => exact Function.update_of_ne (hne rfl) _ _
  | copy z | binary z | function _ z | indexedCopy z => exact Function.update_of_ne (hne rfl) _ _
  | _ => rfl

theorem Instruction.complements_unary {odd : SymbolRef → Bool} {op : Operator} (hop : op ≠ .not) :
    (unary x op y).complements odd = Function.update odd x false := by
  cases op with
  | not => exact absurd rfl hop
  | _ => rfl

end Complements

/-! ## What truth values hold -/

variable {σ : Type} {I : Environment σ} {u : SymbolTable} {m : Machine σ} {t t' : SymbolTable}
  {sc : Scope} {code : List Instruction} {i : Instruction}

/-- Conditions apart, the symbols that are taken to be truth values are assigned and hold truth
values, or complements of truth values where the code says so. -/
def Truthful (sc : Scope) (t : SymbolTable) (code : List Instruction) (values : SymbolRef → Word) :
    Prop :=
  ∀ x, t.Open sc x → t.type? x = some .bool → (∀ target, .condBranch x target ∉ code) →
    x ∈ assigned code ∧ Word.IsTruth (plainValue code values x)

/-- Code of a scope that gives each symbol one value, unless by a copy. -/
structure AssignsOnce (sc : Scope) (t : SymbolTable) (code : List Instruction) : Prop where
  usable : ∀ i ∈ code, ∀ x ∈ i.symbols, t.Open sc x
  assignable : ∀ i ∈ code, ∀ x ∈ i.definition?, t.IsVariable x
  new : ∀ {before i after}, code = before ++ i :: after → ∀ x ∈ i.definition?,
    (∃ y, i = .copy x y) ∨ x ∉ assigned before

theorem AssignsOnce.congr (h : AssignsOnce sc t code)
    (hid : ∀ i ∈ code, ∀ x ∈ i.symbols, t'.identity? x = t.identity? x) :
    AssignsOnce sc t' code where
  usable i hi x hx := (SymbolTable.open_congr (hid i hi x hx)).mpr (h.usable i hi x hx)
  assignable i hi x hx := by
    have hmem : x ∈ i.symbols := List.mem_append_left _ (Option.mem_toList.mpr hx)
    exact (SymbolTable.isVariable_congr (hid i hi x hmem)).mpr (h.assignable i hi x hx)
  new := h.new

theorem plainValue_concat_of_ne {values values' : SymbolRef → Word} {x : SymbolRef}
    (hdef : i.definition? ≠ some x) (hvalues : values' x = values x) :
    plainValue (code ++ [i]) values' x = plainValue code values x := by
  rw [plainValue, plainValue, complemented_concat, Instruction.complements_of_ne hdef, hvalues]

/-- What narrowing gives a result, and why it holds a truth value or the complement of one. -/
theorem Truthful.result {x : SymbolRef} (h : Truthful sc t code m.values) (hi : t.narrow i = .ok t')
    (hbranch : ∀ j ∈ code, j.branchTarget? = none) (husable : ∀ x ∈ i.symbols, t.Open sc x)
    (hvar : t.IsVariable x) (hx : i.typed? = some x) (htype : t'.type? x = some .bool) :
    Word.IsTruth (plainValue (code ++ [i]) (m.step I u i).values x) := by
  have hsource : ∀ y, y ∈ i.symbols → t.type? y = some .bool →
      Word.IsTruth (plainValue code m.values y) := fun y hy hbool =>
    (h y (husable y hy) hbool fun target hmem => by cases hbranch _ hmem).2
  rw [plainValue, complemented_concat]
  cases i with
  | copy z y =>
    cases hx
    rw [SymbolTable.type?_of_narrow_copy hi hvar] at htype
    have hy := hsource y (by simp [Instruction.symbols, Instruction.uses]) htype
    rw [Machine.step_copy, Machine.assign_some_values, Function.update_self,
      Instruction.complements, Function.update_self]
    exact hy
  | binary z op y y' =>
    rw [Instruction.typed?] at hx
    split at hx
    · next hop =>
      cases hx
      rw [Machine.step_binary, Machine.assign_some_values, Function.update_self,
        Instruction.complements, Function.update_self]
      exact Operator.isTruth_eval hop _
    · cases hx
  | unary z op y =>
    cases hx
    rw [Machine.step_unary, Machine.assign_some_values, Function.update_self]
    by_cases hop : op = .not
    · subst hop
      rw [SymbolTable.type?_of_narrow_unary rfl hi hvar] at htype
      have hy := hsource y (by simp [Instruction.symbols, Instruction.uses]) htype
      rw [Instruction.complements, Function.update_self]
      rw [plainValue] at hy
      cases hodd : complemented code y with
      | true =>
        rw [hodd] at hy
        exact hy
      | false =>
        rw [hodd] at hy
        change Word.IsTruth (~~~(~~~m.values y))
        rw [BitVec.not_not]
        exact hy
    · rw [Instruction.complements_unary hop, Function.update_self]
      exact Operator.isTruth_eval_unary hop _
  | _ => cases hx

/-- **One instruction** keeps truth values truthful, unless it comes after a branch. -/
theorem Truthful.step (h : Truthful sc t code m.values) (hi : t.narrow i = .ok t')
    (hbranch : ∀ j ∈ code, j.branchTarget? = none) (husable : ∀ x ∈ i.symbols, t.Open sc x)
    (hvar : ∀ x ∈ i.definition?, t.IsVariable x)
    (hnew : ∀ x ∈ i.definition?, (∃ y, i = .copy x y) ∨ x ∉ assigned code) :
    Truthful sc t' (code ++ [i]) (m.step I u i).values := by
  intro x hopen htype hcondition
  rw [(Program.retypes_of_narrow hi).open] at hopen
  by_cases hx : i.typed? = some x
  · have hdef := Instruction.definition?_of_typed? hx
    refine ⟨?_, h.result hi hbranch husable (hvar x hdef) hx htype⟩
    rw [assigned_concat, hdef]
    exact List.mem_append_right _ (List.mem_singleton_self x)
  · -- The type is an old one, so the symbol is assigned already and not by this instruction.
    have hold : t.type? x = some .bool := by
      refine SymbolTable.type?_of_narrow_bool hi htype hx ?_ ?_
      · rintro target rfl
        exact hcondition target (by simp)
      · rintro result op y z rfl - hbool
        have hassigned := h result (husable result (by simp [Instruction.symbols,
          Instruction.definition?])) hbool fun target hmem => by cases hbranch _ hmem
        rcases hnew result rfl with ⟨_, heq⟩ | hnew
        · cases heq
        · exact hnew hassigned.1
    obtain ⟨hassigned, htruth⟩ := h x hopen hold fun target hmem =>
      hcondition target (List.mem_append_left _ hmem)
    have hdef : i.definition? ≠ some x := by
      intro hdef
      rcases hnew x hdef with ⟨y, rfl⟩ | hnew
      · exact hx rfl
      · exact hnew hassigned
    refine ⟨?_, ?_⟩
    · rw [assigned_concat]
      exact List.mem_append_left _ hassigned
    · rw [plainValue_concat_of_ne hdef (Machine.step_values_of_ne _ _ _ hdef)]
      exact htruth

/-- **A run** keeps truth values truthful, if only the last instruction is a branch. -/
theorem Truthful.run {before : List Instruction} (h : Truthful sc t before m.values)
    (hcode : code.foldlM SymbolTable.narrow t = .ok t') (honce : AssignsOnce sc t (before ++ code))
    (hbranch : (before ++ code).Pairwise fun j _ => j.branchTarget? = none) :
    Truthful sc t' (before ++ code) (m.run I u code).values := by
  induction code generalizing before t m with
  | nil =>
    cases hcode
    rw [List.append_nil]
    exact h
  | cons i rest ih =>
    rw [List.foldlM_cons] at hcode
    obtain ⟨t₁, ht₁, hrest⟩ := bind_eq_ok.mp hcode
    have hretypes := Program.retypes_of_narrow ht₁
    have hmem : i ∈ before ++ i :: rest := by simp
    have hstep := h.step (I := I) (u := u) ht₁
      (fun j hj => (List.pairwise_append.mp hbranch).2.2 j hj i List.mem_cons_self)
      (honce.usable i hmem) (honce.assignable i hmem) (honce.new rfl)
    rw [List.append_cons] at honce hbranch ⊢
    exact ih hstep hrest (honce.congr fun _ _ x _ => hretypes.identity? x) hbranch

/-! ## Lifted blocks -/

/-- Lifted code gives each symbol one value, unless by a copy. -/
theorem LiftedStack.InOrder.assignsOnce {n : NodeId} {s : LiftedStack} (h : s.InOrder t n) :
    AssignsOnce (.block n) s.symbols s.out.toList where
  usable i hi x hx := (h.code.has i hi x hx).open
  assignable i hi x hx := by
    rcases h.result i (Array.mem_toList_iff.mp hi) x hx with htmp | ⟨⟨slot, hslot⟩, -⟩
    · exact htmp.isVariable
    · exact hslot.isVariable
  new {before i after} hcode x hx := by
    have hi : i ∈ s.out.toList := by simp [hcode]
    rcases h.result i (Array.mem_toList_iff.mp hi) x hx with htmp | ⟨-, hcopy⟩
    · exact .inr (h.code.unassigned hcode hx htmp).1
    · exact .inl hcopy

namespace SymbolTable

/-- No symbol is created as a truth value. -/
theorem Enlarges.type?_ne_bool (h : Enlarges {} t) (x : SymbolRef) : t.type? x ≠ some .bool := by
  intro htype
  obtain ⟨e, he, hbool⟩ := Option.map_eq_some_iff.mp htype
  rcases h.entry?_cases he with hold | ⟨-, horiginal⟩
  · simp [ SymbolRecords.entry?] at hold
  · exact horiginal.type_ne_bool hbool

end SymbolTable

theorem Machine.run_values_of_not_mem {x : SymbolRef} (hx : x ∉ assigned code) :
    (m.run I u code).values x = m.values x := by
  induction code generalizing m with
  | nil => rfl
  | cons i rest ih =>
    rw [assigned_cons, List.mem_append, not_or] at hx
    exact (ih hx.2).trans (step_values_of_ne I u m fun h => hx.1 (Option.mem_toList.mpr h))

namespace Program

variable {p q : Program} {n : NodeId} {instrs : List Instr}

/-- If nothing was taken to be a truth value before the types of lifted code are narrowed, what is
afterwards is one or the complement of one. -/
theorem NarrowedAt.truthful {s : LiftedStack} (h : NarrowedAt n s.out.toList t t')
    (hs : s.InOrder u n) (hgrows : s.symbols.Grows t) (htype : ∀ x, t.type? x ≠ some .bool)
    (hbranch : s.out.toList.Pairwise fun i _ => i.branchTarget? = none) :
    Truthful (.block n) t' s.out.toList (m.run I t' s.out.toList).values := by
  obtain ⟨u₁, u₂, hretypes, hagrees, hnarrow, hretypes', hagrees'⟩ := h
  have hstart : Truthful (.block n) u₁ [] m.values := by
    intro x hopen hbool
    rw [hretypes.open] at hopen
    exact absurd ((SymbolTable.type?_congr (hagrees hopen)).symm.trans hbool) (htype x)
  have honce : AssignsOnce (.block n) u₁ s.out.toList :=
    hs.assignsOnce.congr fun i hi x hx => hs.identity?_of_mem_symbols hgrows hretypes hi hx
  intro x hopen hbool
  rw [hretypes'.open] at hopen
  exact hstart.run hnarrow honce hbranch x hopen
    ((SymbolTable.type?_congr (hagrees' hopen)).symm.trans hbool)

/-- If nothing is taken to be a truth value when types are narrowed, what is after lifting is one or
the complement of one. -/
theorem LiftsWith.truthful {lifted : List NodeId} {s : LiftedStack} {b : BasicBlock}
    (h : LiftsWith p q u lifted) (hq : q.Regular) (htype : ∀ x, u.type? x ≠ some .bool)
    (hn : n ∈ lifted) (hb : q.graph.label? n = some b) (hlifted : b.lifted = true)
    (hcode : b.instructions = s.out.toList) (hs : s.InOrder t n) (hgrows : s.symbols.Grows u) :
    Truthful (.block n) q.symbols b.instructions (m.run I q.symbols b.instructions).values := by
  have hbranch := hq.jumpsLast.code n b hb hlifted
  obtain ⟨found, hfound⟩ := hq.sound.exists_reachable
  by_cases hmem : n ∈ found
  · have hnarrowed := h.narrowed hfound n hn hmem b hb
    rw [hcode] at hnarrowed hbranch ⊢
    exact hnarrowed.truthful hs hgrows htype hbranch
  · -- Types are not narrowed here, so there are no truth values.
    intro x hopen hbool
    rw [h.retypes.open] at hopen
    have hsame := SymbolTable.type?_congr (h.unreached hfound n hn hmem hopen)
    exact absurd (hsame.symm.trans hbool) (htype x)

/-- **After lifting, what is taken to be a truth value is one, or the complement of one.** Let a
temporary be of the type of truth values and not the condition of a branch. Whatever the block is
entered with and whatever the environment answers, the value that it is assigned is 0 or 1, or the
complement of 0 or 1 if an odd number of complements lies between it and the comparison that its
value comes from. -/
theorem lift_hints_truthfully (instrs : List Instr) :
    ∃ p q, build instrs = .ok p ∧ p.run .lift = .ok q ∧
      ∀ n ∈ q.blocks, ∃ b, q.block n = .ok b ∧ (b.lifted = true →
        ∀ x s, q.symbols.symbol x = .ok s → s.isTemporary = true → s.type = .bool →
          (∀ target, .condBranch x target ∉ b.instructions) →
        ∀ {σ : Type} (I : Environment σ) (m : Machine σ) before i after,
          b.instructions = before ++ i :: after → i.definition? = some x → Word.IsTruth
            (plainValue b.instructions (m.run I q.symbols (before ++ [i])).values x)) := by
  obtain ⟨p, hp, hsteps⟩ := exists_steps_build instrs
  have hfilled := filled_of_build hp
  have hregular := hsteps.regular (regular_ofInstrs instrs)
  have htidy := (hsteps.induct (sound_ofInstrs instrs) (allTidy_ofInstrs instrs) AllTidy.step).2
  obtain ⟨q, u, lifted, hq, hlift⟩ := hregular.exists_liftsWith htidy
  refine ⟨p, q, hp, hq, fun n hn => ?_⟩
  obtain ⟨b, hb, -⟩ := exists_label?_of_mem_blocks hn
  refine ⟨b, Graph.label_eq_ok.mpr hb, fun hlifted x sx hsx htmp hbool hcondition => ?_⟩
  intro σ I m before i after hcode hdef
  have hmem : n ∈ lifted := by
    by_contra hmem
    rw [(hlift.other n hmem).1] at hb
    cases (hfilled.lifted_eq_false hb).symm.trans hlifted
  obtain ⟨t, ops, s, b', ht, -, hs, hsu, hb'⟩ := hlift.code n hmem
  have hinstructions : b.instructions = s.out.toList := by
    cases hb.symm.trans hb'
    rfl
  obtain ⟨s', hs', horder⟩ :=
    LiftedStack.exists_inOrder (ht.consistent hregular.sound.symbols) n ops
  cases hs.symm.trans hs'
  have htype := SymbolTable.Enlarges.type?_ne_bool (hfilled.enlarges.trans hlift.created)
  have htruth := hlift.truthful (I := I) (m := m) (hlift.steps.regular hregular) htype hmem hb
    hlifted hinstructions horder hsu.grows
  -- The temporary is assigned at one place, so it has its value to the end of the block.
  have hi : i ∈ s.out.toList := by simp [← hinstructions, hcode]
  have hx : x ∈ i.symbols := List.mem_append_left _ (Option.mem_toList.mpr hdef)
  have hid := horder.identity?_of_mem_symbols hsu.grows hlift.retypes hi hx
  have hopen := (SymbolTable.open_congr hid).mpr (horder.code.has i hi x hx).open
  have hplain := (htruth x hopen (hbool ▸ SymbolTable.type?_of_symbol hsx) hcondition).2
  obtain ⟨sc, hsc⟩ := SymbolTable.identity?_of_symbol hsx
  have htemporary : s.symbols.IsTemporary x := by
    obtain ⟨haddress, hkind⟩ := of_decide_eq_true htmp
    exact ⟨sc, by rw [← hid, hsc, haddress, hkind]⟩
  have hlast := (horder.code.unassigned (hinstructions.symm.trans hcode) hdef htemporary).2
  have hvalue : (m.run I q.symbols b.instructions).values x =
      (m.run I q.symbols (before ++ [i])).values x := by
    rw [hcode, List.append_cons, Machine.run_append, Machine.run_values_of_not_mem hlast]
  rw [plainValue, hvalue] at hplain
  exact hplain

/-- Whether the sender is zero, and the complement of a copy of the answer. -/
def negatedCopy : List Instr := decode [0x33, 0x15, 0x80, 0x19]

theorem lift_hints_truthfully_negatedCopy :
    ∃ p q b, build negatedCopy = .ok p ∧ p.run .lift = .ok q ∧ q.block 4 = .ok b ∧
      b.instructions = [.function .caller 10 [], .unary 11 .isZero 10, .copy 12 11,
        .unary 13 .not 12] ∧
      ∀ {σ : Type} (I : Environment σ) (m : Machine σ),
        Word.IsTruth ((m.run I q.symbols (b.instructions.take 3)).values 12) ∧
          Word.IsTruth (~~~(m.run I q.symbols b.instructions).values 13) := by
  have heval : (build negatedCopy).toOption.bind (fun p => (p.run .lift).toOption.bind fun q =>
      (q.block 4).toOption.bind fun b => (q.symbols.symbol 12).toOption.bind fun x =>
        (q.symbols.symbol 13).toOption.map fun y =>
          (decide (4 ∈ q.blocks), b.lifted, b.instructions, [x, y].map Symbol.isTemporary,
            [x, y].map Symbol.type)) =
      some (true, true, [.function .caller 10 [], .unary 11 .isZero 10, .copy 12 11,
        .unary 13 .not 12], [true, true], [.bool, .bool]) := by decide +kernel
  obtain ⟨p, q, hp, hq, hall⟩ := lift_hints_truthfully negatedCopy
  simp only [Option.bind_eq_some_iff, Option.map_eq_some_iff, toOption_eq_some, hp,
    Except.ok.injEq, exists_eq_left', hq, List.map_cons, List.map_nil, Prod.mk.injEq,
    List.cons.injEq, and_true, decide_eq_true_eq] at heval
  obtain ⟨b, hb, x, hx, y, hy, hmem, hlifted, hcode, ⟨hxtmp, hytmp⟩, hxtype, hytype⟩ := heval
  obtain ⟨b', hb', htruth⟩ := hall 4 hmem
  cases Except.ok.inj (hb.symm.trans hb')
  refine ⟨p, q, b, hp, hq, hb, hcode, fun I m => ⟨?_, ?_⟩⟩
  · have hplain := htruth hlifted 12 x hx hxtmp hxtype (by simp [hcode]) I m
      [.function .caller 10 [], .unary 11 .isZero 10] _ _ hcode rfl
    rw [hcode] at hplain ⊢
    exact hplain
  · have hplain := htruth hlifted 13 y hy hytmp hytype (by simp [hcode]) I m
      [.function .caller 10 [], .unary 11 .isZero 10, .copy 12 11] _ _ hcode rfl
    rw [hcode] at hplain ⊢
    exact hplain

/-- Whether the sender is zero, complemented. -/
def negatedTest : List Instr := decode [0x33, 0x15, 0x19]

/-- A temporary that is taken to be a truth value, no condition, and never 0 or 1. -/
theorem lift_hints_complements :
    ∃ p q b s, build negatedTest = .ok p ∧ p.run .lift = .ok q ∧ q.block 4 = .ok b ∧
      b.lifted = true ∧ q.symbols.symbol 10 = .ok s ∧ s.isTemporary = true ∧ s.type = .bool ∧
      (∀ target, .condBranch 10 target ∉ b.instructions) ∧ 10 ∈ assigned b.instructions ∧
      ∀ {σ : Type} (I : Environment σ) (m : Machine σ),
        ¬ Word.IsTruth ((m.run I q.symbols b.instructions).values 10) := by
  have heval : (build negatedTest).toOption.bind (fun p => (p.run .lift).toOption.bind fun q =>
      (q.block 4).toOption.bind fun b => (q.symbols.symbol 10).toOption.map fun x =>
        (b.lifted, b.instructions, x.isTemporary, x.type)) =
      some (true, [.function .caller 8 [], .unary 9 .isZero 8, .unary 10 .not 9], true, .bool) := by
    decide +kernel
  simp only [Option.bind_eq_some_iff, Option.map_eq_some_iff, toOption_eq_some,
    Prod.mk.injEq] at heval
  obtain ⟨p, hp, q, hq, b, hb, x, hx, hlifted, hcode, htmp, htype⟩ := heval
  refine ⟨p, q, b, x, hp, hq, hb, hlifted, hx, htmp, htype, ?_, ?_, fun I m => ?_⟩
  · simp [hcode]
  · rw [hcode]
    decide
  · -- The value is the complement of the answer of the test.
    obtain ⟨w, hw⟩ : ∃ w : Word, (m.run I q.symbols b.instructions).values 10 =
        ~~~Word.ofBool (w = 0) := by
      rw [hcode]
      exact ⟨_, rfl⟩
    rw [hw]
    cases hzero : decide (w = 0) with
    | true => decide
    | false => decide

end Program

end EvmFlow
