import EvmFlow.Proofs.BlockDiscipline
import EvmFlow.Proofs.JumpPlacement
import EvmFlow.Proofs.TableHistory

/-!
# What type propagation does to a table

An instruction retypes some of its symbols, and nothing else in the table changes. Constants and
globals are never retyped. The variables of a block belong to it, so that narrowing the types in one
block leaves the variables of other blocks alone.

* `SymbolTable.IsVariable`, `SymbolTable.type?`: symbols that may be retyped, and types;
* `Instruction.retyped`, `SymbolTable.entry?_of_narrow`: what an instruction may retype, and that
  all else stays;
* `SymbolTable.type?_of_narrow_comparison` and its like: the types that instructions ask for;
* `SymbolTable.type?_of_narrow_bool`: what makes a symbol a truth value;
* `Program.NarrowedAt`, **`Program.narrowTypes_cases`**: what becomes of the variables of a block
  when the types in it and in other blocks are narrowed.
-/

namespace EvmFlow

/-! ## One symbol -/

namespace SymbolTable

/-- A symbol that is neither a constant nor a global. -/
def IsVariable (t : SymbolTable) (x : SymbolRef) : Prop :=
  ∃ s, t.symbol x = .ok s ∧ s.isConstant = false ∧ s.isGlobal = false

/-- The type of a symbol. -/
def type? (t : SymbolTable) (x : SymbolRef) : Option TypeHint := (t.entry? x).map (·.symbol.type)

variable {t t' : SymbolTable} {x y z : SymbolRef} {type : TypeHint}

theorem isVariable_congr (h : t'.identity? x = t.identity? x) :
    t'.IsVariable x ↔ t.IsVariable x := by
  have hmono : ∀ {t t' : SymbolTable}, t'.identity? x = t.identity? x → t.IsVariable x →
      t'.IsVariable x := by
    rintro t t' h ⟨s, hs, hconstant, hglobal⟩
    obtain ⟨sc, hid⟩ := identity?_of_symbol hs
    obtain ⟨s', hs', haddress, hkind⟩ := exists_symbol_of_identity? (h.trans hid)
    refine ⟨s', hs', ?_, ?_⟩
    · rw [Symbol.isConstant, Symbol.value?, hkind]
      exact hconstant
    · rw [Symbol.isGlobal, haddress]
      exact hglobal
  exact ⟨hmono h.symm, hmono h⟩

theorem Retypes.isVariable (h : t.Retypes t') : t'.IsVariable x ↔ t.IsVariable x :=
  isVariable_congr (h.identity? x)

theorem IsTemporary.isVariable (h : t.IsTemporary x) : t.IsVariable x := by
  obtain ⟨sc, hid⟩ := h
  obtain ⟨s, hs, haddress, hkind⟩ := exists_symbol_of_identity? hid
  refine ⟨s, hs, ?_, ?_⟩
  · rw [Symbol.isConstant, Symbol.value?, hkind]
    rfl
  · rw [Symbol.isGlobal, haddress]

theorem IsSlot.isVariable {n : NodeId} {slot : Int32} (h : t.IsSlot n slot x) : t.IsVariable x := by
  obtain ⟨s, hs, haddress, hkind⟩ := exists_symbol_of_identity? h
  refine ⟨s, hs, ?_, ?_⟩
  · rw [Symbol.isConstant, Symbol.value?, hkind]
    rfl
  · rw [Symbol.isGlobal, haddress]

theorem not_isVariable_of_label {g : Global} {k : SymbolKind} {sc : Scope}
    (h : t.identity? x = some ⟨.label g, k, sc⟩) : ¬ t.IsVariable x := by
  rintro ⟨s, hs, -, hglobal⟩
  obtain ⟨s', hs', haddress, -⟩ := exists_symbol_of_identity? h
  cases hs.symm.trans hs'
  rw [Symbol.isGlobal, haddress] at hglobal
  cases hglobal

theorem IsConstant.not_isVariable {w : Word} (h : t.IsConstant x w) : ¬ t.IsVariable x := by
  rintro ⟨s, hs, hconstant, -⟩
  obtain ⟨a, sc, hid⟩ := h
  obtain ⟨s', hs', -, hkind⟩ := exists_symbol_of_identity? hid
  cases hs.symm.trans hs'
  rw [Symbol.isConstant, Symbol.value?, hkind] at hconstant
  cases hconstant

/-- Only the symbol in question is retyped, and only if it is a variable. -/
theorem entry?_of_retype (h : t.retype x type = .ok t') (hy : y = x → ¬ t.IsVariable y) :
    t'.entry? y = t.entry? y := by
  obtain ⟨s, hs, h⟩ := bind_eq_ok.mp h
  split at h
  · cases h
    rfl
  · next hvar =>
    rw [Bool.not_eq_true, Bool.or_eq_false_iff] at hvar
    obtain ⟨⟨_, t₁⟩, ht₁, h⟩ := bind_eq_ok.mp h
    cases h
    obtain ⟨e, he, -⟩ := entry?_of_symbol hs
    rw [entry?_replaceType he ht₁, if_neg]
    rintro rfl
    exact hy rfl ⟨s, hs, hvar⟩

theorem type?_of_retype (h : t.retype x type = .ok t') (hx : t.IsVariable x) :
    t'.type? x = some type := by
  obtain ⟨s, hs, h⟩ := bind_eq_ok.mp h
  obtain ⟨s', hs', hconstant, hglobal⟩ := hx
  cases hs.symm.trans hs'
  rw [hconstant, hglobal] at h
  obtain ⟨⟨_, t₁⟩, ht₁, h⟩ := bind_eq_ok.mp h
  cases h
  obtain ⟨e, he, -⟩ := entry?_of_symbol hs
  rw [type?, entry?_replaceType he ht₁, if_pos rfl]
  rfl

theorem entry?_of_retypeLike (h : t.retypeLike x z = .ok t') (hy : y = x → ¬ t.IsVariable y) :
    t'.entry? y = t.entry? y := by
  obtain ⟨s, -, h⟩ := bind_eq_ok.mp h
  exact entry?_of_retype h hy

theorem type?_of_retypeLike (h : t.retypeLike x z = .ok t') (hx : t.IsVariable x) :
    t'.type? x = t.type? z := by
  obtain ⟨s, hs, h⟩ := bind_eq_ok.mp h
  obtain ⟨e, he, rfl⟩ := entry?_of_symbol hs
  rw [type?_of_retype h hx, type?, he]
  rfl

theorem type?_of_symbol {s : Symbol} (h : t.symbol x = .ok s) : t.type? x = some s.type := by
  obtain ⟨e, he, rfl⟩ := entry?_of_symbol h
  rw [type?, he, Option.map_some]

theorem type?_congr (h : t'.entry? x = t.entry? x) : t'.type? x = t.type? x := by
  rw [type?, type?, h]

/-- The model keeps its type. -/
theorem type?_of_retypeLike_model (h : t.retypeLike x z = .ok t') : t'.type? z = t.type? z := by
  by_cases hz : z = x ∧ t.IsVariable z
  · obtain ⟨rfl, hvar⟩ := hz
    exact type?_of_retypeLike h hvar
  · exact type?_congr (entry?_of_retypeLike h fun heq hvar => hz ⟨heq, hvar⟩)

end SymbolTable

/-! ## Instructions -/

/-- The symbols that an instruction may retype. -/
def Instruction.retyped : Instruction → List SymbolRef
  | condBranch condition target => [condition, target]
  | branch target => [target]
  | binary x op y z => if op.isComparison then [x] else [y, z]
  | unary x _ _ | copy x _ => [x]
  | indexedCopy _ _ index | indexedAssign _ index _ => [index]
  | nop | procedure _ _ | function _ _ _ => []

/-- The result that an instruction gives a type. -/
def Instruction.typed? : Instruction → Option SymbolRef
  | binary x op _ _ => if op.isComparison then some x else none
  | unary x _ _ | copy x _ => some x
  | _ => none

theorem Instruction.definition?_of_typed? {i : Instruction} {x : SymbolRef}
    (h : i.typed? = some x) : i.definition? = some x := by
  cases i with
  | binary y op =>
    rw [typed?] at h
    split at h
    · exact h
    · cases h
  | unary | copy => exact h
  | _ => cases h

/-- The result of a comparison. -/
def Instruction.comparison? : Instruction → Option SymbolRef
  | binary x op _ _ | unary x op _ => if op.isComparison then some x else none
  | _ => none

/-- The index of an indexed access. -/
def Instruction.index? : Instruction → Option SymbolRef
  | indexedCopy _ _ index | indexedAssign _ index _ => some index
  | _ => none

theorem Instruction.mem_symbols_of_retyped {i : Instruction} {x : SymbolRef} (h : x ∈ i.retyped) :
    x ∈ i.symbols := by
  cases i with
  | binary y op =>
    rw [retyped] at h
    split at h <;> simp_all [symbols, uses, definition?]
  | _ => simp_all [retyped, symbols, uses, definition?]

namespace SymbolTable

variable {t t' : SymbolTable} {x y : SymbolRef} {i : Instruction} {code : List Instruction}

/-- What an instruction does not retype stays as it is. -/
theorem entry?_of_narrow (h : t.narrow i = .ok t') (hx : x ∈ i.retyped → ¬ t.IsVariable x) :
    t'.entry? x = t.entry? x := by
  cases i with
  | nop | procedure | function =>
    cases h
    rfl
  | branch | indexedCopy | indexedAssign =>
    exact entry?_of_retype h fun hy => hx (List.mem_singleton.mpr hy)
  | copy => exact entry?_of_retypeLike h fun hy => hx (List.mem_singleton.mpr hy)
  | condBranch condition target =>
    obtain ⟨t₁, h₁, h⟩ := bind_eq_ok.mp h
    have hretypes := Program.retypes_of_retype h₁
    have htarget : x = target → ¬ t₁.IsVariable x := fun hy =>
      mt hretypes.isVariable.mp (hx (by simp [hy, Instruction.retyped]))
    rw [entry?_of_retype h htarget,
      entry?_of_retype h₁ fun hy => hx (by simp [hy, Instruction.retyped])]
  | unary y op =>
    rw [narrow] at h
    split at h
    · exact entry?_of_retype h fun hy => hx (List.mem_singleton.mpr hy)
    · exact entry?_of_retypeLike h fun hy => hx (List.mem_singleton.mpr hy)
  | binary y op =>
    rw [narrow] at h
    split at h
    · next hop => exact entry?_of_retype h fun hy => hx (by simp [hy, Instruction.retyped, hop])
    · next hop =>
      obtain ⟨t₁, h₁, h⟩ := bind_eq_ok.mp h
      have hretypes := Program.retypes_of_retypeLike h₁
      rw [entry?_of_retypeLike h fun hy => mt hretypes.isVariable.mp
          (hx (by simp [hy, Instruction.retyped, hop])),
        entry?_of_retypeLike h₁ fun hy => hx (by simp [hy, Instruction.retyped, hop])]

theorem entry?_of_foldlM_narrow (h : code.foldlM narrow t = .ok t')
    (hx : ∀ i ∈ code, x ∈ i.retyped → ¬ t.IsVariable x) : t'.entry? x = t.entry? x := by
  refine (foldlM_ok (P := fun r => t.Retypes r ∧ r.entry? x = t.entry? x) ?_ ⟨.refl t, rfl⟩ h).2
  rintro i hi r r' ⟨hr, hentry⟩ hr'
  refine ⟨hr.trans (Program.retypes_of_narrow hr'), ?_⟩
  rw [entry?_of_narrow hr' fun hmem => mt hr.isVariable.mp (hx i hi hmem), hentry]

/-! ### Types that are asked for -/

theorem type?_of_narrow_comparison (h : t.narrow i = .ok t') (hi : i.comparison? = some x)
    (hx : t.IsVariable x) : t'.type? x = some .bool := by
  cases i with
  | binary y op | unary y op =>
    rw [Instruction.comparison?] at hi
    split at hi
    · next hop =>
      cases hi
      rw [narrow, if_pos hop] at h
      exact type?_of_retype h hx
    · cases hi
  | _ => cases hi

theorem type?_of_narrow_index (h : t.narrow i = .ok t') (hi : i.index? = some x)
    (hx : t.IsVariable x) : t'.type? x = some .pointer := by
  cases i with
  | indexedCopy | indexedAssign =>
    cases hi
    exact type?_of_retype h hx
  | _ => cases hi

theorem type?_of_narrow_target (h : t.narrow i = .ok t') (hi : i.branchTarget? = some x)
    (hx : t.IsVariable x) : t'.type? x = some .pointer := by
  cases i with
  | branch =>
    cases hi
    exact type?_of_retype h hx
  | condBranch =>
    cases hi
    obtain ⟨t₁, h₁, h⟩ := bind_eq_ok.mp h
    exact type?_of_retype h ((Program.retypes_of_retype h₁).isVariable.mpr hx)
  | _ => cases hi

theorem type?_of_narrow_condition {condition target : SymbolRef}
    (h : t.narrow (.condBranch condition target) = .ok t') (hx : t.IsVariable condition)
    (hne : condition ≠ target) : t'.type? condition = some .bool := by
  obtain ⟨t₁, h₁, h⟩ := bind_eq_ok.mp h
  rw [type?_congr (entry?_of_retype h fun heq => absurd heq hne)]
  exact type?_of_retype h₁ hx

theorem type?_of_narrow_copy (h : t.narrow (.copy x y) = .ok t') (hx : t.IsVariable x) :
    t'.type? x = t.type? y := type?_of_retypeLike h hx

theorem type?_of_narrow_unary {op : Operator} (hop : op.isComparison = false)
    (h : t.narrow (.unary x op y) = .ok t') (hx : t.IsVariable x) : t'.type? x = t.type? y := by
  rw [narrow, if_neg (by rw [hop]; exact Bool.false_ne_true)] at h
  exact type?_of_retypeLike h hx

/-- The operands of an operator that is no comparison have the type of its result. -/
theorem type?_of_narrow_operand {op : Operator} {z result : SymbolRef}
    (hop : op.isComparison = false) (h : t.narrow (.binary result op y z) = .ok t')
    (hx : x = y ∨ x = z) (hvar : t.IsVariable x) : t'.type? x = t.type? result := by
  rw [narrow, if_neg (by rw [hop]; exact Bool.false_ne_true)] at h
  obtain ⟨t₁, h₁, h₂⟩ := bind_eq_ok.mp h
  have hvar₁ : t₁.IsVariable x := (Program.retypes_of_retypeLike h₁).isVariable.mpr hvar
  by_cases hz : x = z
  · subst hz
    rw [type?_of_retypeLike h₂ hvar₁, type?_of_retypeLike_model h₁]
  · obtain rfl := hx.resolve_right hz
    rw [type?_congr (entry?_of_retypeLike h₂ fun heq => absurd heq hz), type?_of_retypeLike h₁ hvar]

/-- A truth value that is neither a condition nor a result with a type of its own was one before. An
operand becomes a truth value only if the result of the operator was one already. -/
theorem type?_of_narrow_bool (h : t.narrow i = .ok t') (hx : t'.type? x = some .bool)
    (hresult : i.typed? ≠ some x) (hcondition : ∀ target, i ≠ .condBranch x target)
    (hoperand : ∀ {result op y z}, i = .binary result op y z → op.isComparison = false →
      t.type? result ≠ some .bool) :
    t.type? x = some .bool := by
  by_cases hmem : x ∈ i.retyped ∧ t.IsVariable x
  · exfalso
    obtain ⟨hmem, hvar⟩ := hmem
    cases i with
    | nop | procedure | function => cases hmem
    | branch | indexedCopy | indexedAssign =>
      obtain rfl := List.mem_singleton.mp hmem
      rw [type?_of_retype h hvar] at hx
      cases hx
    | copy | unary =>
      obtain rfl := List.mem_singleton.mp hmem
      exact hresult rfl
    | condBranch condition target =>
      obtain rfl | hmem := List.mem_cons.mp hmem
      · exact hcondition target rfl
      · obtain rfl := List.mem_singleton.mp hmem
        rw [type?_of_narrow_target h rfl hvar] at hx
        cases hx
    | binary result op y z =>
      cases hop : op.isComparison with
      | true =>
        rw [Instruction.retyped, if_pos hop] at hmem
        obtain rfl := List.mem_singleton.mp hmem
        exact hresult (if_pos hop)
      | false =>
        rw [Instruction.retyped, if_neg (by rw [hop]; exact Bool.false_ne_true)] at hmem
        rw [type?_of_narrow_operand hop h (by simpa using hmem) hvar] at hx
        exact hoperand rfl hop hx
  · rw [← type?_congr (entry?_of_narrow h fun hm hv => hmem ⟨hm, hv⟩)]
    exact hx

end SymbolTable

/-! ## Blocks -/

namespace SymbolTable

variable {t t' t'' : SymbolTable} {sc : Scope} {x : SymbolRef}

/-- A symbol that code of a scope may use: it belongs to the scope, unless it is a constant or a
global. -/
def Open (t : SymbolTable) (sc : Scope) (x : SymbolRef) : Prop :=
  t.IsVariable x → t.scope x = .ok sc

/-- The tables agree about what code of a scope may use. -/
def AgreesIn (sc : Scope) (t t' : SymbolTable) : Prop :=
  ∀ ⦃x⦄, t.Open sc x → t'.entry? x = t.entry? x

theorem scope_congr (h : t'.identity? x = t.identity? x) : t'.scope x = t.scope x := by
  by_cases hk : t.Knows x
  · obtain ⟨id, hid⟩ := hk
    rw [scope_of_identity? hid, scope_of_identity? (h.trans hid)]
  · have hk' : ¬ t'.Knows x := fun ⟨id, hid⟩ => hk ⟨id, h.symm.trans hid⟩
    rw [SymbolRecords.scope, SymbolRecords.entry, SymbolRecords.scope, SymbolRecords.entry,
      entry?_eq_none hk, entry?_eq_none hk']

theorem open_congr (h : t'.identity? x = t.identity? x) : t'.Open sc x ↔ t.Open sc x := by
  rw [Open, Open, scope_congr h, isVariable_congr h]

theorem Retypes.open (h : t.Retypes t') : t'.Open sc x ↔ t.Open sc x := open_congr (h.identity? x)

theorem AgreesIn.refl (sc : Scope) (t : SymbolTable) : AgreesIn sc t t := fun _ _ => rfl

theorem AgreesIn.trans (h : AgreesIn sc t t') (h' : AgreesIn sc t' t'') : AgreesIn sc t t'' := by
  intro x hx
  have hx' : t'.Open sc x := (open_congr (identity?_congr (h hx))).mpr hx
  rw [h' hx', h hx]

/-- The variables that the code of a block uses belong to the block. -/
theorem Has.open {slots : List (Int32 × SymbolRef)} (h : t.Has sc slots x) : t.Open sc x := by
  intro hx
  obtain ⟨id, hid, huse⟩ := h
  cases huse with
  | temporary => exact scope_of_identity? hid
  | slot => exact scope_of_identity? hid
  | constant a w sc' => exact absurd hx (IsConstant.not_isVariable ⟨a, sc', hid⟩)
  | label g k sc' => exact absurd hx (not_isVariable_of_label hid)

/-- Narrowing the types in the code of one scope leaves other scopes alone. -/
theorem agreesIn_of_foldlM_narrow {sc' : Scope} {slots : List (Int32 × SymbolRef)}
    {code : List Instruction} (hcode : Orderly t sc' slots code) (hne : sc' ≠ sc)
    (h : code.foldlM narrow t = .ok t') : AgreesIn sc t t' := by
  intro x hx
  refine entry?_of_foldlM_narrow h fun i hi hmem hvar => hne ?_
  have hscope := (hcode.has i hi x (Instruction.mem_symbols_of_retyped hmem)).open hvar
  cases hscope.symm.trans (hx hvar)
  rfl

end SymbolTable

namespace Program

variable {p q : Program} {n : NodeId} {b : BasicBlock} {nodes : List NodeId}

/-- From one table to the next the types in the code of a block are narrowed, once. Types of symbols
that belong to other blocks may change before and after. -/
def NarrowedAt (n : NodeId) (code : List Instruction) (t t' : SymbolTable) : Prop :=
  ∃ u u', t.Retypes u ∧ t.AgreesIn (.block n) u ∧ code.foldlM SymbolTable.narrow u = .ok u' ∧
    u'.Retypes t' ∧ u'.AgreesIn (.block n) t'

theorem narrowBlock_eq_ok : p.narrowBlock n = .ok q ↔ ∃ b t, p.graph.label? n = some b ∧
    b.instructions.foldlM SymbolTable.narrow p.symbols = .ok t ∧ q = { p with symbols := t } := by
  constructor
  · intro h
    obtain ⟨b, hb, h⟩ := bind_eq_ok.mp h
    obtain ⟨t, ht, h⟩ := bind_eq_ok.mp h
    cases h
    exact ⟨b, t, Graph.label_eq_ok.mp hb, ht, rfl⟩
  · rintro ⟨b, t, hb, ht, rfl⟩
    exact bind_eq_ok.mpr ⟨b, Graph.label_eq_ok.mpr hb, bind_eq_ok.mpr ⟨t, ht, rfl⟩⟩

theorem others_of_foldlM_narrowBlock (h : nodes.foldlM narrowBlock p = .ok q) :
    q = { p with symbols := q.symbols } ∧ p.symbols.Retypes q.symbols := by
  refine foldlM_ok (P := fun r : Program => r = { p with symbols := r.symbols } ∧
    p.symbols.Retypes r.symbols) ?_ ⟨rfl, .refl _⟩ h
  rintro n - r r' ⟨hr, hretypes⟩ hr'
  obtain ⟨b, t, -, ht, rfl⟩ := narrowBlock_eq_ok.mp hr'
  refine ⟨?_, hretypes.trans (retypes_of_foldlM_narrow ht)⟩
  rw [hr]

/-- Constants and globals stay as they are. -/
theorem entry?_of_narrowTypes (h : p.narrowTypes nodes = .ok q) {x : SymbolRef}
    (hx : ¬ p.symbols.IsVariable x) : q.symbols.entry? x = p.symbols.entry? x := by
  obtain ⟨found, -, h⟩ := bind_eq_ok.mp h
  refine (foldlM_ok (P := fun r : Program => p.symbols.Retypes r.symbols ∧
    r.symbols.entry? x = p.symbols.entry? x) ?_ ⟨.refl _, rfl⟩ h).2
  rintro n - r r' ⟨hretypes, hentry⟩ hr'
  obtain ⟨b, t, -, ht, rfl⟩ := narrowBlock_eq_ok.mp hr'
  refine ⟨hretypes.trans (retypes_of_foldlM_narrow ht), ?_⟩
  rw [← hentry]
  exact SymbolTable.entry?_of_foldlM_narrow ht fun _ _ _ => mt hretypes.isVariable.mp hx

/-- Blocks whose code is in order. -/
def OrderlyAt (p : Program) (nodes : List NodeId) : Prop :=
  ∀ n ∈ nodes, ∀ b, p.graph.label? n = some b →
    ∃ slots, Orderly p.symbols (.block n) slots b.instructions

theorem OrderlyAt.withSymbols (h : p.OrderlyAt nodes) {t : SymbolTable}
    (ht : p.symbols.Retypes t) : OrderlyAt { p with symbols := t } nodes := by
  intro n hn b hb
  obtain ⟨slots, hcode⟩ := h n hn b hb
  exact ⟨slots, hcode.grows ht.grows id⟩

theorem agreesIn_of_foldlM_narrowBlock (hp : p.OrderlyAt nodes)
    (h : nodes.foldlM narrowBlock p = .ok q) (hn : n ∉ nodes) :
    p.symbols.AgreesIn (.block n) q.symbols := by
  induction nodes generalizing p with
  | nil =>
    cases h
    exact .refl _ _
  | cons m rest ih =>
    rw [List.foldlM_cons] at h
    obtain ⟨r, hr, hrest⟩ := bind_eq_ok.mp h
    obtain ⟨b, t, hb, ht, rfl⟩ := narrowBlock_eq_ok.mp hr
    rw [List.mem_cons, not_or] at hn
    obtain ⟨slots, hcode⟩ := hp m List.mem_cons_self b hb
    have hne : Scope.block m ≠ .block n := by
      intro heq
      cases heq
      exact hn.1 rfl
    have hp' : p.OrderlyAt rest := fun k hk => hp k (List.mem_cons_of_mem _ hk)
    exact (SymbolTable.agreesIn_of_foldlM_narrow hcode hne ht).trans
      (ih (hp'.withSymbols (retypes_of_foldlM_narrow ht)) hrest hn.2)

theorem narrowedAt_of_foldlM_narrowBlock (hp : p.OrderlyAt nodes) (hnodup : nodes.Nodup)
    (h : nodes.foldlM narrowBlock p = .ok q) (hn : n ∈ nodes) (hb : p.graph.label? n = some b) :
    NarrowedAt n b.instructions p.symbols q.symbols := by
  obtain ⟨before, after, rfl⟩ := List.append_of_mem hn
  obtain ⟨hbefore, hafter⟩ : n ∉ before ∧ n ∉ after := by
    rw [List.nodup_append, List.nodup_cons] at hnodup
    exact ⟨fun hmem => hnodup.2.2 n hmem n List.mem_cons_self rfl, hnodup.2.1.1⟩
  rw [List.foldlM_append] at h
  obtain ⟨r₁, h₁, h⟩ := bind_eq_ok.mp h
  rw [List.foldlM_cons] at h
  obtain ⟨r₂, h₂, h₃⟩ := bind_eq_ok.mp h
  have hp₁ : p.OrderlyAt before := fun m hm => hp m (List.mem_append_left _ hm)
  have hp₂ : p.OrderlyAt after := fun m hm =>
    hp m (List.mem_append_right _ (List.mem_cons_of_mem _ hm))
  have hagrees := agreesIn_of_foldlM_narrowBlock hp₁ h₁ hbefore
  obtain ⟨hr₁, hretypes₁⟩ := others_of_foldlM_narrowBlock h₁
  obtain ⟨b', t, hb', ht, rfl⟩ := narrowBlock_eq_ok.mp h₂
  have hretypes₂ := hretypes₁.trans (retypes_of_foldlM_narrow ht)
  obtain ⟨-, hretypes₃⟩ := others_of_foldlM_narrowBlock h₃
  rw [hr₁] at hb' h₃
  cases hb.symm.trans hb'
  exact ⟨_, t, hretypes₁, hagrees, ht, hretypes₃,
    agreesIn_of_foldlM_narrowBlock (hp₂.withSymbols hretypes₂) h₃ hafter⟩

/-- **Narrowing the types in some blocks**: in each that is reachable they are narrowed once, and
the symbols of all other blocks stay as they are. -/
theorem narrowTypes_cases (hp : p.OrderlyAt nodes) {found : List NodeId}
    (hfound : p.reachable = .ok found) (hnodup : found.Nodup) (h : p.narrowTypes nodes = .ok q)
    (n : NodeId) :
    (n ∈ found ∧ n ∈ nodes → ∀ b, p.graph.label? n = some b →
      NarrowedAt n b.instructions p.symbols q.symbols) ∧
    (¬ (n ∈ found ∧ n ∈ nodes) → p.symbols.AgreesIn (.block n) q.symbols) := by
  obtain ⟨found', hfound', h⟩ := bind_eq_ok.mp h
  cases hfound.symm.trans hfound'
  have hmem : ∀ m, m ∈ found.filter (Std.TreeSet.ofList nodes : NodeSet).contains ↔
      m ∈ found ∧ m ∈ nodes := fun m => by
    rw [List.mem_filter]
    simp [Std.TreeSet.contains_ofList]
  have hp' : p.OrderlyAt (found.filter (Std.TreeSet.ofList nodes : NodeSet).contains) :=
    fun m hm => hp m ((hmem m).mp hm).2
  constructor
  · intro hn b hb
    exact narrowedAt_of_foldlM_narrowBlock hp' (hnodup.filter _) h ((hmem n).mpr hn) hb
  · intro hn
    exact agreesIn_of_foldlM_narrowBlock hp' h (mt (hmem n).mp hn)

end Program

end EvmFlow
