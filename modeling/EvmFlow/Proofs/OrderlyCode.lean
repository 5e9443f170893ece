import EvmFlow.Proofs.FlatSimulation

/-!
# Code that assigns before it reads

The code that a stack model makes of a block is in order: a temporary is assigned once, before it is
read, and all symbols are temporaries and entry slots of the block, constants or globals. Whether
this holds has nothing to do with the words on the stack, so the laws of the models are shown for
relations that do not mention the machine.

* `Identity.Usable`: the symbols that the code of a block may use;
* `Orderly`, `Ready`, `Pending`: code in order, symbols that may be read and symbols that may be
  assigned, with the effect of one more instruction (`Orderly.concat`);
* `FlatStack.InOrder`, `FlatStack.orderSimulation`: the laws of the flat model, for this relation;
* **`FlatStack.orderly_lowerAll`**: flat code is in order.
-/

namespace EvmFlow

open Stateful

/-! ## Symbols that code may use -/

/-- What the symbol `x` may be in the code of a scope: a temporary of the scope, the one symbol of
an entry slot, or any constant or global. -/
inductive Identity.Usable (sc : Scope) (slots : List (Int32 × SymbolRef)) (x : SymbolRef) :
    Identity → Prop
  | temporary : Usable sc slots x ⟨.temporary, .var, sc⟩
  | slot {slot : Int32} :
      slots.lookup slot = some x → Usable sc slots x ⟨.stackSlot slot, .var, sc⟩
  | constant (a : Address) (w : Word) (sc' : Scope) : Usable sc slots x ⟨a, .constant w, sc'⟩
  | label (g : Global) (k : SymbolKind) (sc' : Scope) : Usable sc slots x ⟨.label g, k, sc'⟩

/-- The symbols that an instruction assigns or reads. -/
def Instruction.symbols (i : Instruction) : List SymbolRef := i.definition?.toList ++ i.uses

/-- The symbols that code assigns, in order. -/
def assigned (code : List Instruction) : List SymbolRef := code.filterMap Instruction.definition?

theorem assigned_cons (i : Instruction) (code : List Instruction) :
    assigned (i :: code) = i.definition?.toList ++ assigned code := by
  cases h : i.definition? <;> simp [assigned, h]

theorem assigned_concat (code : List Instruction) (i : Instruction) :
    assigned (code ++ [i]) = assigned code ++ i.definition?.toList := by
  rw [assigned, List.filterMap_append, assigned]
  cases h : i.definition? <;> simp [h]

theorem mem_assigned {code : List Instruction} {x : SymbolRef} :
    x ∈ assigned code ↔ ∃ i ∈ code, i.definition? = some x := List.mem_filterMap

namespace SymbolTable

/-- A known symbol that the code of a scope may use. -/
def Has (t : SymbolTable) (sc : Scope) (slots : List (Int32 × SymbolRef)) (x : SymbolRef) : Prop :=
  ∃ id, t.identity? x = some id ∧ id.Usable sc slots x

variable {t t' : SymbolTable} {sc : Scope} {slots slots' : List (Int32 × SymbolRef)}
  {x : SymbolRef}

theorem Has.knows (h : t.Has sc slots x) : t.Knows x := by
  obtain ⟨id, hid, -⟩ := h
  exact ⟨id, hid⟩

theorem Has.grows (h : t.Has sc slots x) (hg : t.Grows t')
    (hslots : ∀ {k y}, slots.lookup k = some y → slots'.lookup k = some y) :
    t'.Has sc slots' x := by
  obtain ⟨id, hid, huse⟩ := h
  refine ⟨id, hg.identity hid, ?_⟩
  cases huse with
  | temporary => exact .temporary
  | slot hk => exact .slot (hslots hk)
  | constant a w sc' => exact .constant a w sc'
  | label g k sc' => exact .label g k sc'

theorem IsConstant.has {w : Word} (h : t.IsConstant x w) : t.Has sc slots x := by
  obtain ⟨a, sc', hid⟩ := h
  exact ⟨_, hid, .constant a w sc'⟩

theorem Consistent.not_isTemporary_of_isGlobal (ht : t.Consistent) {g : Global}
    (h : t.IsGlobal g x) : ¬ t.IsTemporary x := by
  obtain ⟨sc', hid⟩ := ht.global h
  rintro ⟨sc'', htmp⟩
  rw [hid] at htmp
  cases htmp

theorem Consistent.has_of_isGlobal (ht : t.Consistent) {g : Global} (h : t.IsGlobal g x) :
    t.Has sc slots x := by
  obtain ⟨sc', hid⟩ := ht.global h
  exact ⟨_, hid, .label g _ sc'⟩

end SymbolTable

/-! ## Code in order -/

section Order

variable (t : SymbolTable) (sc : Scope) (slots : List (Int32 × SymbolRef))
  (code : List Instruction)

/-- A temporary is read only after it was assigned and is assigned once, calls answer in
temporaries, and every symbol is known and may be used. -/
structure Orderly : Prop where
  has : ∀ i ∈ code, ∀ x ∈ i.symbols, t.Has sc slots x
  earlier : ∀ {before i after}, code = before ++ i :: after → ∀ x ∈ i.uses, t.IsTemporary x →
    x ∈ assigned before
  once : ∀ x, t.IsTemporary x → (assigned code).count x ≤ 1
  call : ∀ {g x parameters}, .function g x parameters ∈ code → t.IsTemporary x

/-- A symbol that may be read next. -/
structure Ready (x : SymbolRef) : Prop where
  has : t.Has sc slots x
  assigned : t.IsTemporary x → x ∈ assigned code

/-- A temporary that may be assigned next. -/
structure Pending (x : SymbolRef) : Prop where
  identity : t.identity? x = some ⟨.temporary, .var, sc⟩
  unassigned : x ∉ assigned code

end Order

section Order

variable {t t' : SymbolTable} {sc : Scope} {slots slots' : List (Int32 × SymbolRef)}
  {code : List Instruction} {i : Instruction} {x : SymbolRef}

theorem orderly_nil : Orderly t sc slots [] where
  has i hi := by cases hi
  earlier h := by simp at h
  once x _ := Nat.zero_le _
  call h := by cases h

theorem Pending.has (h : Pending t sc code x) : t.Has sc slots x := ⟨_, h.identity, .temporary⟩

theorem Pending.grows (h : Pending t sc code x) (hg : t.Grows t') : Pending t' sc code x :=
  ⟨hg.identity h.identity, h.unassigned⟩

theorem Ready.grows (h : Ready t sc slots code x) (hg : t.Grows t')
    (hslots : ∀ {k y}, slots.lookup k = some y → slots'.lookup k = some y) :
    Ready t' sc slots' code x :=
  ⟨h.has.grows hg hslots, fun htmp => h.assigned (hg.isTemporary_of_knows h.has.knows htmp)⟩

theorem Ready.concat (h : Ready t sc slots code x) (i : Instruction) :
    Ready t sc slots (code ++ [i]) x :=
  ⟨h.has, fun htmp => by
    rw [assigned_concat]
    exact List.mem_append_left _ (h.assigned htmp)⟩

/-- A symbol that was just assigned may be read. -/
theorem Ready.of_definition? (hx : t.Has sc slots x) (hi : i.definition? = some x) :
    Ready t sc slots (code ++ [i]) x :=
  ⟨hx, fun _ => by simp [assigned_concat, hi]⟩

theorem ready_of_isConstant {w : Word} (h : t.IsConstant x w) : Ready t sc slots code x :=
  ⟨h.has, fun htmp => absurd h htmp.not_isConstant⟩

theorem ready_of_isGlobal (ht : t.Consistent) {g : Global} (h : t.IsGlobal g x) :
    Ready t sc slots code x :=
  ⟨ht.has_of_isGlobal h, fun htmp => absurd htmp (ht.not_isTemporary_of_isGlobal h)⟩

theorem Orderly.has_of_mem_assigned (h : Orderly t sc slots code) (hx : x ∈ assigned code) :
    t.Has sc slots x := by
  obtain ⟨i, hi, hdef⟩ := mem_assigned.mp hx
  refine h.has i hi x (List.mem_append_left _ ?_)
  rw [hdef]
  exact List.mem_singleton_self x

/-- A fresh symbol is not assigned. -/
theorem Orderly.not_mem_assigned (h : Orderly t sc slots code) (hx : ¬ t.Knows x) :
    x ∉ assigned code := fun hmem => hx (h.has_of_mem_assigned hmem).knows

/-- A temporary is assigned at one place only. -/
theorem Orderly.unassigned {before after : List Instruction} (h : Orderly t sc slots code)
    (hcode : code = before ++ i :: after) (hx : i.definition? = some x) (htmp : t.IsTemporary x) :
    x ∉ assigned before ∧ x ∉ assigned after := by
  have honce := h.once x htmp
  rw [hcode, assigned, List.filterMap_append, List.filterMap_cons_some hx, List.count_append,
    List.count_cons_self] at honce
  constructor
  · intro hmem
    have hpos : 0 < (assigned before).count x := List.count_pos_iff.mpr hmem
    rw [assigned] at hpos
    omega
  · intro hmem
    have hpos : 0 < (assigned after).count x := List.count_pos_iff.mpr hmem
    rw [assigned] at hpos
    omega

theorem Orderly.grows (h : Orderly t sc slots code) (hg : t.Grows t')
    (hslots : ∀ {k y}, slots.lookup k = some y → slots'.lookup k = some y) :
    Orderly t' sc slots' code where
  has i hi x hx := (h.has i hi x hx).grows hg hslots
  earlier {before i after} hcode x hx htmp := by
    refine h.earlier hcode x hx (hg.isTemporary_of_knows ?_ htmp)
    refine (h.has i (by simp [hcode]) x ?_).knows
    exact List.mem_append_right _ hx
  once x htmp := by
    by_cases hx : x ∈ assigned code
    · exact h.once x (hg.isTemporary_of_knows (h.has_of_mem_assigned hx).knows htmp)
    · rw [List.count_eq_zero_of_not_mem hx]
      exact Nat.zero_le 1
  call hi := (h.call hi).grows hg

/-- **One more instruction**: it may read what is ready, and assign what is pending or, if it is no
call, no temporary at all. -/
theorem Orderly.concat (h : Orderly t sc slots code)
    (hdef : ∀ x ∈ i.definition?, t.Has sc slots x ∧ (t.IsTemporary x → x ∉ assigned code))
    (hcall : ∀ {g x parameters}, i = .function g x parameters → t.IsTemporary x)
    (huses : ∀ x ∈ i.uses, Ready t sc slots code x) : Orderly t sc slots (code ++ [i]) where
  has j hj x hx := by
    rcases List.mem_append.mp hj with hj | hj
    · exact h.has j hj x hx
    · obtain rfl := List.mem_singleton.mp hj
      rcases List.mem_append.mp hx with hx | hx
      · exact (hdef x (Option.mem_toList.mp hx)).1
      · exact (huses x hx).has
  earlier {before j after} hcode x hx htmp := by
    rcases List.eq_nil_or_concat after with rfl | ⟨after, k, rfl⟩
    · obtain ⟨rfl, hji⟩ := List.append_inj' hcode rfl
      cases hji
      exact (huses x hx).assigned htmp
    · rw [List.concat_eq_append, ← List.cons_append, ← List.append_assoc] at hcode
      obtain ⟨hcode, -⟩ := List.append_inj' hcode rfl
      exact h.earlier hcode x hx htmp
  once x htmp := by
    have hold := h.once x htmp
    rw [assigned_concat, List.count_append]
    cases hd : i.definition? with
    | none => simpa using hold
    | some y =>
      by_cases hxy : y = x
      · subst hxy
        rw [List.count_eq_zero_of_not_mem ((hdef y hd).2 htmp)]
        simp
      · simpa [List.count_singleton, hxy] using hold
  call hi := by
    rcases List.mem_append.mp hi with hi | hi
    · exact h.call hi
    · exact hcall (List.mem_singleton.mp hi).symm

end Order

section Uses

variable {i : Instruction} {P : SymbolRef → Prop} {ws : List Word}

theorem forall_of_forall₂ {xs : List SymbolRef} (h : List.Forall₂ (fun x _ => P x) xs ws) :
    ∀ x ∈ xs, P x := by
  induction h with
  | nil => exact fun _ hx => by cases hx
  | cons hx _ ih => exact List.forall_mem_cons.mpr ⟨hx, ih⟩

theorem Instruction.forall_uses (hops : List.Forall₂ (fun x _ => P x) i.operands ws)
    (hbase : ∀ x ∈ i.base?, P x) : ∀ x ∈ i.uses, P x := by
  intro x hx
  rw [Instruction.uses_eq] at hx
  rcases List.mem_append.mp hx with hx | hx
  · exact hbase x (Option.mem_toList.mp hx)
  · exact forall_of_forall₂ hops x hx

/-- Indexed accesses are actions. -/
theorem Instruction.base?_eq_none (h : ∀ region, i.action? region = none) : i.base? = none := by
  cases i with
  | indexedAssign | indexedCopy => cases h fun _ => .pointer 0
  | _ => rfl

theorem Instruction.mem_uses_of_branchTarget? {x : SymbolRef} (h : i.branchTarget? = some x) :
    x ∈ i.uses := by
  cases i <;> simp_all [branchTarget?, uses]

end Uses

/-! ## Flat code -/

namespace FlatStack

variable {sc : Scope} {s s' : FlatStack} {x y : SymbolRef} {i : Instruction}

/-- The code so far is in order, and new temporaries belong to the scope `sc`. -/
structure InOrder (sc : Scope) (s : FlatStack) : Prop where
  consistent : s.symbols.Consistent
  scope : s.scope = sc
  code : Orderly s.symbols sc [] s.out.toList

/-- A symbol that the next instruction may read. -/
abbrev Readable (sc : Scope) (s : FlatStack) (x : SymbolRef) : Prop :=
  Ready s.symbols sc [] s.out.toList x

/-- A temporary that the next instruction may assign. -/
abbrev Assignable (sc : Scope) (s : FlatStack) (x : SymbolRef) : Prop :=
  Pending s.symbols sc s.out.toList x

theorem InOrder.adds (h : s.InOrder sc) (ha : s.Adds s') : s'.InOrder sc := by
  refine ⟨ha.consistent, ha.scope.trans h.scope, ?_⟩
  rw [ha.out]
  exact h.code.grows ha.grows id

theorem Readable.adds (hx : s.Readable sc x) (ha : s.Adds s') : s'.Readable sc x := by
  rw [Readable, ha.out]
  exact hx.grows ha.grows id

theorem Assignable.adds (hx : s.Assignable sc x) (ha : s.Adds s') : s'.Assignable sc x := by
  rw [Assignable, ha.out]
  exact hx.grows ha.grows

theorem Readable.emitted (hx : s.Readable sc x) (i : Instruction) :
    (s.emitted i).Readable sc x := by
  rw [Readable, FlatStack.emitted, Array.toList_push]
  exact hx.concat i

theorem Assignable.readable (hx : s.Assignable sc x) (hi : i.definition? = some x) :
    (s.emitted i).Readable sc x := by
  rw [Readable, FlatStack.emitted, Array.toList_push]
  exact .of_definition? hx.has hi

theorem InOrder.emitted (h : s.InOrder sc)
    (hdef : ∀ x ∈ i.definition?,
      s.Assignable sc x ∨ (∃ g, s.symbols.IsGlobal g x) ∧ ∀ g ps, i ≠ .function g x ps)
    (huses : ∀ x ∈ i.uses, s.Readable sc x) : (s.emitted i).InOrder sc := by
  refine ⟨h.consistent, h.scope, ?_⟩
  rw [FlatStack.emitted, Array.toList_push]
  refine h.code.concat (fun x hx => ?_) (fun {g x ps} hi => ?_) huses
  · rcases hdef x hx with hpending | ⟨⟨g, hg⟩, -⟩
    · exact ⟨hpending.has, fun _ => hpending.unassigned⟩
    · exact ⟨h.consistent.has_of_isGlobal hg,
        fun htmp => absurd htmp (h.consistent.not_isTemporary_of_isGlobal hg)⟩
  · rcases hdef x (by rw [hi]; rfl) with hpending | ⟨-, hno⟩
    · exact ⟨_, hpending.identity⟩
    · exact absurd hi (hno g ps)

theorem InOrder.readable_global (h : s.InOrder sc) {g : Global} (hg : s.symbols.IsGlobal g x) :
    s.Readable sc x := ready_of_isGlobal h.consistent hg

theorem InOrder.temporary (h : s.InOrder sc) : ∃ x s', Yields Flat.temporary s x s' ∧
    s.Adds s' ∧ s'.InOrder sc ∧ s'.Assignable sc x := by
  obtain ⟨x, s', hx, hadd, hnew, -⟩ := Flat.yields_temporary h.consistent
  have hid : s'.symbols.identity? x = some ⟨.temporary, .var, s.scope⟩ := by
    cases hx
    exact SymbolTable.identity?_insert_self _ _ _
  refine ⟨x, s', hx, hadd, h.adds hadd, ?_, ?_⟩
  · rw [hid, h.scope]
  · rw [hadd.out]
    exact h.code.not_mem_assigned hnew

/-! ### Parts of the operations -/

theorem InOrder.step (h : s.InOrder sc) (op : Operator) : ∃ s', Yields (Flat.step op) s () s' ∧
    s'.InOrder sc ∧ ∀ {y}, s.Readable sc y → s'.Readable sc y := by
  obtain ⟨height, s₁, hheight, hadd₁, hg⟩ := Flat.yields_global .stackHeight h.consistent
  obtain ⟨one, s₂, hone, hadd₂, hc⟩ := Flat.yields_constant _ .pointer hadd₁.consistent
  have hadd := hadd₁.trans hadd₂
  have hg₂ := hg.grows hadd₂.grows
  have hread := (h.adds hadd).readable_global hg₂
  refine ⟨s₂.emitted (.binary height op height one),
    yields_bind hheight (yields_bind hone (Flat.yields_emit s₂ _)),
    (h.adds hadd).emitted (fun x hx => ?_) (fun x hx => ?_), fun hy => (hy.adds hadd).emitted _⟩
  · cases hx
    exact .inr ⟨⟨_, hg₂⟩, nofun⟩
  · rcases List.mem_cons.mp hx with rfl | hx
    · exact hread
    · obtain rfl := List.mem_singleton.mp hx
      exact ready_of_isConstant hc

theorem InOrder.load (h : s.InOrder sc) {index : SymbolRef} (hindex : s.Readable sc index) :
    ∃ x s', Yields (Flat.load index) s x s' ∧ s'.InOrder sc ∧ s'.Readable sc x ∧
      s.symbols.Grows s'.symbols ∧ ∀ {y}, s.Readable sc y → s'.Readable sc y := by
  obtain ⟨x, s₁, hx, hadd₁, h₁, hpending⟩ := h.temporary
  obtain ⟨stack, s₂, hstack, hadd₂, hg⟩ := Flat.yields_global .stack h₁.consistent
  have hadd := hadd₁.trans hadd₂
  have h₂ := h₁.adds hadd₂
  have hpending₂ : s₂.Assignable sc x := hpending.adds hadd₂
  refine ⟨x, s₂.emitted (.indexedCopy x stack index),
    yields_bind hx (yields_bind hstack (yields_bind (Flat.yields_emit s₂ _) (yields_pure x _))),
    h₂.emitted (fun y hy => ?_) (fun y hy => ?_), hpending₂.readable rfl, hadd.grows,
    fun hy => (hy.adds hadd).emitted _⟩
  · cases hy
    exact .inl hpending₂
  · rcases List.mem_cons.mp hy with rfl | hy
    · exact h₂.readable_global hg
    · obtain rfl := List.mem_singleton.mp hy
      exact hindex.adds hadd

theorem InOrder.indexOf (h : s.InOrder sc) (n : Nat) :
    ∃ x s', Yields (Flat.indexOf n) s x s' ∧ s'.InOrder sc ∧ s'.Readable sc x ∧
      s.symbols.Grows s'.symbols ∧ ∀ {y}, s.Readable sc y → s'.Readable sc y := by
  obtain ⟨x, s₁, hx, hadd₁, h₁, hpending⟩ := h.temporary
  obtain ⟨height, s₂, hheight, hadd₂, hg⟩ := Flat.yields_global .stackHeight h₁.consistent
  obtain ⟨depth, s₃, hdepth, hadd₃, hc⟩ := Flat.yields_constant _ .pointer hadd₂.consistent
  have hadd := (hadd₁.trans hadd₂).trans hadd₃
  have h₃ := h.adds hadd
  have hpending₃ : s₃.Assignable sc x := (hpending.adds hadd₂).adds hadd₃
  refine ⟨x, s₃.emitted (.binary x .sub height depth),
    yields_bind hx (yields_bind hheight (yields_bind hdepth (yields_bind (Flat.yields_emit s₃ _)
      (yields_pure x _)))), h₃.emitted (fun y hy => ?_) (fun y hy => ?_), hpending₃.readable rfl,
    hadd.grows, fun hy => (hy.adds hadd).emitted _⟩
  · cases hy
    exact .inl hpending₃
  · rcases List.mem_cons.mp hy with rfl | hy
    · exact h₃.readable_global (hg.grows hadd₃.grows)
    · obtain rfl := List.mem_singleton.mp hy
      exact ready_of_isConstant hc

/-- Stores into the array of the stack. -/
theorem InOrder.store (h : s.InOrder sc) {stack index : SymbolRef}
    (hstack : s.symbols.IsGlobal .stack stack) (hindex : s.Readable sc index)
    (hx : s.Readable sc x) : (s.emitted (.indexedAssign stack index x)).InOrder sc := by
  refine h.emitted (fun y hy => by cases hy) ?_
  exact List.forall_mem_cons.mpr ⟨h.readable_global hstack,
    List.forall_mem_cons.mpr ⟨hindex, List.forall_mem_singleton.mpr hx⟩⟩

/-! ### The operations -/

theorem InOrder.pop (h : s.InOrder sc) : ∃ x s', Yields Flat.pop s x s' ∧ s'.InOrder sc ∧
    s'.Readable sc x ∧ ∀ {y}, s.Readable sc y → s'.Readable sc y := by
  obtain ⟨s₁, hstep, h₁, hkeep₁⟩ := h.step .sub
  obtain ⟨height, s₂, hheight, hadd, hg⟩ := Flat.yields_global .stackHeight h₁.consistent
  have h₂ := h₁.adds hadd
  obtain ⟨x, s₃, hx, h₃, hread, -, hkeep₃⟩ := h₂.load (h₂.readable_global hg)
  exact ⟨x, s₃, yields_bind hstep (yields_bind hheight hx), h₃, hread,
    fun hy => hkeep₃ ((hkeep₁ hy).adds hadd)⟩

theorem InOrder.push (h : s.InOrder sc) (hx : s.Readable sc x) :
    ∃ s', Yields (Flat.push x) s () s' ∧ s'.InOrder sc := by
  obtain ⟨stack, s₁, hstack, hadd₁, hg⟩ := Flat.yields_global .stack h.consistent
  obtain ⟨height, s₂, hheight, hadd₂, hgh⟩ := Flat.yields_global .stackHeight hadd₁.consistent
  have hadd := hadd₁.trans hadd₂
  have h₂ := h.adds hadd
  have h₃ := h₂.store (hg.grows hadd₂.grows) (h₂.readable_global hgh) (hx.adds hadd)
  obtain ⟨s₄, hstep, h₄, -⟩ := h₃.step .add
  exact ⟨s₄, yields_bind hstack (yields_bind hheight (yields_bind (Flat.yields_emit s₂ _) hstep)),
    h₄⟩

theorem InOrder.dup (h : s.InOrder sc) (n : Nat) :
    ∃ s', Yields (Flat.dup n) s () s' ∧ s'.InOrder sc := by
  obtain ⟨index, s₁, hindex, h₁, hread₁, -⟩ := h.indexOf n
  obtain ⟨x, s₂, hx, h₂, hread₂, -⟩ := h₁.load hread₁
  obtain ⟨s₃, hpush, h₃⟩ := h₂.push hread₂
  exact ⟨s₃, yields_bind hindex (yields_bind hx hpush), h₃⟩

theorem InOrder.swap (h : s.InOrder sc) (n : Nat) :
    ∃ s', Yields (Flat.swap n) s () s' ∧ s'.InOrder sc := by
  obtain ⟨stack, s₁, hstack, hadd, hg⟩ := Flat.yields_global .stack h.consistent
  obtain ⟨top, s₂, htop, h₂, hread₂, hgrow₂, -⟩ := (h.adds hadd).indexOf 1
  obtain ⟨other, s₃, hother, h₃, hread₃, hgrow₃, hkeep₃⟩ := h₂.indexOf (n + 1)
  obtain ⟨a, s₄, ha, h₄, hread₄, hgrow₄, hkeep₄⟩ := h₃.load (hkeep₃ hread₂)
  obtain ⟨b, s₅, hb, h₅, hread₅, hgrow₅, hkeep₅⟩ := h₄.load (hkeep₄ hread₃)
  have hg₅ := hg.grows (((hgrow₂.trans hgrow₃).trans hgrow₄).trans hgrow₅)
  have h₆ := h₅.store hg₅ (hkeep₅ (hkeep₄ (hkeep₃ hread₂))) hread₅
  have h₇ := h₆.store hg₅ ((hkeep₅ (hkeep₄ hread₃)).emitted _) ((hkeep₅ hread₄).emitted _)
  exact ⟨_, yields_bind hstack (yields_bind htop (yields_bind hother (yields_bind ha
    (yields_bind hb (yields_bind (Flat.yields_emit s₅ _) (Flat.yields_emit _ _)))))), h₇⟩

/-- A temporary that may be assigned, and all that could be read before can still be read. -/
structure Unassigned (sc : Scope) (s₀ s : FlatStack) (x : SymbolRef) : Prop where
  pending : s.Assignable sc x
  readable : ∀ {y}, s₀.Readable sc y → s.Readable sc y

theorem InOrder.assign {s₀ : FlatStack} {ws : List Word} (h : s.InOrder sc)
    (hx : Unassigned sc s₀ s x) (hdef : i.definition? = some x)
    (hbase : ∀ y ∈ i.base?, ∃ g, s.symbols.IsGlobal g y)
    (hops : List.Forall₂ (fun y _ => s₀.Readable sc y) i.operands ws) :
    (s.emitted i).InOrder sc ∧ (s.emitted i).Readable sc x := by
  refine ⟨h.emitted (fun y hy => ?_) ?_, hx.pending.readable hdef⟩
  · rw [hdef] at hy
    cases hy
    exact .inl hx.pending
  · refine Instruction.forall_uses (hops.imp fun _ _ hy => hx.readable hy) fun y hy => ?_
    obtain ⟨g, hg⟩ := hbase y hy
    exact h.readable_global hg

/-- The laws of the model, for the order of its code. -/
def orderSimulation {σ : Type} (sc : Scope) (I : Environment σ) (bound : Nat) :
    Simulation Flat I bound where
  Rel s _ := s.InOrder sc
  Holds s x _ := s.Readable sc x
  Fit s x _ := s.Readable sc x
  Names s x g := s.symbols.IsGlobal g x
  Fresh := Unassigned sc
  pop h _ := by
    obtain ⟨x, s', hx, h', hread, hkeep⟩ := h.pop
    exact ⟨x, s', hx, h', hread, fun hy => hkeep hy⟩
  push h _ hx := h.push hx
  drop h _ := by
    obtain ⟨s', hstep, h', -⟩ := h.step .sub
    exact ⟨s', hstep, h'⟩
  dup h _ _ _ := h.dup _
  swap h _ _ := h.swap _
  constant w type h := by
    obtain ⟨x, s', hx, hadd, hc⟩ := Flat.yields_constant w type h.consistent
    exact ⟨x, s', hx, h.adds hadd, ready_of_isConstant hc⟩
  fold _ h _ := ⟨none, _, yields_pure none _, h, id, fun _ hx => by cases hx⟩
  global g h := by
    obtain ⟨x, s', hx, hadd, hg⟩ := Flat.yields_global g h.consistent
    exact ⟨x, s', hx, h.adds hadd, hg, fun hy => hy.adds hadd,
      fun hf => ⟨hf.pending.adds hadd, fun hy => (hf.readable hy).adds hadd⟩⟩
  temporary h := by
    obtain ⟨x, s', hx, hadd, h', hpending⟩ := h.temporary
    exact ⟨x, s', hx, h', hpending, fun hy => hy.adds hadd⟩
  act region h hdef _ hbase hops := by
    refine ⟨_, Flat.yields_emit _ _, h.emitted (fun y hy => ?_) ?_⟩
    · rw [hdef] at hy
      cases hy
    · refine Instruction.forall_uses hops fun y hy => ?_
      obtain ⟨g, hg, -⟩ := hbase y hy
      exact h.readable_global hg
  assignAct region h hx hdef _ hbase hops :=
    ⟨_, Flat.yields_emit _ _, h.assign hx hdef
      (fun y hy => (hbase y hy).imp fun _ hg => hg.1) hops⟩
  assign h hx hdef hact hops :=
    ⟨_, Flat.yields_emit _ _, h.assign hx hdef
      (fun y hy => by rw [Instruction.base?_eq_none hact] at hy; cases hy) hops⟩

/-- **Flat code is in order**, and has no entry slots. -/
theorem orderly_lowerAll {t : SymbolTable} (ht : t.Consistent) (sc : Scope) (code : List Located) :
    Orderly (lowerAll t sc code).2.symbols sc [] (lowerAll t sc code).2.out.toList := by
  have hstart : InOrder sc { symbols := t, scope := sc } := ⟨ht, rfl, orderly_nil⟩
  -- The words do not matter, so it is enough that there is some run of the instructions.
  obtain ⟨_, e, e', hrun⟩ := Evm.exists_some_run code
  obtain ⟨s, hyields, h⟩ := (orderSimulation sc _ _).lowerCode hstart (Nat.le_refl _) hrun
  have hall : lowerAll t sc code = (_, s) := hyields
  rw [hall]
  exact h.code

end FlatStack

end EvmFlow
