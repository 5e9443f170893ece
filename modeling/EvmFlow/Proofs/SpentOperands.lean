import EvmFlow.Proofs.LiftedSimulation
import EvmFlow.Proofs.NarrowedTypes

/-!
# Operands are used up

What an instruction of lifted code takes from the stack it uses up: unless it is a constant, no
later instruction mentions it, and it is not left on the stack. Only a copy leaves its source where
it is. An operand from the entry stack is known by its slot, and slots have 32 bits, so this holds
as long as no more than `2 ^ 32` entries of the entry stack are in reach.

* `Instruction.spends`: the operands that an instruction uses up;
* `LiftedStack.Spent`, `LiftedStack.Gone`, `LiftedStack.Loose`: symbols that are used up, symbols
  that are not on the stack any more, and operands of the next instruction;
* `LiftedStack.Thrifty`: the invariant, with one lemma for each operation;
* `LiftedStack.thriftySimulation`: the laws of the model, for this relation;
* `Lifted.Apart`: the condition and the target of a branch are different;
* **`LiftedStack.exists_thrifty`**: lifted code uses its operands up.
-/

namespace EvmFlow

open Stateful

/-- The operands that an instruction uses up: those of all instructions but copies. -/
def Instruction.spends : Instruction → List SymbolRef
  | copy _ _ => []
  | i => i.operands

theorem Instruction.mem_operands_of_spends {i : Instruction} {x : SymbolRef} (h : x ∈ i.spends) :
    x ∈ i.operands := by
  cases i with
  | copy => cases h
  | _ => exact h

theorem Instruction.mem_symbols_of_spends {i : Instruction} {x : SymbolRef} (h : x ∈ i.spends) :
    x ∈ i.symbols := by
  rw [symbols, uses_eq]
  exact List.mem_append_right _ (List.mem_append_right _ (mem_operands_of_spends h))

/-- An instruction retypes its result or what it uses up. -/
theorem Instruction.mem_spends_of_retyped {i : Instruction} {x : SymbolRef} (h : x ∈ i.retyped) :
    i.definition? = some x ∨ x ∈ i.spends := by
  cases i with
  | binary y op =>
    rw [retyped] at h
    split at h <;> simp_all [spends, operands, definition?]
  | _ => simp_all [retyped, spends, operands, definition?]

namespace LiftedStack

variable {t : SymbolTable} {n : NodeId} {s s' : LiftedStack} {x y : SymbolRef} {i : Instruction}
  {depth : Nat}

/-! ## Symbols that are used up -/

/-- A variable that the code so far has used up. -/
def Spent (s : LiftedStack) (x : SymbolRef) : Prop :=
  s.symbols.IsVariable x ∧ ∃ i ∈ s.out, x ∈ i.spends

/-- A symbol that is on the stack no more. -/
structure Gone (s : LiftedStack) (x : SymbolRef) : Prop where
  notOnStack : x ∉ s.stack
  detached : s.Detached x

/-- What the next instruction may use up: a constant, or a variable that has been taken from the
stack and not been used up since. -/
def Loose (s : LiftedStack) (x : SymbolRef) : Prop :=
  (∃ w, s.symbols.IsConstant x w) ∨ s.symbols.IsVariable x ∧ s.Gone x ∧ ¬ s.Spent x

/-- The code so far uses its operands up. The machine has `depth` words on its stack, and so many of
them are from the entry stack that all slots are different. -/
structure Thrifty (s : LiftedStack) (depth : Nat) : Prop where
  room : depth + s.borrows ≤ s.stack.length + 2 ^ 32
  gone : ∀ x, s.Spent x → s.Gone x
  plain : ∀ i ∈ s.out, ∀ x ∈ i.spends,
    (∃ w, s.symbols.IsConstant x w) ∨ s.symbols.IsVariable x
  once : s.out.toList.Pairwise fun i j => ∀ x ∈ i.spends, s.symbols.IsVariable x → x ∉ j.symbols

/-! ## Changes of the state -/

section Changes

theorem InOrder.isVariable_iff (hr : s.InOrder t n) (hg : s.symbols.Grows s'.symbols)
    (hi : i ∈ s.out) (hx : x ∈ i.spends) : s'.symbols.IsVariable x ↔ s.symbols.IsVariable x := by
  obtain ⟨id, hid, -⟩ := hr.code.has i (Array.mem_toList_iff.mpr hi) x
    (Instruction.mem_symbols_of_spends hx)
  exact SymbolTable.isVariable_congr ((hg.identity hid).trans hid.symm)

theorem Spent.of_extends (hx : s'.Spent x) (hr : s.InOrder t n) (h : s.Extends s') : s.Spent x := by
  obtain ⟨hvar, i, hi, hmem⟩ := hx
  rw [h.out] at hi
  exact ⟨(hr.isVariable_iff h.grows hi hmem).mp hvar, i, hi, hmem⟩

theorem Gone.extends (hx : s.Gone x) (h : s.Extends s') : s'.Gone x :=
  ⟨h.stack ▸ hx.notOnStack, hx.detached.extends h⟩

theorem Loose.extends (hx : s.Loose x) (hr : s.InOrder t n) (h : s.Extends s') : s'.Loose x := by
  rcases hx with ⟨w, hw⟩ | ⟨hvar, hgone, hunspent⟩
  · exact .inl ⟨w, hw.grows h.grows⟩
  · obtain ⟨id, hid⟩ := hgone.detached.knows
    refine .inr ⟨?_, hgone.extends h, fun hspent => hunspent (hspent.of_extends hr h)⟩
    exact (SymbolTable.isVariable_congr ((h.grows.identity hid).trans hid.symm)).mpr hvar

theorem Loose.not_spent (hx : s.Loose x) : ¬ s.Spent x := by
  rcases hx with ⟨w, hw⟩ | ⟨-, -, hunspent⟩
  · exact fun hspent => hw.not_isVariable hspent.1
  · exact hunspent

theorem Thrifty.extends (hs : s.Thrifty depth) (hr : s.InOrder t n) (h : s.Extends s') :
    s'.Thrifty depth where
  room := by
    rw [h.borrows, h.stack]
    exact hs.room
  gone x hx := (hs.gone x (hx.of_extends hr h)).extends h
  plain i hi x hx := by
    rw [h.out] at hi
    refine (hs.plain i hi x hx).imp (fun ⟨w, hw⟩ => ⟨w, hw.grows h.grows⟩) ?_
    exact (hr.isVariable_iff h.grows hi hx).mpr
  once := by
    rw [h.out]
    refine hs.once.imp_of_mem fun hi _ hij x hx hvar => hij x hx ?_
    exact (hr.isVariable_iff h.grows (Array.mem_toList_iff.mp hi) hx).mp hvar

theorem Gone.of_eq (hx : s.Gone x) (hstack : x ∉ s'.stack) (hs : s'.symbols = s.symbols)
    (ha : s'.arguments = s.arguments) (hb : s.borrows ≤ s'.borrows) : s'.Gone x :=
  ⟨hstack, hx.detached.of_eq hs ha hb⟩

/-- One more instruction, which mentions nothing that is used up. -/
theorem Thrifty.emitted (hs : s.Thrifty depth) (hsymbols : ∀ x ∈ i.symbols, ¬ s.Spent x)
    (hspends : ∀ x ∈ i.spends, s.Loose x) : (s.emitted i).Thrifty depth where
  room := hs.room
  gone x hx := by
    obtain ⟨hvar, j, hj, hmem⟩ := hx
    have hgone : s.Gone x := by
      rcases Array.mem_push.mp hj with hj | rfl
      · exact hs.gone x ⟨hvar, j, hj, hmem⟩
      · rcases hspends x hmem with ⟨w, hw⟩ | ⟨-, hgone, -⟩
        · exact absurd hvar hw.not_isVariable
        · exact hgone
    exact hgone.of_eq hgone.notOnStack rfl rfl (Nat.le_refl _)
  plain j hj x hx := by
    rcases Array.mem_push.mp hj with hj | rfl
    · exact hs.plain j hj x hx
    · exact (hspends x hx).imp id fun h => h.1
  once := by
    rw [LiftedStack.emitted, Array.toList_push, List.pairwise_append]
    refine ⟨hs.once, List.pairwise_singleton _ _, fun j hj k hk x hx hvar hmem => ?_⟩
    cases List.mem_singleton.mp hk
    exact hsymbols x hmem ⟨hvar, j, Array.mem_toList_iff.mp hj, hx⟩

theorem not_spent_emitted (hx : ¬ s.Spent x) (hi : x ∉ i.spends) : ¬ (s.emitted i).Spent x := by
  rintro ⟨hvar, j, hj, hmem⟩
  rcases Array.mem_push.mp hj with hj | rfl
  · exact hx ⟨hvar, j, hj, hmem⟩
  · exact hi hmem

/-- A copy uses nothing up. -/
theorem Thrifty.copy (hs : s.Thrifty depth) (hx : ¬ s.Spent x) (hy : ¬ s.Spent y) :
    (s.emitted (.copy x y)).Thrifty depth := by
  refine hs.emitted (fun z hz => ?_) nofun
  rcases List.mem_pair.mp hz with rfl | rfl
  · exact hx
  · exact hy

theorem not_spent_copy {z : SymbolRef} (hz : ¬ s.Spent z) : ¬ (s.emitted (.copy x y)).Spent z :=
  not_spent_emitted hz nofun

theorem Thrifty.not_spent (hs : s.Thrifty depth) (hx : x ∈ s.stack) : ¬ s.Spent x :=
  fun hspent => (hs.gone x hspent).notOnStack hx

/-- Another local stack, without symbols that are used up. -/
theorem Thrifty.withStack (hs : s.Thrifty depth) {l : List SymbolRef} (hl : ∀ x ∈ l, ¬ s.Spent x)
    (height : Int32) {depth' : Nat} (hroom : depth' + s.borrows ≤ l.length + 2 ^ 32) :
    Thrifty { s with stack := l, height } depth' where
  room := hroom
  gone x hx := (hs.gone x hx).of_eq (fun hmem => hl x hmem hx) rfl rfl (Nat.le_refl _)
  plain := hs.plain
  once := hs.once

theorem Thrifty.push (hs : s.Thrifty depth) (hx : ¬ s.Spent x) :
    Thrifty { s with stack := x :: s.stack, height := s.height + 1 } (depth + 1) := by
  refine hs.withStack (List.forall_mem_cons.mpr ⟨hx, fun y => hs.not_spent⟩) _ ?_
  have hroom := hs.room
  rw [List.length_cons]
  omega

/-- A temporary is read only after it was assigned, so a new one is not used up. -/
theorem InOrder.mem_assigned (hr : s.InOrder t n) (hx : s.Spent x)
    (htmp : s.symbols.IsTemporary x) : x ∈ assigned s.out.toList := by
  obtain ⟨-, i, hi, hmem⟩ := hx
  obtain ⟨before, after, hout⟩ := List.append_of_mem (Array.mem_toList_iff.mpr hi)
  have huse : x ∈ i.uses := by
    rw [Instruction.uses_eq]
    exact List.mem_append_right _ (Instruction.mem_operands_of_spends hmem)
  have hassigned := hr.code.earlier hout x huse htmp
  rw [hout, assigned, List.filterMap_append]
  exact List.mem_append_left _ hassigned

theorem Assignable.not_spent (hx : s.Assignable n x) (hr : s.InOrder t n) : ¬ s.Spent x :=
  fun hspent => hx.pending.unassigned (hr.mem_assigned hspent hx.isTemporary)

end Changes

/-! ## The operations -/

section Operations

theorem Thrifty.pop (hs : s.Thrifty (depth + 1)) (hr : s.InOrder t n)
    (h : Yields Lifted.pop s x s') : s'.Thrifty depth ∧ s'.Loose x ∧
      (∀ {y}, s.Loose y → s'.Loose y) ∧ ¬ s.Gone x := by
  have hroom := hs.room
  cases hstack : s.stack with
  | cons y rest =>
    cases h.symm.trans (Lifted.yields_pop_local hstack)
    have hmem : ∀ {z}, z ∈ rest → z ∈ s.stack := fun hz => by
      rw [hstack]
      exact List.mem_cons_of_mem _ hz
    have htop : x ∈ s.stack := by
      rw [hstack]
      exact List.mem_cons_self
    refine ⟨hs.withStack (fun z hz => hs.not_spent (hmem hz)) _ ?_, ?_, fun hy => ?_,
      fun hgone => hgone.notOnStack htop⟩
    · rw [hstack, List.length_cons] at hroom
      omega
    · rcases (hr.stack x htop).kind with htmp | hconst
      · refine .inr ⟨htmp.isVariable, ⟨fun hrest => ?_, ?_⟩, hs.not_spent htop⟩
        · have hcount := hr.distinct x htmp
          rw [hstack, List.count_cons_self] at hcount
          have hpos : 0 < rest.count x := List.count_pos_iff.mpr hrest
          omega
        · exact (hr.wellFormed.detached_of_isTemporary htmp).of_eq rfl rfl (Nat.le_refl _)
      · exact .inl hconst
    · refine hy.imp id fun ⟨hvar, hgone, hunspent⟩ => ⟨hvar, ?_, hunspent⟩
      exact hgone.of_eq (fun hz => hgone.notOnStack (hmem hz)) rfl rfl (Nat.le_refl _)
  | nil =>
    obtain ⟨y, s₁, hpop, hext, hl⟩ := Lifted.yields_pop_entry hr.wellFormed hstack
    cases h.symm.trans hpop
    rw [hstack, List.length_nil] at hroom
    have harg := argumentAt?_of_lookup_slot (n := 0) (by rw [hstack]; exact Nat.le_refl 0) hl
      (by rw [hstack, List.length_nil]; omega)
    rw [hstack, List.length_nil, Nat.sub_zero, Nat.zero_add] at harg
    have hs₁ := hs.extends hr hext
    have hattached : ¬ s₁.Detached x := fun hd => by
      have hlt := hd.lt_borrows harg
      rw [hext.borrows] at hlt
      exact Nat.lt_irrefl _ hlt
    have hgone : ∀ {z}, s₁.Gone z → Gone { s₁ with borrows := s₁.borrows + 1 } z := fun hz =>
      hz.of_eq hz.notOnStack rfl rfl (Nat.le_succ _)
    have hstack₁ : s₁.stack = [] := hext.stack.trans hstack
    refine ⟨⟨?_, fun z hz => hgone (hs₁.gone z hz), hs₁.plain, hs₁.once⟩, .inr ⟨?_, ⟨?_, ?_⟩, ?_⟩,
      fun hy => ?_, fun hx => hattached (hx.detached.extends hext)⟩
    · change depth + (s₁.borrows + 1) ≤ s₁.stack.length + 2 ^ 32
      rw [hext.borrows, hstack₁, List.length_nil]
      omega
    · exact (hext.wellFormed.argument hl).isVariable
    · change x ∉ s₁.stack
      rw [hstack₁]
      exact List.not_mem_nil
    · refine hext.wellFormed.detached_of_taken ?_
      rw [hext.borrows]
      exact (argumentAt?_eq_some harg).2
    · exact fun hspent => hattached (hs₁.gone x hspent).detached
    · refine (hy.extends hr hext).imp id fun ⟨hvar, hz, hunspent⟩ => ⟨hvar, hgone hz, hunspent⟩

/-- What is still on the stack is not used up. -/
theorem Thrifty.nth (hs : s.Thrifty depth) (hr : s.InOrder t n) {k : Nat} (hk : k < depth)
    (h : Yields (Lifted.nth k) s x s') : ¬ s'.Spent x := by
  cases hstack : s.stack[k]? with
  | some y =>
    cases h.symm.trans (Lifted.yields_nth_local hstack)
    exact hs.not_spent (List.mem_of_getElem? hstack)
  | none =>
    obtain ⟨y, s₁, hnth, hext, hl⟩ := Lifted.yields_nth_entry hr.wellFormed hstack
    cases h.symm.trans hnth
    have hlen := List.getElem?_eq_none_iff.mp hstack
    have hroom := hs.room
    have harg := argumentAt?_of_lookup_slot hlen hl (by omega)
    intro hspent
    have hlt := ((hs.extends hr hext).gone x hspent).detached.lt_borrows harg
    rw [hext.borrows] at hlt
    omega

theorem Thrifty.dup (hs : s.Thrifty depth) (hr : s.InOrder t n) {k : Nat} (hk : k < depth)
    (h : Yields (Lifted.dup (k + 1)) s () s') : s'.Thrifty (depth + 1) := by
  obtain ⟨source, s₁, hnth, hext, hsource, -⟩ := hr.nth k
  have hr₁ := hr.extends hext
  have hs₁ := hs.extends hr hext
  have hunspent := hs.nth hr hk hnth
  obtain ⟨x, hx, hsym⟩ := Lifted.yields_symbol hsource.has.knows
  cases hc : x.isConstant with
  | true =>
    cases h.symm.trans (Lifted.yields_dup_constant hnth hx hc)
    exact hs₁.push hunspent
  | false =>
    obtain ⟨y, s₂, hy, hext₂, hnew⟩ := hr₁.temporary
    cases h.symm.trans (Lifted.yields_dup_copy hnth hx hc hy)
    have hunspent₂ : ¬ s₂.Spent source := fun hspent => hunspent (hspent.of_extends hr₁ hext₂)
    have hnew₂ := hnew.not_spent (hr₁.extends hext₂)
    exact ((hs₁.extends hr₁ hext₂).copy hnew₂ hunspent₂).push (not_spent_copy hnew₂)

theorem Thrifty.swapEntry (hs : s.Thrifty depth) (hr : s.InOrder t n) {k : Nat} (hk : k < depth)
    (h : Yields (Lifted.swapEntry k) s () s') : s'.Thrifty depth := by
  obtain ⟨other, s₁, hnth, hext, -⟩ := hr.nth k
  have hr₁ := hr.extends hext
  have hs₁ := hs.extends hr hext
  have hother := hs.nth hr hk hnth
  cases hstack : s.stack with
  | cons top rest =>
    have hstack₁ : s₁.stack = top :: rest := hext.stack.trans hstack
    obtain ⟨x, s₂, hx, hext₂, hnew⟩ := hr₁.temporary
    cases h.symm.trans (Lifted.yields_swapEntry_local hnth hstack₁ hx)
    have hs₂ := hs₁.extends hr₁ hext₂
    have hother₂ : ¬ s₂.Spent other := fun hspent => hother (hspent.of_extends hr₁ hext₂)
    have hnew₂ := hnew.not_spent (hr₁.extends hext₂)
    have hmem : ∀ {y}, y ∈ top :: rest → ¬ s₂.Spent y := fun hy =>
      hs₂.not_spent (by rw [hext₂.stack, hstack₁]; exact hy)
    have hs₄ := (hs₂.copy hnew₂ hother₂).copy (not_spent_copy hother₂)
      (not_spent_copy (hmem List.mem_cons_self))
    refine hs₄.withStack (List.forall_mem_cons.mpr ⟨not_spent_copy (not_spent_copy hnew₂),
      fun y hy => not_spent_copy (not_spent_copy (hmem (List.mem_cons_of_mem _ hy)))⟩) _ ?_
    have hroom : depth + s₂.borrows ≤ s₂.stack.length + 2 ^ 32 := hs₄.room
    rw [hext₂.stack, hstack₁, List.length_cons] at hroom
    exact hroom
  | nil =>
    have hstack₁ : s₁.stack = [] := hext.stack.trans hstack
    obtain ⟨first, s₂, hfirst, hext₂, -⟩ := hr₁.nth 0
    have hr₂ := hr₁.extends hext₂
    obtain ⟨x, s₃, hx, hext₃, hnew⟩ := hr₂.temporary
    cases h.symm.trans (Lifted.yields_swapEntry_empty hnth hstack₁ hfirst hx)
    have hext₁₃ := hext₂.trans hext₃
    have hfirst₃ : ¬ s₃.Spent first := fun hspent =>
      hs₁.nth hr₁ (Nat.zero_lt_of_lt hk) hfirst (hspent.of_extends hr₂ hext₃)
    have hother₃ : ¬ s₃.Spent other := fun hspent => hother (hspent.of_extends hr₁ hext₁₃)
    have hnew₃ := hnew.not_spent (hr₂.extends hext₃)
    exact (((hs₁.extends hr₁ hext₁₃).copy hnew₃ hfirst₃).copy (not_spent_copy hfirst₃)
      (not_spent_copy hother₃)).copy (not_spent_copy (not_spent_copy hother₃))
      (not_spent_copy (not_spent_copy hnew₃))

theorem Thrifty.swap (hs : s.Thrifty depth) (hr : s.InOrder t n) {k : Nat} (hk : k + 1 < depth)
    (h : Yields (Lifted.swap (k + 1)) s () s') : s'.Thrifty depth := by
  cases hstack : s.stack[k + 1]? with
  | none =>
    obtain ⟨s₁, hswap, -⟩ := hr.swapEntry hstack
    cases h.symm.trans (Lifted.yields_swap_entry hstack hswap)
    exact hs.swapEntry hr hk hswap
  | some other =>
    have hlen := (List.getElem?_eq_some_iff.mp hstack).1
    obtain ⟨top, htop⟩ : ∃ top, s.stack[0]? = some top :=
      ⟨_, List.getElem?_eq_getElem (by omega)⟩
    cases h.symm.trans (Lifted.yields_swap_local htop hstack)
    have hperm := perm_exchange htop hstack
    refine hs.withStack (fun x hx => hs.not_spent (hperm.mem_iff.mp hx)) _ ?_
    rw [hperm.length_eq]
    exact hs.room

/-- An instruction on loose operands, with a new result if any. -/
theorem Thrifty.act (hs : s.Thrifty depth) (hr : s.InOrder t n)
    (hdef : ∀ x ∈ i.definition?, s.Assignable n x)
    (hbase : ∀ x ∈ i.base?, ∃ g, s.symbols.IsGlobal g x) (hops : ∀ x ∈ i.operands, s.Loose x) :
    (s.emitted i).Thrifty depth := by
  refine hs.emitted (fun x hx => ?_) fun x hx => hops x (Instruction.mem_operands_of_spends hx)
  rw [Instruction.symbols, Instruction.uses_eq, List.mem_append, List.mem_append] at hx
  rcases hx with hx | hx | hx
  · exact (hdef x (Option.mem_toList.mp hx)).not_spent hr
  · obtain ⟨g, hg⟩ := hbase x (Option.mem_toList.mp hx)
    obtain ⟨sc, hid⟩ := hr.wellFormed.consistent.global hg
    exact fun hspent => SymbolTable.not_isVariable_of_label hid hspent.1
  · exact (hops x hx).not_spent

end Operations

/-! ## The laws of the model -/

/-- An operand that may be read and used up. -/
structure Operand (n : NodeId) (s : LiftedStack) (x : SymbolRef) : Prop where
  readable : s.Readable n x
  loose : s.Loose x

/-- A symbol that may be put on the local stack. -/
structure Storable (n : NodeId) (s : LiftedStack) (x : SymbolRef) : Prop where
  pushable : s.Pushable n x
  not_spent : ¬ s.Spent x

/-- A temporary that may be assigned, and all operands are still there. -/
structure Target (n : NodeId) (s₀ s : LiftedStack) (x : SymbolRef) : Prop where
  assignable : s.Assignable n x
  operand : ∀ {y}, s₀.Operand n y → s.Operand n y

theorem Operand.extends (hx : s.Operand n x) (hr : s.InOrder t n) (h : s.Extends s') :
    s'.Operand n x := ⟨hx.readable.extends h, hx.loose.extends hr h⟩

theorem storable_of_isConstant {w : Word} (h : s.symbols.IsConstant x w) : s.Storable n x :=
  ⟨⟨owned_of_isConstant h, fun htmp => absurd h htmp.not_isConstant⟩,
    fun hspent => h.not_isVariable hspent.1⟩

/-- An assignment to a new temporary, from operands that were there when it was made. -/
theorem Thrifty.assign {s₀ : LiftedStack} {ws : List Word} (hs : s.Thrifty depth)
    (hr : s.InOrder t n) (hx : Target n s₀ s x) (hdef : i.definition? = some x)
    (hbase : ∀ y ∈ i.base?, ∃ g, s.symbols.IsGlobal g y)
    (hops : List.Forall₂ (fun y _ => s₀.Operand n y) i.operands ws) :
    ((s.emitted i).InOrder t n ∧ (s.emitted i).Thrifty depth) ∧ (s.emitted i).Storable n x := by
  have hops := hops.imp fun _ _ hy => hx.operand hy
  have hloose := forall_of_forall₂ (hops.imp fun _ _ hy => hy.loose)
  have hread := hops.imp fun _ _ hy => hy.readable
  have huses := Instruction.forall_uses hread fun y hy => by
    obtain ⟨g, hg⟩ := hbase y hy
    exact ready_of_isGlobal hr.wellFormed.consistent hg
  obtain ⟨hr', hpush⟩ := hr.assign hx.assignable hdef huses
  refine ⟨⟨hr', hs.act hr (fun y hy => ?_) hbase hloose⟩, hpush,
    not_spent_emitted (hx.assignable.not_spent hr) fun hmem => ?_⟩
  · rw [hdef] at hy
    cases hy
    exact hx.assignable
  · -- Operands that are temporaries are assigned before.
    have hready := forall_of_forall₂ hread x (Instruction.mem_operands_of_spends hmem)
    exact hx.assignable.pending.unassigned (hready.assigned hx.assignable.isTemporary)

/-- The laws of the model, for the use of its symbols. -/
def thriftySimulation {σ : Type} (t : SymbolTable) (n : NodeId) (I : Environment σ) (bound : Nat) :
    Simulation Lifted I bound where
  Rel s e := s.InOrder t n ∧ s.Thrifty e.stack.length
  Holds s x _ := s.Operand n x
  Fit s x _ := s.Storable n x
  Names s x g := s.symbols.IsGlobal g x
  Fresh := Target n
  pop := by
    rintro s ⟨stack, env, trace⟩ w rest ⟨hr, hs⟩ rfl
    obtain ⟨x, s', hpop, hr', hx, hkeep⟩ := hr.pop
    obtain ⟨hs', hloose, hkeep', -⟩ := hs.pop hr hpop
    exact ⟨x, s', hpop, ⟨hr', hs'⟩, ⟨hx, hloose⟩, fun hy => ⟨hkeep hy.readable, hkeep' hy.loose⟩⟩
  push := by
    rintro s e x w ⟨hr, hs⟩ - hx
    exact ⟨_, Lifted.yields_push _ _, hr.push hx.pushable, hs.push hx.not_spent⟩
  drop := by
    rintro s ⟨stack, env, trace⟩ w rest ⟨hr, hs⟩ rfl
    obtain ⟨x, s', hpop, hr', -⟩ := hr.pop
    exact ⟨s', Lifted.yields_drop hpop, hr', (hs.pop hr hpop).1⟩
  dup := by
    rintro s e k w ⟨hr, hs⟩ - - hw
    obtain ⟨s', hdup, hr'⟩ := hr.dup k
    exact ⟨s', hdup, hr', hs.dup hr (List.getElem?_eq_some_iff.mp hw).1 hdup⟩
  swap := by
    rintro s ⟨stack, env, trace⟩ a mid b rest ⟨hr, hs⟩ - rfl
    obtain ⟨s', hswap, hr'⟩ := hr.swap mid.length
    refine ⟨s', hswap, hr', ?_⟩
    simp only [List.length_cons, List.length_append] at hs ⊢
    exact hs.swap hr (by omega) hswap
  constant := by
    rintro s e w type ⟨hr, hs⟩
    obtain ⟨x, s', hx, hext, -, hc⟩ := Lifted.yields_constant w type hr.wellFormed
    exact ⟨x, s', hx, ⟨hr.extends hext, hs.extends hr hext⟩, storable_of_isConstant hc⟩
  fold := by
    rintro s e refs ws op ⟨hr, hs⟩ hrefs
    obtain ⟨r, s', hfold, hext, -, hsome⟩ := Lifted.yields_fold op hr.wellFormed
      fun x hx => (forall_of_forall₂ hrefs x hx).readable.has.knows
    refine ⟨r, s', hfold, ⟨hr.extends hext, hs.extends hr hext⟩, fun hy => hy.extends hr hext,
      fun x hx => ?_⟩
    obtain ⟨-, w, -, -, hc⟩ := hsome x hx
    exact storable_of_isConstant hc
  global := by
    rintro s e g ⟨hr, hs⟩
    obtain ⟨x, s', hx, hext, -, hg⟩ := Lifted.yields_global g hr.wellFormed
    exact ⟨x, s', hx, ⟨hr.extends hext, hs.extends hr hext⟩, hg, fun hy => hy.extends hr hext,
      fun hf => ⟨hf.assignable.extends hext, fun hy => (hf.operand hy).extends hr hext⟩⟩
  temporary := by
    rintro s e ⟨hr, hs⟩
    obtain ⟨x, s', hx, hext, hnew⟩ := hr.temporary
    exact ⟨x, s', hx, ⟨hr.extends hext, hs.extends hr hext⟩, hnew, fun hy => hy.extends hr hext⟩
  act := by
    rintro s e i a ws region ⟨hr, hs⟩ hdef hact hbase hops
    have hnone : ∀ x, x ∉ i.definition? := fun x hx => by
      rw [hdef] at hx
      cases hx
    have hread := hops.imp fun _ _ hy => hy.readable
    have hloose := forall_of_forall₂ (hops.imp fun _ _ hy => hy.loose)
    have hbase' : ∀ y ∈ i.base?, ∃ g, s.symbols.IsGlobal g y := fun y hy =>
      (hbase y hy).imp fun _ hg => hg.1
    refine ⟨_, Lifted.yields_emit _ _, hr.emitted (fun x hx => absurd hx (hnone x))
      (fun x hx => absurd hx (hnone x)) (fun hi => ?_) (Instruction.forall_uses hread ?_),
      hs.act hr (fun x hx => absurd hx (hnone x)) hbase' hloose⟩
    · rw [hi] at hdef
      cases hdef
    · intro y hy
      obtain ⟨g, hg⟩ := hbase' y hy
      exact ready_of_isGlobal hr.wellFormed.consistent hg
  assignAct := by
    rintro s₀ s e i x a ws region ⟨hr, hs⟩ hx hdef - hbase hops
    exact ⟨_, Lifted.yields_emit _ _, hs.assign hr hx hdef
      (fun y hy => (hbase y hy).imp fun _ hg => hg.1) hops⟩
  assign := by
    rintro s₀ s e i x ws ⟨hr, hs⟩ hx hdef hact hops
    exact ⟨_, Lifted.yields_emit _ _, hs.assign hr hx hdef
      (fun y hy => by rw [Instruction.base?_eq_none hact] at hy; cases hy) hops⟩

theorem thrifty_start (t : SymbolTable) (n : NodeId) (h : depth ≤ 2 ^ 32) :
    Thrifty { symbols := t, node := n } depth where
  room := by simpa using h
  gone x hx := by
    obtain ⟨-, i, hi, -⟩ := hx
    cases Array.mem_toList_iff.mpr hi
  plain i hi := by cases Array.mem_toList_iff.mpr hi
  once := .nil

end LiftedStack

/-! ## Conditions and targets -/

namespace Lifted

variable {t : SymbolTable} {n : NodeId} {s s' : LiftedStack} {depth : Nat} {σ : Type}
  {I : Environment σ} {e e' : Evm.State σ}

/-- No branch has a variable both for its condition and for its target. -/
def Apart (s : LiftedStack) : Prop :=
  ∀ x, .condBranch x x ∈ s.out → ∃ w, s.symbols.IsConstant x w

theorem Straight.apart (h : Straight s) : Apart s := fun x hx => by cases h _ hx

theorem grows_pop {x : SymbolRef} (h : Yields pop s x s') : s.symbols.Grows s'.symbols :=
  ((Balances.pop (Q := fun _ => True)) _ _ _ h).1.symbols.grows

/-- Two symbols that are popped one after the other are different, constants apart. -/
theorem isConstant_of_pop_pop {x : SymbolRef} {s'' : LiftedStack} (hr : s.InOrder t n)
    (hs : s.Thrifty (depth + 2)) (hx : Yields pop s x s') (hx' : Yields pop s' x s'') :
    ∃ w, s''.symbols.IsConstant x w := by
  obtain ⟨x₁, s₁, hpop, hr', -⟩ := hr.pop
  cases hx.symm.trans hpop
  obtain ⟨hs', hloose, -⟩ := hs.pop hr hx
  obtain ⟨-, -, -, hthere⟩ := hs'.pop hr' hx'
  rcases hloose with ⟨w, hw⟩ | ⟨-, hgone, -⟩
  · exact ⟨w, hw.grows (grows_pop hx')⟩
  · exact absurd hgone hthere

/-- Behind code without branches, an instruction keeps conditions and targets apart. -/
theorem apart_lowerInstr {x : Located} {known : Bool} (hr : s.InOrder t n)
    (hs : s.Thrifty e.stack.length) (hstraight : Straight s) (hstep : Evm.step I x e = some e')
    (h : Yields (lowerInstr x : Lifted Bool) s known s') : Apart s' := by
  by_cases hjump : x.instr.op = .jump
  · unfold lowerInstr at h
    rw [hjump] at h
    obtain ⟨_, s₁, hlower, h⟩ := exists_of_yields_bind h
    cases h
    obtain ⟨target, s₂, hpop, hemit⟩ := exists_of_yields_bind hlower
    cases hemit
    intro y hy
    rcases Array.mem_push.mp hy with hy | hy
    · cases straight_pop hpop hstraight _ hy
    · cases hy
  · by_cases hjumpi : x.instr.op = .jumpi
    · have hlen := (Evm.length_step I hstep).1
      unfold lowerInstr at h
      rw [hjumpi] at h hlen
      obtain ⟨depth, hdepth⟩ := Nat.exists_eq_add_of_le' hlen
      rw [hdepth] at hs
      obtain ⟨_, s₁, hlower, h⟩ := exists_of_yields_bind h
      cases h
      obtain ⟨target, s₂, hpop, hlower⟩ := exists_of_yields_bind hlower
      obtain ⟨condition, s₃, hpop', hemit⟩ := exists_of_yields_bind hlower
      cases hemit
      intro y hy
      rcases Array.mem_push.mp hy with hy | hy
      · cases straight_pop hpop' (straight_pop hpop hstraight) _ hy
      · cases hy
        have hconst := isConstant_of_pop_pop hr hs hpop hpop'
        exact hconst
    · exact (straight_lowerInstr hjump hjumpi h hstraight).apart

theorem apart_lowerCode {code gaps : List Located}
    (hcode : code.Pairwise fun x _ => x.instr.op.isBlockEnd = false) (hr : s.InOrder t n)
    (hs : s.Thrifty e.stack.length) (hstraight : Straight s) (hrun : Evm.run I code e = some e')
    (h : Yields (lowerCode code : Lifted (List Located)) s gaps s') : Apart s' := by
  induction code generalizing s e gaps with
  | nil =>
    cases h
    exact hstraight.apart
  | cons x rest ih =>
    obtain ⟨hx, hrest⟩ := List.pairwise_cons.mp hcode
    obtain ⟨e₁, hstep, hrun⟩ := Option.bind_eq_some_iff.mp hrun
    obtain ⟨known, s₁, hinstr, h⟩ := exists_of_yields_bind h
    obtain ⟨gaps', s₂, hlower, h⟩ := exists_of_yields_bind h
    cases h
    cases rest with
    | nil =>
      cases hlower
      exact apart_lowerInstr hr hs hstraight hstep hinstr
    | cons y rest =>
      -- A jump has nothing behind it.
      have hend := hx y List.mem_cons_self
      obtain ⟨s₃, hinstr', hr₁, hs₁⟩ :=
        (LiftedStack.thriftySimulation t n I _).lowerInstr ⟨hr, hs⟩ (Nat.lt_succ_self _) hstep
      cases hinstr.symm.trans hinstr'
      refine ih hrest hr₁ hs₁ (straight_lowerInstr ?_ ?_ hinstr hstraight) hrun hlower
      · intro hjump
        rw [hjump] at hend
        cases hend
      · intro hjumpi
        rw [hjumpi] at hend
        cases hend

end Lifted

namespace LiftedStack

variable {t : SymbolTable} {n : NodeId}

/-- **Lifted code uses its operands up**, and keeps conditions and targets apart, if no more than
`2 ^ 32` entries are in reach. -/
theorem exists_thrifty (ht : t.Consistent) (n : NodeId) {code : List Located}
    (h : Evm.required code ≤ 2 ^ 32)
    (hcode : code.Pairwise fun x _ => x.instr.op.isBlockEnd = false) :
    ∃ s depth, liftAll t n code = .ok s ∧ s.InOrder t n ∧ s.Thrifty depth ∧ Lifted.Apart s := by
  let I : Environment Unit := fun _ _ env => (0, env)
  let e : Evm.State Unit := ⟨List.replicate (Evm.required code) 0, (), []⟩
  have hlen : e.stack.length = Evm.required code := List.length_replicate
  obtain ⟨e', hrun⟩ := Evm.exists_run I (Nat.le_of_eq hlen.symm)
  have hr := inOrder_start ht n
  have hs : Thrifty { symbols := t, node := n } e.stack.length :=
    thrifty_start t n (hlen ▸ h)
  obtain ⟨s, hyields, hr', hs'⟩ :=
    (thriftySimulation t n I _).lowerCode ⟨hr, hs⟩ (Nat.le_refl _) hrun
  refine ⟨s, _, liftAll_eq_ok.mpr ⟨_, hyields⟩, hr', hs', ?_⟩
  exact Lifted.apart_lowerCode hcode hr hs (fun i hi => by cases Array.mem_toList_iff.mpr hi) hrun
    hyields

end LiftedStack

end EvmFlow
