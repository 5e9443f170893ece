import EvmFlow.Proofs.LiftedStack
import EvmFlow.Proofs.OrderlyCode

/-!
# Lifted code is in order

The code that the symbolic model makes of a block assigns before it reads. Besides, the local stack
holds constants and assigned temporaries only, each temporary once, and each entry slot has one
symbol. Results are temporaries; only copies go to entry slots, too.

* `LiftedStack.Readable`, `LiftedStack.Assignable`, `LiftedStack.Pushable`: symbols that may be
  read, assigned and put on the local stack;
* `LiftedStack.InOrder`: the invariant, with one lemma for each operation;
* `LiftedStack.orderSimulation`: the laws of the model, for this relation;
* **`LiftedStack.exists_inOrder`**: lifting succeeds, and lifted code is in order.
-/

namespace EvmFlow

open Stateful

namespace LiftedStack

variable {t : SymbolTable} {n : NodeId} {s s' : LiftedStack} {x : SymbolRef} {i : Instruction}

/-- A symbol that may be read next. -/
abbrev Readable (n : NodeId) (s : LiftedStack) (x : SymbolRef) : Prop :=
  Ready s.symbols (.block n) s.arguments s.out.toList x

/-- A constant or an assigned temporary: what the local stack holds. -/
structure Owned (n : NodeId) (s : LiftedStack) (x : SymbolRef) : Prop where
  ready : s.Readable n x
  kind : s.symbols.IsTemporary x ∨ ∃ w, s.symbols.IsConstant x w

/-- The code so far is in order, the local stack holds constants and assigned temporaries, each
temporary once. What is assigned are temporaries, and entry slots by copies. -/
structure InOrder (t : SymbolTable) (n : NodeId) (s : LiftedStack) : Prop where
  wellFormed : s.WellFormed
  node : s.node = n
  proper : t.Proper → s.symbols.Proper
  code : Orderly s.symbols (.block n) s.arguments s.out.toList
  result : ∀ i ∈ s.out, ∀ x ∈ i.definition?, s.symbols.IsTemporary x ∨
    (∃ slot, s.symbols.IsSlot n slot x) ∧ ∃ y, i = .copy x y
  stack : ∀ x ∈ s.stack, s.Owned n x
  distinct : ∀ x, s.symbols.IsTemporary x → s.stack.count x ≤ 1

/-! ## Changes of the state -/

section Changes

theorem owned_of_isConstant {w : Word} (h : s.symbols.IsConstant x w) : s.Owned n x :=
  ⟨ready_of_isConstant h, .inr ⟨w, h⟩⟩

theorem Readable.extends (hx : s.Readable n x) (h : s.Extends s') : s'.Readable n x := by
  rw [Readable, h.out]
  exact hx.grows h.grows h.argument

theorem Owned.extends (hx : s.Owned n x) (h : s.Extends s') : s'.Owned n x :=
  ⟨hx.ready.extends h, hx.kind.imp (·.grows h.grows) fun ⟨w, hc⟩ => ⟨w, hc.grows h.grows⟩⟩

theorem Readable.emitted (hx : s.Readable n x) (i : Instruction) : (s.emitted i).Readable n x := by
  rw [Readable, LiftedStack.emitted, Array.toList_push]
  exact hx.concat i

theorem Owned.emitted (hx : s.Owned n x) (i : Instruction) : (s.emitted i).Owned n x :=
  ⟨hx.ready.emitted i, hx.kind⟩

theorem InOrder.extends (hr : s.InOrder t n) (h : s.Extends s') : s'.InOrder t n where
  wellFormed := h.wellFormed
  node := h.node.trans hr.node
  proper ht := h.proper (hr.proper ht)
  code := by
    rw [h.out]
    exact hr.code.grows h.grows h.argument
  result i hi x hx := by
    rw [h.out] at hi
    refine (hr.result i hi x hx).imp (·.grows h.grows) fun ⟨⟨slot, hslot⟩, hcopy⟩ => ?_
    exact ⟨⟨slot, hslot.grows h.grows⟩, hcopy⟩
  stack x hx := by
    rw [h.stack] at hx
    exact (hr.stack x hx).extends h
  distinct x htmp := by
    rw [h.stack]
    by_cases hx : x ∈ s.stack
    · exact hr.distinct x (h.grows.isTemporary_of_knows (hr.wellFormed.stack x hx) htmp)
    · rw [List.count_eq_zero_of_not_mem hx]
      exact Nat.zero_le 1

/-- One more instruction. -/
theorem InOrder.emitted (hr : s.InOrder t n)
    (hdef : ∀ x ∈ i.definition?, s.symbols.Has (.block n) s.arguments x ∧
      (s.symbols.IsTemporary x → x ∉ assigned s.out.toList))
    (hresult : ∀ x ∈ i.definition?, s.symbols.IsTemporary x ∨
      (∃ slot, s.symbols.IsSlot n slot x) ∧ ∃ y, i = .copy x y)
    (hcall : ∀ {g x parameters}, i = .function g x parameters → s.symbols.IsTemporary x)
    (huses : ∀ x ∈ i.uses, s.Readable n x) : (s.emitted i).InOrder t n where
  wellFormed := hr.wellFormed.emitted i
  node := hr.node
  proper := hr.proper
  code := by
    rw [LiftedStack.emitted, Array.toList_push]
    exact hr.code.concat hdef hcall huses
  result j hj := by
    rcases Array.mem_push.mp hj with hj | rfl
    · exact hr.result j hj
    · exact hresult
  stack x hx := (hr.stack x hx).emitted i
  distinct := hr.distinct

/-- Another local stack, of symbols that may be there. -/
theorem InOrder.withStack (hr : s.InOrder t n) {l : List SymbolRef}
    (hl : ∀ x ∈ l, s.Owned n x) (hdistinct : ∀ x, s.symbols.IsTemporary x → l.count x ≤ 1)
    (height : Int32) : InOrder t n { s with stack := l, height } where
  wellFormed := ⟨hr.wellFormed.consistent, hr.wellFormed.argument,
    fun x hx => (hl x hx).ready.has.knows⟩
  node := hr.node
  proper := hr.proper
  code := hr.code
  result := hr.result
  stack x hx := ⟨(hl x hx).ready, (hl x hx).kind⟩
  distinct := hdistinct

theorem InOrder.withBorrows (hr : s.InOrder t n) (borrows : Nat) :
    InOrder t n { s with borrows } where
  wellFormed := hr.wellFormed.withBorrows borrows
  node := hr.node
  proper := hr.proper
  code := hr.code
  result := hr.result
  stack x hx := ⟨(hr.stack x hx).ready, (hr.stack x hx).kind⟩
  distinct := hr.distinct

/-- The symbol of an entry slot may be read. -/
theorem InOrder.readable_of_lookup (hr : s.InOrder t n) {slot : Int32}
    (h : s.arguments.lookup slot = some x) : s.Readable n x := by
  have hslot := hr.wellFormed.argument h
  rw [hr.node] at hslot
  exact ⟨⟨_, hslot, .slot h⟩, fun htmp => absurd hslot htmp.not_isSlot⟩

/-- A temporary that may be assigned, and is not on the local stack. -/
structure Assignable (n : NodeId) (s : LiftedStack) (x : SymbolRef) : Prop where
  pending : Pending s.symbols (.block n) s.out.toList x
  notOnStack : x ∉ s.stack

theorem Assignable.isTemporary (hx : s.Assignable n x) : s.symbols.IsTemporary x :=
  ⟨_, hx.pending.identity⟩

theorem Assignable.extends (hx : s.Assignable n x) (h : s.Extends s') : s'.Assignable n x := by
  refine ⟨?_, by rw [h.stack]; exact hx.notOnStack⟩
  rw [h.out]
  exact hx.pending.grows h.grows

/-- A constant or a temporary that may be put on the local stack. -/
structure Pushable (n : NodeId) (s : LiftedStack) (x : SymbolRef) : Prop where
  owned : s.Owned n x
  new : s.symbols.IsTemporary x → x ∉ s.stack

/-- An assignment to a new temporary. -/
theorem InOrder.assign (hr : s.InOrder t n) (hx : s.Assignable n x) (hdef : i.definition? = some x)
    (huses : ∀ y ∈ i.uses, s.Readable n y) :
    (s.emitted i).InOrder t n ∧ (s.emitted i).Pushable n x := by
  refine ⟨hr.emitted (fun y hy => ?_) (fun y hy => ?_) (fun hi => ?_) huses,
    ⟨?_, .inl hx.isTemporary⟩, fun _ => hx.notOnStack⟩
  · rw [hdef] at hy
    cases hy
    exact ⟨hx.pending.has, fun _ => hx.pending.unassigned⟩
  · rw [hdef] at hy
    cases hy
    exact .inl hx.isTemporary
  · rw [hi] at hdef
    cases hdef
    exact hx.isTemporary
  · rw [Readable, LiftedStack.emitted, Array.toList_push]
    exact .of_definition? hx.pending.has hdef

end Changes

/-! ## The operations -/

section Operations

theorem InOrder.temporary (hr : s.InOrder t n) : ∃ x s', Yields Lifted.temporary s x s' ∧
    s.Extends s' ∧ s'.Assignable n x := by
  obtain ⟨x, s', hx, hext, -, hnew, -⟩ := Lifted.yields_temporary hr.wellFormed
  have hid : s'.symbols.identity? x = some ⟨.temporary, .var, .block s.node⟩ := by
    cases hx
    exact SymbolTable.identity?_insert_self _ _ _
  refine ⟨x, s', hx, hext, ⟨?_, ?_⟩, ?_⟩
  · rw [hid, hr.node]
  · rw [hext.out]
    exact hr.code.not_mem_assigned hnew
  · rw [hext.stack]
    exact fun hmem => hnew (hr.wellFormed.stack x hmem)

theorem InOrder.push (hr : s.InOrder t n) (hx : s.Pushable n x) :
    InOrder t n { s with stack := x :: s.stack, height := s.height + 1 } := by
  refine hr.withStack (List.forall_mem_cons.mpr ⟨hx.owned, hr.stack⟩) (fun y htmp => ?_) _
  by_cases hxy : x = y
  · subst hxy
    rw [List.count_cons_self, List.count_eq_zero_of_not_mem (hx.new htmp)]
  · rw [List.count_cons_of_ne hxy]
    exact hr.distinct y htmp

theorem InOrder.pop (hr : s.InOrder t n) : ∃ x s', Yields Lifted.pop s x s' ∧ s'.InOrder t n ∧
    s'.Readable n x ∧ ∀ {y}, s.Readable n y → s'.Readable n y := by
  cases hs : s.stack with
  | cons x rest =>
    have hx := (hr.stack x (by rw [hs]; exact List.mem_cons_self)).ready
    refine ⟨x, _, Lifted.yields_pop_local hs, hr.withStack (fun y hy => ?_) (fun y htmp => ?_) _,
      hx, fun hy => hy⟩
    · exact hr.stack y (by rw [hs]; exact List.mem_cons_of_mem _ hy)
    · have hcount := hr.distinct y htmp
      rw [hs] at hcount
      exact Nat.le_trans List.count_le_count_cons hcount
  | nil =>
    obtain ⟨x, s₁, hpop, hext, hl⟩ := Lifted.yields_pop_entry hr.wellFormed hs
    have hr₁ := hr.extends hext
    have hkeep : ∀ {y}, s.Readable n y → s₁.Readable n y := fun hy => hy.extends hext
    exact ⟨x, _, hpop, hr₁.withBorrows _, hr₁.readable_of_lookup hl, hkeep⟩

/-- The symbol at a depth: of the local stack or of an entry slot. -/
theorem InOrder.nth (hr : s.InOrder t n) (k : Nat) : ∃ x s', Yields (Lifted.nth k) s x s' ∧
    s.Extends s' ∧ s'.Readable n x ∧
      (s.stack[k]? = none → s'.symbols.IsSlot n (s.slot k) x) := by
  cases hs : s.stack[k]? with
  | some x =>
    exact ⟨x, s, Lifted.yields_nth_local hs, .refl hr.wellFormed,
      (hr.stack x (List.mem_of_getElem? hs)).ready, fun h => by cases h⟩
  | none =>
    obtain ⟨x, s', hnth, hext, hl⟩ := Lifted.yields_nth_entry hr.wellFormed hs
    refine ⟨x, s', hnth, hext, (hr.extends hext).readable_of_lookup hl, fun _ => ?_⟩
    rw [← hr.node, ← hext.node]
    exact hext.wellFormed.argument hl

theorem InOrder.dup (hr : s.InOrder t n) (k : Nat) :
    ∃ s', Yields (Lifted.dup (k + 1)) s () s' ∧ s'.InOrder t n := by
  obtain ⟨source, s₁, hnth, hext, hsource, -⟩ := hr.nth k
  have hr₁ := hr.extends hext
  obtain ⟨x, hx, hsym⟩ := Lifted.yields_symbol hsource.has.knows
  cases hc : x.isConstant with
  | true =>
    obtain ⟨w, hw⟩ := Option.isSome_iff_exists.mp hc
    have hconst := SymbolTable.isConstant_of_symbol hsym hw
    exact ⟨_, Lifted.yields_dup_constant hnth hx hc,
      hr₁.push ⟨owned_of_isConstant hconst, fun htmp => absurd hconst htmp.not_isConstant⟩⟩
  | false =>
    obtain ⟨y, s₂, hy, hext₂, hnew⟩ := hr₁.temporary
    obtain ⟨hr₃, hpush⟩ := (hr₁.extends hext₂).assign (i := .copy y source) hnew rfl
      (List.forall_mem_singleton.mpr (hsource.extends hext₂))
    exact ⟨_, Lifted.yields_dup_copy hnth hx hc hy, hr₃.push hpush⟩

/-- A copy to an entry slot. -/
theorem InOrder.copyTo (hr : s.InOrder t n) {y : SymbolRef} {slot : Int32} (hx : s.Readable n x)
    (hslot : s.symbols.IsSlot n slot x) (hy : s.Readable n y) :
    (s.emitted (.copy x y)).InOrder t n := by
  refine hr.emitted (fun z hz => ?_) (fun z hz => ?_) nofun (List.forall_mem_singleton.mpr hy)
  · cases hz
    exact ⟨hx.has, fun htmp => absurd hslot htmp.not_isSlot⟩
  · cases hz
    exact .inr ⟨⟨slot, hslot⟩, y, rfl⟩

theorem InOrder.swapEntry (hr : s.InOrder t n) {k : Nat} (hk : s.stack[k]? = none) :
    ∃ s', Yields (Lifted.swapEntry k) s () s' ∧ s'.InOrder t n := by
  obtain ⟨other, s₁, hnth, hext, hother, hslot⟩ := hr.nth k
  have hr₁ := hr.extends hext
  cases hs : s.stack with
  | cons top rest =>
    have hs₁ : s₁.stack = top :: rest := hext.stack.trans hs
    obtain ⟨x, s₂, hx, hext₂, hnew⟩ := hr₁.temporary
    have hs₂ : s₂.stack = top :: rest := hext₂.stack.trans hs₁
    have hr₂ := hr₁.extends hext₂
    have hother₂ := hother.extends hext₂
    have hslot₂ := (hslot hk).grows hext₂.grows
    obtain ⟨hr₃, hpush⟩ := hr₂.assign (i := .copy x other) hnew rfl
      (List.forall_mem_singleton.mpr hother₂)
    have hmem : top ∈ s₂.stack := by rw [hs₂]; exact List.mem_cons_self
    have htop := (hr₃.stack top hmem).ready
    have hr₄ := hr₃.copyTo (hother₂.emitted _) hslot₂ htop
    refine ⟨_, Lifted.yields_swapEntry_local hnth hs₁ hx, hr₄.withStack (l := x :: rest) ?_
      (fun y htmp => ?_) _⟩
    · refine List.forall_mem_cons.mpr ⟨hpush.owned.emitted _, fun y hy => hr₄.stack y ?_⟩
      change y ∈ s₂.stack
      rw [hs₂]
      exact List.mem_cons_of_mem _ hy
    · -- The temporary on top is new, and the others were there before.
      have hcount : s₂.stack.count y ≤ 1 := hr₄.distinct y htmp
      have hnotin := hnew.notOnStack
      rw [hs₂] at hcount hnotin
      by_cases hxy : x = y
      · subst hxy
        rw [List.count_cons_self, List.count_eq_zero_of_not_mem
          (fun hmem => hnotin (List.mem_cons_of_mem _ hmem))]
      · rw [List.count_cons_of_ne hxy]
        exact Nat.le_trans List.count_le_count_cons hcount
  | nil =>
    have hs₁ : s₁.stack = [] := hext.stack.trans hs
    obtain ⟨first, s₂, hfirst, hext₂, hread₂, hslotFirst⟩ := hr₁.nth 0
    obtain ⟨x, s₃, hx, hext₃, hnew⟩ := (hr₁.extends hext₂).temporary
    have hr₃ := (hr₁.extends hext₂).extends hext₃
    have hfirst₃ := hread₂.extends hext₃
    have hother₃ := (hother.extends hext₂).extends hext₃
    have hslotFirst₃ := (hslotFirst (by rw [hs₁]; rfl)).grows hext₃.grows
    have hslot₃ := (hslot hk).grows (hext₂.grows.trans hext₃.grows)
    obtain ⟨hr₄, hpush⟩ := hr₃.assign (i := .copy x first) hnew rfl
      (List.forall_mem_singleton.mpr hfirst₃)
    have hr₅ := hr₄.copyTo (hfirst₃.emitted _) hslotFirst₃ (hother₃.emitted _)
    have hr₆ := hr₅.copyTo ((hother₃.emitted _).emitted _) hslot₃ (hpush.owned.ready.emitted _)
    exact ⟨_, Lifted.yields_swapEntry_empty hnth hs₁ hfirst hx, hr₆⟩

open List in
/-- Exchanging the first entry of a list with another one permutes the list. -/
theorem perm_exchange {α : Type} {l : List α} {k : Nat} {a b : α} (ha : l[0]? = some a)
    (hb : l[k + 1]? = some b) : (l.set 0 b).set (k + 1) a ~ l := by
  cases l with
  | nil => cases ha
  | cons c l =>
    cases ha
    obtain ⟨hk, hget⟩ := List.getElem?_eq_some_iff.mp hb
    have hk : k < l.length := Nat.lt_of_succ_lt_succ hk
    have hdrop : l.drop k = b :: l.drop (k + 1) := by
      rw [List.drop_eq_getElem_cons hk]
      exact congrArg (· :: _) hget
    calc b :: l.set k a = b :: (l.take k ++ a :: l.drop (k + 1)) := by
          rw [List.set_eq_take_append_cons_drop, if_pos hk]
      _ ~ b :: a :: (l.take k ++ l.drop (k + 1)) := List.perm_middle.cons b
      _ ~ a :: b :: (l.take k ++ l.drop (k + 1)) := .swap _ _ _
      _ ~ a :: (l.take k ++ b :: l.drop (k + 1)) := List.perm_middle.symm.cons a
      _ = a :: l := by rw [← hdrop, List.take_append_drop]

theorem InOrder.swap (hr : s.InOrder t n) (k : Nat) :
    ∃ s', Yields (Lifted.swap (k + 1)) s () s' ∧ s'.InOrder t n := by
  cases hk : s.stack[k + 1]? with
  | none =>
    obtain ⟨s', hyields, hr'⟩ := hr.swapEntry hk
    exact ⟨s', Lifted.yields_swap_entry hk hyields, hr'⟩
  | some other =>
    have hlen := (List.getElem?_eq_some_iff.mp hk).1
    obtain ⟨top, htop⟩ : ∃ top, s.stack[0]? = some top :=
      ⟨_, List.getElem?_eq_getElem (by omega)⟩
    have hperm := perm_exchange htop hk
    refine ⟨_, Lifted.yields_swap_local htop hk, hr.withStack (fun x hx => ?_) (fun x htmp => ?_)
      s.height⟩
    · exact hr.stack x (hperm.mem_iff.mp hx)
    · rw [hperm.count_eq]
      exact hr.distinct x htmp

theorem InOrder.fold (hr : s.InOrder t n) (op : Operator) {refs : List SymbolRef}
    (hrefs : ∀ x ∈ refs, s.Readable n x) : ∃ r s', Yields (Lifted.fold op refs) s r s' ∧
      s'.InOrder t n ∧ (∀ {y}, s.Readable n y → s'.Readable n y) ∧ ∀ x ∈ r, s'.Pushable n x := by
  obtain ⟨r, s', hr', hext, -, hfold⟩ := Lifted.yields_fold op hr.wellFormed
    fun x hx => (hrefs x hx).has.knows
  refine ⟨r, s', hr', hr.extends hext, fun hy => hy.extends hext, fun x hx => ?_⟩
  obtain ⟨-, w, -, -, hc⟩ := hfold x hx
  exact ⟨owned_of_isConstant hc, fun htmp => absurd hc htmp.not_isConstant⟩

end Operations

/-! ## The laws of the model -/

/-- A temporary that may be assigned, and all that could be read before can still be read. -/
structure Unassigned (n : NodeId) (s₀ s : LiftedStack) (x : SymbolRef) : Prop where
  assignable : s.Assignable n x
  readable : ∀ {y}, s₀.Readable n y → s.Readable n y

theorem InOrder.assignUnassigned {s₀ : LiftedStack} {ws : List Word} (hr : s.InOrder t n)
    (hx : Unassigned n s₀ s x) (hdef : i.definition? = some x)
    (hbase : ∀ y ∈ i.base?, ∃ g, s.symbols.IsGlobal g y)
    (hops : List.Forall₂ (fun y _ => s₀.Readable n y) i.operands ws) :
    (s.emitted i).InOrder t n ∧ (s.emitted i).Pushable n x := by
  refine hr.assign hx.assignable hdef ?_
  refine Instruction.forall_uses (hops.imp fun _ _ hy => hx.readable hy) fun y hy => ?_
  obtain ⟨g, hg⟩ := hbase y hy
  exact ready_of_isGlobal hr.wellFormed.consistent hg

/-- The laws of the model, for the order of its code. -/
def orderSimulation {σ : Type} (t : SymbolTable) (n : NodeId) (I : Environment σ) (bound : Nat) :
    Simulation Lifted I bound where
  Rel s _ := s.InOrder t n
  Holds s x _ := s.Readable n x
  Fit s x _ := s.Pushable n x
  Names s x g := s.symbols.IsGlobal g x
  Fresh := Unassigned n
  pop hr _ := by
    obtain ⟨x, s', hpop, hr', hx, hkeep⟩ := hr.pop
    exact ⟨x, s', hpop, hr', hx, fun hy => hkeep hy⟩
  push hr _ hx := ⟨_, Lifted.yields_push _ _, hr.push hx⟩
  drop hr _ := by
    obtain ⟨x, s', hpop, hr', -⟩ := hr.pop
    exact ⟨s', Lifted.yields_drop hpop, hr'⟩
  dup hr _ _ _ := hr.dup _
  swap hr _ _ := hr.swap _
  constant w type hr := by
    obtain ⟨x, s', hx, hext, -, hc⟩ := Lifted.yields_constant w type hr.wellFormed
    exact ⟨x, s', hx, hr.extends hext, owned_of_isConstant hc,
      fun htmp => absurd hc htmp.not_isConstant⟩
  fold op hr hrefs := by
    obtain ⟨r, s', hfold, hr', hkeep, hsome⟩ := hr.fold op (forall_of_forall₂ hrefs)
    exact ⟨r, s', hfold, hr', fun hy => hkeep hy, hsome⟩
  global g hr := by
    obtain ⟨x, s', hx, hext, -, hg⟩ := Lifted.yields_global g hr.wellFormed
    exact ⟨x, s', hx, hr.extends hext, hg, fun hy => hy.extends hext,
      fun hf => ⟨hf.assignable.extends hext, fun hy => (hf.readable hy).extends hext⟩⟩
  temporary hr := by
    obtain ⟨x, s', hx, hext, hnew⟩ := hr.temporary
    exact ⟨x, s', hx, hr.extends hext, hnew, fun hy => hy.extends hext⟩
  act region hr hdef _ hbase hops := by
    refine ⟨_, Lifted.yields_emit _ _, hr.emitted (fun y hy => ?_) (fun y hy => ?_)
      (fun hi => ?_) ?_⟩
    · rw [hdef] at hy
      cases hy
    · rw [hdef] at hy
      cases hy
    · rw [hi] at hdef
      cases hdef
    · refine Instruction.forall_uses hops fun y hy => ?_
      obtain ⟨g, hg, -⟩ := hbase y hy
      exact ready_of_isGlobal hr.wellFormed.consistent hg
  assignAct region hr hx hdef _ hbase hops :=
    ⟨_, Lifted.yields_emit _ _, hr.assignUnassigned hx hdef
      (fun y hy => (hbase y hy).imp fun _ hg => hg.1) hops⟩
  assign hr hx hdef hact hops :=
    ⟨_, Lifted.yields_emit _ _, hr.assignUnassigned hx hdef
      (fun y hy => by rw [Instruction.base?_eq_none hact] at hy; cases hy) hops⟩

theorem inOrder_start (ht : t.Consistent) (n : NodeId) :
    InOrder t n { symbols := t, node := n } where
  wellFormed := ⟨ht, fun ha => (by cases ha), fun _ hx => (by cases hx)⟩
  node := rfl
  proper := id
  code := orderly_nil
  result _ hi := (Array.not_mem_empty _ hi).elim
  stack _ hx := by cases hx
  distinct x _ := Nat.zero_le _

/-- **Lifting succeeds, and lifted code is in order.** -/
theorem exists_inOrder (ht : t.Consistent) (n : NodeId) (code : List Located) :
    ∃ s, liftAll t n code = .ok s ∧ s.InOrder t n := by
  obtain ⟨_, e, e', hrun⟩ := Evm.exists_some_run code
  obtain ⟨s, hyields, hr⟩ := (orderSimulation t n _ _).lowerCode (inOrder_start ht n)
    (Nat.le_refl _) hrun
  exact ⟨s, liftAll_eq_ok.mpr ⟨_, hyields⟩, hr⟩

end LiftedStack

end EvmFlow
