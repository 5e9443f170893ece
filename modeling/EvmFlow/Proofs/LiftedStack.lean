import EvmFlow.Lowering.Lifted
import EvmFlow.Proofs.CreatedSymbols
import EvmFlow.Proofs.Simulation

/-!
# The operations of the symbolic model

What each operation of the symbolic stack model answers and what it leaves behind, without any word
about the values of symbols.

* `LiftedStack.WellFormed`: the invariant of the states;
* `LiftedStack.Extends`: what asking for symbols and reading entry slots does to a state;
* one lemma `Lifted.yields_…` for each operation;
* `LiftedStack.Balanced`, **`LiftedStack.summary_of_liftAll`**: the numbers of a stack summary
  always add up.
-/

namespace EvmFlow

open Stateful

instance : Stateful Lifted LiftedStack where
  Yields x s a s' := x s = .ok a s'
  yields_pure _ _ := rfl
  yields_bind {α β x f s s' s'' a b} hx hf := by
    change EStateM.bind x f s = _
    rw [EStateM.bind, hx]
    exact hf

namespace LiftedStack

/-! ## States -/

/-- The table is consistent, entry slots have their symbols, and the symbols on the local stack are
known. -/
structure WellFormed (s : LiftedStack) : Prop where
  consistent : s.symbols.Consistent
  argument : ∀ {slot ref}, s.arguments.lookup slot = some ref → s.symbols.IsSlot s.node slot ref
  stack : ∀ ref ∈ s.stack, s.symbols.Knows ref

/-- `s'` comes from `s` by asking for symbols and reading entry slots: the table grows, each slot
that is read for the first time has a symbol that was not there before, and all else stays. -/
structure Extends (s s' : LiftedStack) : Prop where
  wellFormed : s'.WellFormed
  node : s'.node = s.node
  grows : s.symbols.Grows s'.symbols
  proper : s.symbols.Proper → s'.symbols.Proper
  argument : ∀ {slot ref}, s.arguments.lookup slot = some ref →
    s'.arguments.lookup slot = some ref
  argument_cases : ∀ {slot ref}, s'.arguments.lookup slot = some ref →
    s.arguments.lookup slot = some ref ∨ ¬ s.symbols.Knows ref
  out : s'.out = s.out
  stack : s'.stack = s.stack
  borrows : s'.borrows = s.borrows

variable {s s₁ s₂ s₃ : LiftedStack}

theorem Extends.refl (h : s.WellFormed) : s.Extends s :=
  ⟨h, rfl, .refl _, id, id, .inl, rfl, rfl, rfl⟩

theorem Extends.trans (h₁ : s₁.Extends s₂) (h₂ : s₂.Extends s₃) : s₁.Extends s₃ where
  wellFormed := h₂.wellFormed
  node := h₂.node.trans h₁.node
  grows := h₁.grows.trans h₂.grows
  proper h := h₂.proper (h₁.proper h)
  argument ha := h₂.argument (h₁.argument ha)
  argument_cases ha := by
    rcases h₂.argument_cases ha with ha₂ | hnew
    · exact h₁.argument_cases ha₂
    · exact .inr fun hk => hnew (h₁.grows.knows hk)
  out := h₂.out.trans h₁.out
  stack := h₂.stack.trans h₁.stack
  borrows := h₂.borrows.trans h₁.borrows

/-- The state with another table. -/
theorem Extends.of_table (h : s.WellFormed) {t : SymbolTable} (hg : s.symbols.Grows t)
    (ht : t.Consistent) (hp : s.symbols.Proper → t.Proper) : s.Extends { s with symbols := t } :=
  ⟨⟨ht, fun ha => (h.argument ha).grows hg, fun ref hr => hg.knows (h.stack ref hr)⟩, rfl, hg, hp,
    id, .inl, rfl, rfl, rfl⟩

/-- The state with one more instruction. -/
def emitted (s : LiftedStack) (i : Instruction) : LiftedStack := { s with out := s.out.push i }

theorem WellFormed.emitted (h : s.WellFormed) (i : Instruction) : (s.emitted i).WellFormed :=
  ⟨h.consistent, h.argument, h.stack⟩

theorem WellFormed.push (h : s.WellFormed) {ref : SymbolRef} (hr : s.symbols.Knows ref)
    (height : Int32) : WellFormed { s with stack := ref :: s.stack, height } :=
  ⟨h.consistent, h.argument, fun x hx => by
    rcases List.mem_cons.mp hx with rfl | hx
    · exact hr
    · exact h.stack x hx⟩

theorem WellFormed.drop (h : s.WellFormed) {ref : SymbolRef} {rest : List SymbolRef}
    (hs : s.stack = ref :: rest) (height : Int32) : WellFormed { s with stack := rest, height } :=
  ⟨h.consistent, h.argument, fun x hx => h.stack x (by rw [hs]; exact List.mem_cons_of_mem _ hx)⟩

theorem WellFormed.withHeight (h : s.WellFormed) (height : Int32) :
    WellFormed { s with height } := ⟨h.consistent, h.argument, h.stack⟩

theorem WellFormed.withBorrows (h : s.WellFormed) (borrows : Nat) :
    WellFormed { s with borrows } := ⟨h.consistent, h.argument, h.stack⟩

end LiftedStack

namespace Lifted

variable {s : LiftedStack}

/-! ## Symbols -/

theorem yields_get (s : LiftedStack) : Yields (get : Lifted LiftedStack) s s s := rfl

theorem yields_modify (f : LiftedStack → LiftedStack) (s : LiftedStack) :
    Yields (modify f : Lifted Unit) s () (f s) := rfl

theorem yields_temporary (h : s.WellFormed) : ∃ x s', Yields temporary s x s' ∧ s.Extends s' ∧
    s'.arguments = s.arguments ∧ ¬ s.symbols.Knows x ∧ s'.symbols.IsTemporary x :=
  ⟨_, _, rfl, .of_table h (s.symbols.temporary_grows (.block s.node)) (h.consistent.temporary _)
      (fun hp => hp.temporary _),
    rfl, s.symbols.temporary_fresh (.block s.node), s.symbols.temporary_isTemporary (.block s.node)⟩

theorem yields_global (g : Global) (h : s.WellFormed) : ∃ x s', Yields (global g) s x s' ∧
    s.Extends s' ∧ s'.arguments = s.arguments ∧ s'.symbols.IsGlobal g x :=
  ⟨_, _, rfl, .of_table h (s.symbols.global_grows g) (h.consistent.global_op g)
      (fun hp => hp.global_op g), rfl,
    s.symbols.global_isGlobal g⟩

theorem yields_constant (w : Word) (type : TypeHint) (h : s.WellFormed) :
    ∃ x s', Yields (constant w type) s x s' ∧ s.Extends s' ∧ s'.arguments = s.arguments ∧
      s'.symbols.IsConstant x w :=
  ⟨_, _, rfl, .of_table h (s.symbols.constant_grows w type) (h.consistent.constant_op w type)
      (fun hp => hp.constant_op w type), rfl,
    h.consistent.constant_isConstant w type⟩

theorem yields_emit (s : LiftedStack) (i : Instruction) :
    Yields (emit i) s () (s.emitted i) := rfl

theorem yields_symbol {ref : SymbolRef} (hk : s.symbols.Knows ref) :
    ∃ x, Yields (symbol ref) s x s ∧ s.symbols.symbol ref = .ok x := by
  obtain ⟨i, hi⟩ := hk
  obtain ⟨x, hx, -⟩ := SymbolTable.exists_symbol_of_identity? hi
  refine ⟨x, yields_bind (yields_get s) ?_, hx⟩
  simp only [hx]
  exact yields_pure x s

/-! ## Folding -/

theorem yields_values? {refs : List SymbolRef} (hk : ∀ ref ∈ refs, s.symbols.Knows ref) :
    ∃ r, Yields (values? refs) s r s ∧
      ∀ vs ∈ r, List.Forall₂ s.symbols.IsConstant refs vs := by
  induction refs with
  | nil => exact ⟨some [], yields_pure _ s, fun vs hvs => by cases hvs; exact .nil⟩
  | cons ref rest ih =>
    obtain ⟨x, hx, hsym⟩ := yields_symbol (hk ref List.mem_cons_self)
    obtain ⟨r, hr, hconst⟩ := ih fun y hy => hk y (List.mem_cons_of_mem _ hy)
    cases hv : x.value? with
    | none =>
      refine ⟨none, yields_bind hx ?_, fun vs hvs => by cases hvs⟩
      simp only [hv]
      exact yields_pure none s
    | some v =>
      refine ⟨r.map (v :: ·), yields_bind hx ?_, fun vs hvs => ?_⟩
      · simp only [hv]
        exact yields_bind hr (yields_pure _ s)
      · obtain ⟨us, hus, rfl⟩ := Option.map_eq_some_iff.mp hvs
        exact .cons (SymbolTable.isConstant_of_symbol hsym hv) (hconst us hus)

/-- A folded operator has constants for operands, and its result on them for a result. -/
theorem yields_fold (op : Operator) {refs : List SymbolRef} (h : s.WellFormed)
    (hk : ∀ ref ∈ refs, s.symbols.Knows ref) :
    ∃ r s', Yields (fold op refs) s r s' ∧ s.Extends s' ∧ s'.arguments = s.arguments ∧
      ∀ x ∈ r, ∃ vs w, List.Forall₂ s.symbols.IsConstant refs vs ∧ op.eval vs = some w ∧
        s'.symbols.IsConstant x w := by
  obtain ⟨r, hr, hconst⟩ := yields_values? hk
  cases he : r.bind op.eval with
  | none =>
    refine ⟨none, s, yields_bind hr ?_, .refl h, rfl, fun x hx => by cases hx⟩
    simp only [he]
    exact yields_pure none s
  | some w =>
    obtain ⟨vs, hvs, hw⟩ := Option.bind_eq_some_iff.mp he
    obtain ⟨x, s', hx, hext, harg, hc⟩ := yields_constant w .word h
    refine ⟨some x, s', yields_bind hr ?_, hext, harg, fun y hy => ?_⟩
    · simp only [he]
      exact yields_bind hx (yields_pure _ s')
    · cases hy
      exact ⟨vs, w, hconst vs hvs, hw, hc⟩

/-! ## Reading the stack -/

theorem yields_argument (slot : Int32) (h : s.WellFormed) :
    ∃ ref s', Yields (argument slot) s ref s' ∧ s.Extends s' ∧
      s'.arguments.lookup slot = some ref := by
  cases hl : s.arguments.lookup slot with
  | some ref =>
    refine ⟨ref, s, yields_bind (yields_get s) ?_, .refl h, hl⟩
    simp only [hl]
    exact yields_pure ref s
  | none =>
    have hg := s.symbols.insert_grows (.block s.node) (.stackSlot slot)
    have hnew : (s.symbols.insert (.block s.node) (.stackSlot slot)).2.IsSlot s.node slot
        s.symbols.size := s.symbols.identity?_insert_self _ _
    refine ⟨s.symbols.size, { s with
        symbols := (s.symbols.insert (.block s.node) (.stackSlot slot)).2
        arguments := (slot, s.symbols.size) :: s.arguments }, yields_bind (yields_get s) ?_, ?_,
      List.lookup_cons_self⟩
    · simp only [hl]
      rfl
    · have hold := LiftedStack.Extends.of_table h hg (h.consistent.insert _ _)
        fun hp => hp.insert (.inr ⟨rfl, rfl⟩)
      refine ⟨⟨hold.wellFormed.consistent, fun {slot' ref} ha => ?_, hold.wellFormed.stack⟩, rfl,
        hg, hold.proper, fun {slot' ref} ha => ?_, fun {slot' ref} ha => ?_, rfl, rfl, rfl⟩
      · simp only [List.lookup_cons] at ha
        split at ha
        · next hs => cases ha; rwa [eq_of_beq hs]
        · exact hold.wellFormed.argument ha
      · have hne : slot' ≠ slot := fun he => by rw [he, hl] at ha; cases ha
        have hb : (slot' == slot) = false := by simpa using hne
        simp only [List.lookup_cons, hb]
        exact ha
      · simp only [List.lookup_cons] at ha
        split at ha
        · cases ha
          exact .inr s.symbols.not_knows_size
        · exact .inl ha

theorem yields_nth_local {n : Nat} {ref : SymbolRef} (hs : s.stack[n]? = some ref) :
    Yields (nth n) s ref s := by
  refine yields_bind (yields_get s) ?_
  simp only [hs]
  exact yields_pure ref s

theorem yields_nth_entry {n : Nat} (h : s.WellFormed) (hs : s.stack[n]? = none) :
    ∃ ref s', Yields (nth n) s ref s' ∧ s.Extends s' ∧
      s'.arguments.lookup (s.slot n) = some ref := by
  obtain ⟨ref, s', hyields, hext, hl⟩ := yields_argument (s.slot n) h
  refine ⟨ref, s', yields_bind (yields_get s) ?_, hext, hl⟩
  simp only [hs]
  exact hyields

/-! ## Changing the stack -/

theorem yields_push (ref : SymbolRef) (s : LiftedStack) :
    Yields (push ref) s () { s with stack := ref :: s.stack, height := s.height + 1 } := rfl

theorem yields_pop_local {ref : SymbolRef} {rest : List SymbolRef} (hs : s.stack = ref :: rest) :
    Yields pop s ref { s with stack := rest, height := s.height - 1 } := by
  refine yields_bind (yields_modify _ s) (yields_bind (yields_get _) ?_)
  simp only [hs]
  exact yields_bind (yields_modify _ _) (yields_pure ref _)

theorem yields_pop_entry (h : s.WellFormed) (hs : s.stack = []) :
    ∃ ref s', Yields pop s ref { s' with borrows := s'.borrows + 1 } ∧ s.Extends s' ∧
      s'.arguments.lookup (s.slot 0) = some ref := by
  let s₁ : LiftedStack := { s with height := s.height - 1 }
  have hs₁ : s₁.stack = [] := hs
  obtain ⟨ref, s', hnth, hext, hl⟩ := yields_nth_entry (s := s₁) (n := 0) (h.withHeight _)
    (by rw [hs₁]; rfl)
  refine ⟨ref, s', ?_, ?_, hl⟩
  · refine yields_bind (yields_modify _ s) (yields_bind (yields_get s₁) ?_)
    simp only [hs₁]
    exact yields_bind hnth (yields_bind (yields_modify _ s') (yields_pure ref _))
  · exact ⟨hext.wellFormed, hext.node, hext.grows, hext.proper, hext.argument, hext.argument_cases,
      hext.out, hext.stack, hext.borrows⟩

theorem yields_drop {ref : SymbolRef} {s' : LiftedStack} (h : Yields pop s ref s') :
    Yields (StackMachine.drop : Lifted Unit) s () s' := yields_bind h (yields_pure () s')

/-- A constant is its own copy. -/
theorem yields_dup_constant {n : Nat} {source : SymbolRef} {s₁ : LiftedStack} {x : Symbol}
    (hnth : Yields (nth n) s source s₁) (hx : Yields (symbol source) s₁ x s₁)
    (hc : x.isConstant = true) :
    Yields (dup (n + 1)) s () { s₁ with stack := source :: s₁.stack, height := s₁.height + 1 } := by
  refine yields_bind hnth (yields_bind hx ?_)
  rw [if_pos hc]
  exact yields_push source s₁

theorem yields_dup_copy {n : Nat} {source y : SymbolRef} {s₁ s₂ : LiftedStack} {x : Symbol}
    (hnth : Yields (nth n) s source s₁) (hx : Yields (symbol source) s₁ x s₁)
    (hc : x.isConstant = false) (hy : Yields temporary s₁ y s₂) :
    Yields (dup (n + 1)) s () { s₂.emitted (.copy y source) with
      stack := y :: s₂.stack, height := s₂.height + 1 } := by
  refine yields_bind hnth (yields_bind hx ?_)
  rw [if_neg (by rw [hc]; exact Bool.false_ne_true)]
  exact yields_bind hy (yields_bind (yields_emit s₂ _) (yields_push y _))

theorem yields_swap_local {n : Nat} {top other : SymbolRef} (h₀ : s.stack[0]? = some top)
    (hn : s.stack[n]? = some other) :
    Yields (swap n) s () { s with stack := (s.stack.set 0 other).set n top } := by
  refine yields_bind (yields_get s) ?_
  simp only [h₀, hn]
  exact yields_modify _ s

theorem yields_swap_entry {n : Nat} {s' : LiftedStack} (hn : s.stack[n]? = none)
    (h : Yields (swapEntry n) s () s') : Yields (swap n) s () s' := by
  refine yields_bind (yields_get s) ?_
  cases h₀ : s.stack[0]? <;> simpa only [h₀, hn] using h

theorem yields_swapEntry_local {n : Nat} {other top x : SymbolRef} {rest : List SymbolRef}
    {s₁ s₂ : LiftedStack} (hnth : Yields (nth n) s other s₁) (hs : s₁.stack = top :: rest)
    (hx : Yields temporary s₁ x s₂) :
    Yields (swapEntry n) s () { (s₂.emitted (.copy x other)).emitted (.copy other top) with
      stack := x :: rest } := by
  refine yields_bind hnth (yields_bind (yields_get s₁) ?_)
  simp only [hs]
  exact yields_bind hx (yields_bind (yields_emit _ _) (yields_bind (yields_emit _ _)
    (yields_modify _ _)))

theorem yields_swapEntry_empty {n : Nat} {other first x : SymbolRef} {s₁ s₂ s₃ : LiftedStack}
    (hnth : Yields (nth n) s other s₁) (hs : s₁.stack = []) (hfirst : Yields (nth 0) s₁ first s₂)
    (hx : Yields temporary s₂ x s₃) :
    Yields (swapEntry n) s ()
      (((s₃.emitted (.copy x first)).emitted (.copy first other)).emitted (.copy other x)) := by
  refine yields_bind hnth (yields_bind (yields_get s₁) ?_)
  simp only [hs]
  exact yields_bind hfirst (yields_bind hx (yields_bind (yields_emit _ _)
    (yields_bind (yields_emit _ _) (yields_emit _ _))))

end Lifted

/-! ## Stack summaries -/

namespace LiftedStack

/-- The height is that of the local stack less the entries taken, in 32 bits. -/
def Balanced (s : LiftedStack) : Prop :=
  s.height = Int32.ofInt (s.stack.length - s.borrows)

theorem Balanced.summary {s : LiftedStack} (h : s.Balanced) : s.summary = .ok s.info := by
  refine if_pos ?_
  have hsum : (s.borrows : Int) + (s.stack.length - s.borrows) = s.stack.length := by omega
  simp only [StackInfo.balanced, info, List.length_reverse, decide_eq_true_eq]
  rw [show s.height = _ from h, ← Int32.ofInt_add, hsum, Int32.ofInt_eq_ofNat]

end LiftedStack

namespace Lifted

/-- `s'` has symbols and code besides those of `s`, where `Q` holds of the new instructions. -/
structure Adds (Q : Instruction → Prop) (s s' : LiftedStack) : Prop where
  symbols : s.symbols.Enlarges s'.symbols
  code : ∀ i ∈ s'.out, i ∈ s.out ∨ Q i

theorem Adds.trans {Q : Instruction → Prop} {s s' s'' : LiftedStack} (h : Adds Q s s')
    (h' : Adds Q s' s'') : Adds Q s s'' :=
  ⟨h.symbols.trans h'.symbols, fun i hi => (h'.code i hi).elim (h.code i) .inr⟩

/-- A computation that at most adds symbols and code and leaves the stack and its numbers alone. -/
def Steady (Q : Instruction → Prop) {α : Type} (x : Lifted α) : Prop := ∀ s a s', Yields x s a s' →
  Adds Q s s' ∧ s'.stack = s.stack ∧ s'.borrows = s.borrows ∧ s'.height = s.height

/-- A computation that at most adds symbols and code and keeps the numbers in balance. -/
def Balances (Q : Instruction → Prop) {α : Type} (x : Lifted α) : Prop :=
  ∀ s a s', Yields x s a s' → Adds Q s s' ∧ (s.Balanced → s'.Balanced)

theorem exists_of_yields_bind {α β : Type} {x : Lifted α} {f : α → Lifted β} {s s'' : LiftedStack}
    {b : β} (h : Yields (x >>= f) s b s'') :
    ∃ a s', Yields x s a s' ∧ Yields (f a) s' b s'' := by
  change EStateM.bind x f s = _ at h
  unfold EStateM.bind at h
  split at h
  · next a s' hx => exact ⟨a, s', hx, h⟩
  · cases h

section Steady

variable {α β : Type} {Q : Instruction → Prop}

theorem Adds.of_eq {s s' : LiftedStack} (hsymbols : s.symbols.Enlarges s'.symbols)
    (hout : s'.out = s.out) : Adds Q s s' := ⟨hsymbols, fun _ hi => .inl (hout ▸ hi)⟩

theorem Adds.push {s s' : LiftedStack} (h : Adds Q s s') {i : Instruction} (hi : Q i) :
    Adds Q s { s' with out := s'.out.push i } := by
  refine ⟨h.symbols, fun j hj => ?_⟩
  rcases Array.mem_push.mp hj with hj | rfl
  · exact h.code j hj
  · exact .inr hi

theorem Steady.pure (a : α) : Steady Q (pure a) := fun _ _ _ h => by
  cases h
  exact ⟨.of_eq .refl rfl, rfl, rfl, rfl⟩

theorem Steady.bind {x : Lifted α} {f : α → Lifted β} (hx : Steady Q x)
    (hf : ∀ a, Steady Q (f a)) : Steady Q (x >>= f) := fun _ _ _ h => by
  obtain ⟨a, s', hxs, hfs⟩ := exists_of_yields_bind h
  obtain ⟨h₀, h₁, h₂, h₃⟩ := hx _ _ _ hxs
  obtain ⟨h₀', h₁', h₂', h₃'⟩ := hf a _ _ _ hfs
  exact ⟨h₀.trans h₀', h₁'.trans h₁, h₂'.trans h₂, h₃'.trans h₃⟩

theorem Steady.onTable {f : SymbolTable → SymbolRef × SymbolTable}
    (hf : ∀ t : SymbolTable, t.Creates (f t).2) : Steady Q (onTable f) := fun s _ _ h => by
  cases h
  exact ⟨.of_eq (.single (hf s.symbols)) rfl, rfl, rfl, rfl⟩

theorem Steady.get : Steady Q (get : Lifted LiftedStack) := fun _ _ _ h => by
  cases h
  exact ⟨.of_eq .refl rfl, rfl, rfl, rfl⟩

theorem Steady.temporary : Steady Q temporary :=
  Steady.get.bind fun s => .onTable fun _ => .temporary (.block s.node)

theorem Steady.emit {i : Instruction} (hi : Q i) : Steady Q (emit i) := fun _ _ _ h => by
  cases h
  exact ⟨(Adds.of_eq .refl rfl).push hi, rfl, rfl, rfl⟩

theorem Steady.symbol (ref : SymbolRef) : Steady Q (symbol ref) := by
  refine Steady.get.bind fun s => ?_
  split
  · exact .pure _
  · exact fun _ _ _ h => by cases h

theorem Steady.argument (slot : Int32) : Steady Q (argument slot) := by
  refine Steady.get.bind fun s => ?_
  split
  · exact .pure _
  · refine (Steady.onTable fun _ => .stackSlot _ slot).bind fun _ =>
      Steady.bind (fun _ _ _ h => ?_) fun _ => .pure _
    cases h
    exact ⟨.of_eq .refl rfl, rfl, rfl, rfl⟩

theorem Steady.nth (n : Nat) : Steady Q (nth n) := by
  refine Steady.get.bind fun s => ?_
  split
  · exact .pure _
  · exact .argument _

theorem Steady.values? (refs : List SymbolRef) : Steady Q (values? refs) := by
  induction refs with
  | nil => exact .pure _
  | cons ref rest ih =>
    refine (Steady.symbol ref).bind fun s => ?_
    split
    · exact ih.bind fun _ => .pure _
    · exact .pure _

theorem Steady.constant (w : Word) {type : TypeHint} (htype : type ≠ .bool) :
    Steady Q (constant w type) := .onTable fun _ => .constant w htype

theorem Steady.fold (op : Operator) (refs : List SymbolRef) : Steady Q (fold op refs) := by
  refine (Steady.values? refs).bind fun vs => ?_
  split
  · exact (Steady.constant _ fun h => by cases h).bind fun _ => .pure _
  · exact .pure _

end Steady

section Balances

variable {α β : Type} {Q : Instruction → Prop}

theorem Steady.balances {x : Lifted α} (h : Steady Q x) : Balances Q x := fun _ _ _ hx => by
  obtain ⟨hg, h₁, h₂, h₃⟩ := h _ _ _ hx
  refine ⟨hg, fun hb => ?_⟩
  rw [LiftedStack.Balanced, h₁, h₂, h₃]
  exact hb

theorem Balances.bind {x : Lifted α} {f : α → Lifted β} (hx : Balances Q x)
    (hf : ∀ a, Balances Q (f a)) : Balances Q (x >>= f) := fun _ _ _ h => by
  obtain ⟨a, s', hxs, hfs⟩ := exists_of_yields_bind h
  obtain ⟨hg, hb⟩ := hx _ _ _ hxs
  obtain ⟨hg', hb'⟩ := hf a _ _ _ hfs
  exact ⟨hg.trans hg', fun h => hb' (hb h)⟩

theorem Balances.push (ref : SymbolRef) : Balances Q (push ref) := fun s _ _ h => by
  cases h
  refine ⟨.of_eq .refl rfl, fun hb => ?_⟩
  have hsub : ((ref :: s.stack).length : Int) - s.borrows = s.stack.length - s.borrows + 1 := by
    rw [List.length_cons]
    omega
  rw [LiftedStack.Balanced, hsub, Int32.ofInt_add, ← show s.height = _ from hb]
  rfl

theorem Balances.pop : Balances Q pop := fun s _ _ h => by
  obtain ⟨_, s₁, hm, h₁⟩ := exists_of_yields_bind h
  cases hm
  obtain ⟨_, s₂, hget, h₂⟩ := exists_of_yields_bind h₁
  cases hget
  simp only at h₂
  split at h₂
  · next ref rest hs =>
    cases h₂
    refine ⟨.of_eq .refl rfl, fun hb => ?_⟩
    have hsub : (rest.length : Int) - s.borrows = (s.stack.length - s.borrows) - 1 := by
      rw [hs, List.length_cons]
      omega
    rw [LiftedStack.Balanced, hsub, Int32.ofInt_sub, ← show s.height = _ from hb]
    rfl
  · next hs =>
    obtain ⟨ref, s₃, hnth, h₃⟩ := exists_of_yields_bind h₂
    cases h₃
    obtain ⟨hg, hstack, hborrows, hheight⟩ := Steady.nth 0 _ _ _ hnth
    refine ⟨⟨hg.symbols, hg.code⟩, fun hb => ?_⟩
    have hsub : (s.stack.length : Int) - (s.borrows + 1 : Nat) =
        (s.stack.length - s.borrows) - 1 := by omega
    change s₃.height = Int32.ofInt (s₃.stack.length - (s₃.borrows + 1 : Nat))
    rw [hstack, hborrows, hheight, hsub, Int32.ofInt_sub, ← show s.height = _ from hb]
    rfl

-- The operations emit no branches.
variable (hQ : ∀ i : Instruction, i.branchTarget? = none → Q i)

include hQ

theorem Balances.dup (n : Nat) : Balances Q (dup n) := by
  refine (Steady.nth _).balances.bind fun source => (Steady.symbol _).balances.bind fun x => ?_
  split
  · exact .push source
  · refine Steady.temporary.balances.bind fun y => ?_
    exact (Steady.emit (hQ _ rfl)).balances.bind fun _ => .push y

theorem Balances.swapEntry (n : Nat) : Balances Q (swapEntry n) := by
  refine (Steady.nth n).balances.bind fun other => fun s _ _ h => ?_
  obtain ⟨_, s₁, hget, h₁⟩ := exists_of_yields_bind h
  cases hget
  split at h₁
  · next top rest hs =>
    obtain ⟨x, s₂, hx, h₂⟩ := exists_of_yields_bind h₁
    obtain ⟨hg, hstack, hborrows, hheight⟩ := Steady.temporary _ _ _ hx
    cases h₂
    have hcopies := (hg.push (hQ (.copy x other) rfl)).push (hQ (.copy other top) rfl)
    refine ⟨⟨hcopies.symbols, hcopies.code⟩, fun hb => ?_⟩
    have hlen : (x :: rest).length = s.stack.length := by rw [hs]; rfl
    change s₂.height = Int32.ofInt ((x :: rest).length - s₂.borrows)
    rw [hlen, hborrows, hheight]
    exact hb
  · refine Balances.bind (Steady.nth 0).balances (fun _ => ?_) _ _ _ h₁
    have hemit : ∀ x y, Balances Q (emit (.copy x y)) :=
      fun x y => (Steady.emit (hQ _ rfl)).balances
    refine Steady.temporary.balances.bind fun _ => (hemit _ _).bind fun _ => ?_
    exact (hemit _ _).bind fun _ => hemit _ _

theorem Balances.swap (n : Nat) : Balances Q (swap n) := by
  intro s _ _ h
  obtain ⟨_, s₁, hget, h₁⟩ := exists_of_yields_bind h
  cases hget
  dsimp only at h₁
  split at h₁
  · cases h₁
    refine ⟨.of_eq .refl rfl, fun hb => ?_⟩
    change s.height = Int32.ofInt (((s.stack.set 0 _).set n _).length - s.borrows)
    rw [List.length_set, List.length_set]
    exact hb
  · exact Balances.swapEntry hQ n _ _ _ h₁

theorem Balances.closedInner : ClosedInner Lifted (Balances Q) where
  pure a := (Steady.pure a).balances
  bind := Balances.bind
  temporary := Steady.temporary.balances
  constant w _ htype := (Steady.constant w htype).balances
  global g := (Steady.onTable fun _ => .global g).balances
  emit i hi := (Steady.emit (hQ i hi)).balances
  pop := Balances.pop
  push := Balances.push
  drop := Balances.pop.bind fun _ => (Steady.pure ()).balances
  dup := Balances.dup hQ
  swap := Balances.swap hQ
  fold op refs := (Steady.fold op refs).balances

omit hQ in
theorem Balances.closed : Closed Lifted (Balances fun _ => True) where
  toClosedInner := Balances.closedInner fun _ _ => trivial
  jump := Balances.pop.bind fun _ => (Steady.emit trivial).balances
  jumpIf := Balances.pop.bind fun _ => Balances.pop.bind fun _ => (Steady.emit trivial).balances

end Balances

end Lifted

theorem LiftedStack.liftAll_eq_ok {symbols : SymbolTable} {node : NodeId} {code : List Located}
    {s : LiftedStack} : liftAll symbols node code = .ok s ↔
      ∃ gaps, Yields (lowerCode code : Lifted (List Located)) { symbols, node } gaps s := by
  change _ ↔ ∃ gaps, (lowerCode code : Lifted (List Located)) { symbols, node } =
    EStateM.Result.ok gaps s
  unfold liftAll EStateM.run
  cases (lowerCode code : Lifted (List Located)) { symbols, node } with
  | ok gaps s' => simp
  | error f s' => simp

/-- Lowering only creates symbols. -/
theorem Lifted.enlarges_lowerCode {s s' : LiftedStack} {code gaps : List Located}
    (h : Yields (lowerCode code : Lifted (List Located)) s gaps s') :
    s.symbols.Enlarges s'.symbols := (Balances.closed.lowerCode code _ _ _ h).1.symbols

theorem LiftedStack.enlarges_liftAll {symbols : SymbolTable} {node : NodeId} {code : List Located}
    {s : LiftedStack} (h : liftAll symbols node code = .ok s) : symbols.Enlarges s.symbols := by
  obtain ⟨gaps, hyields⟩ := liftAll_eq_ok.mp h
  exact Lifted.enlarges_lowerCode hyields

/-- **The numbers of a stack summary add up**, and lifting only adds to the table. -/
theorem LiftedStack.summary_of_liftAll {symbols : SymbolTable} {node : NodeId}
    {code : List Located} {s : LiftedStack} (h : liftAll symbols node code = .ok s) :
    s.summary = .ok s.info ∧ symbols.Grows s.symbols := by
  obtain ⟨gaps, hyields⟩ := liftAll_eq_ok.mp h
  obtain ⟨hg, hb⟩ := Lifted.Balances.closed.lowerCode code _ _ _ hyields
  exact ⟨(hb rfl).summary, hg.symbols.grows⟩

end EvmFlow
