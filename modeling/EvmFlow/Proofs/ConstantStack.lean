import EvmFlow.Proofs.LiftedStack

/-!
# Constants of the symbolic model

Whatever the symbolic model takes for a constant has that value on the machine, on every stack and
in every environment. In particular a branch of lifted code whose target is a constant is a jump of
the machine to that very word.

* `Event.target?`: the word that a jump of the machine goes to;
* `LiftedStack.Foresees`: the constants on the local stack and in the branches are right;
* `LiftedStack.Suits`: a symbol does not contradict a word;
* `LiftedStack.constantSimulation`: the laws of the model, for this relation;
* **`LiftedStack.exists_liftAll`**: lifting succeeds, and its constants are right.
-/

namespace EvmFlow

open Stateful

/-- The word that a jump goes to. -/
def Event.target? : Event → Option Word
  | ⟨.branch, [w]⟩ => some w
  | ⟨.condBranch, [_, w]⟩ => some w
  | _ => none

namespace LiftedStack

variable {σ : Type}

/-- The constants on the local stack are on the stack of the machine, and the constants in branches
are targets of its jumps. -/
structure Foresees (s : LiftedStack) (e : Evm.State σ) : Prop where
  wellFormed : s.WellFormed
  stack : ∀ {i : Nat} {ref v}, s.stack[i]? = some ref → s.symbols.IsConstant ref v →
    e.stack[i]? = some v
  branch : ∀ {i target}, i ∈ s.out → i.branchTarget? = some target →
    s.symbols.Knows target ∧ ∀ {v}, s.symbols.IsConstant target v →
      ∃ event ∈ e.trace, event.target? = some v

/-- A known symbol that is no constant other than `w`. -/
structure Suits (s : LiftedStack) (x : SymbolRef) (w : Word) : Prop where
  knows : s.symbols.Knows x
  value : ∀ {v}, s.symbols.IsConstant x v → v = w

/-- A temporary, asked for after `s₀`. -/
structure IsNew (s₀ s : LiftedStack) (x : SymbolRef) : Prop where
  isTemporary : s.symbols.IsTemporary x
  suits : ∀ {y v}, s₀.Suits y v → s.Suits y v

section Changes

variable {s s' : LiftedStack} {e : Evm.State σ} {x : SymbolRef} {w : Word}

theorem Suits.grows (hx : s.Suits x w) (hg : s.symbols.Grows s'.symbols) : s'.Suits x w :=
  ⟨hg.knows hx.knows, fun hc => hx.value (hg.isConstant_of_knows hx.knows hc)⟩

theorem suits_of_isTemporary (hx : s.symbols.IsTemporary x) : s.Suits x w :=
  ⟨hx.knows, fun hc => absurd hc hx.not_isConstant⟩

theorem suits_of_isConstant (hx : s.symbols.IsConstant x w) : s.Suits x w :=
  ⟨hx.knows, fun hc => hc.value_unique hx⟩

theorem suits_of_isSlot {n : NodeId} {slot : Int32} (hx : s.symbols.IsSlot n slot x) :
    s.Suits x w := ⟨hx.knows, fun hc => absurd hc hx.not_isConstant⟩

theorem Foresees.extends (hr : s.Foresees e) (h : s.Extends s') : s'.Foresees e where
  wellFormed := h.wellFormed
  stack {i ref v} hi hc := by
    rw [h.stack] at hi
    have hk := hr.wellFormed.stack ref (List.mem_of_getElem? hi)
    exact hr.stack hi (h.grows.isConstant_of_knows hk hc)
  branch {i target} hi ht := by
    rw [h.out] at hi
    obtain ⟨hk, hb⟩ := hr.branch hi ht
    exact ⟨h.grows.knows hk, fun hc => hb (h.grows.isConstant_of_knows hk hc)⟩

/-- An instruction that is no branch changes nothing, whatever the machine does meanwhile. -/
theorem Foresees.emitted (hr : s.Foresees e) {i : Instruction} (hi : i.branchTarget? = none)
    (env : σ) (events : List Event) :
    (s.emitted i).Foresees ⟨e.stack, env, e.trace ++ events⟩ where
  wellFormed := hr.wellFormed.emitted i
  stack := hr.stack
  branch {j target} hj ht := by
    rcases Array.mem_push.mp hj with hj | rfl
    · obtain ⟨hk, hb⟩ := hr.branch hj ht
      refine ⟨hk, fun hc => ?_⟩
      obtain ⟨event, hmem, hv⟩ := hb hc
      exact ⟨event, List.mem_append_left _ hmem, hv⟩
    · rw [hi] at ht
      cases ht

theorem Foresees.emitted_same (hr : s.Foresees e) {i : Instruction} (hi : i.branchTarget? = none) :
    (s.emitted i).Foresees e := by
  have := hr.emitted hi e.env []
  rwa [List.append_nil] at this

/-- A branch goes where its target operand says. -/
theorem Foresees.emitted_branch (hr : s.Foresees e) {i : Instruction} {target : SymbolRef}
    (hi : i.branchTarget? = some target) (ht : s.Suits target w) {env : σ} {event : Event}
    (hevent : event.target? = some w) :
    (s.emitted i).Foresees ⟨e.stack, env, e.trace ++ [event]⟩ where
  wellFormed := hr.wellFormed.emitted i
  stack := hr.stack
  branch {j target'} hj ht' := by
    rcases Array.mem_push.mp hj with hj | rfl
    · obtain ⟨hk, hb⟩ := hr.branch hj ht'
      refine ⟨hk, fun hc => ?_⟩
      obtain ⟨event', hmem, hv⟩ := hb hc
      exact ⟨event', List.mem_append_left _ hmem, hv⟩
    · rw [hi] at ht'
      cases ht'
      refine ⟨ht.knows, fun hc => ⟨event, List.mem_append_right _ List.mem_cons_self, ?_⟩⟩
      rw [hevent, ht.value hc]

/-- Any change of the local stack that the stack of the machine follows. -/
theorem Foresees.withStack (hr : s.Foresees e) {l : List SymbolRef} {ws : List Word}
    (hl : ∀ {i : Nat} {ref}, l[i]? = some ref → s.symbols.Knows ref ∧
      ∀ {v}, s.symbols.IsConstant ref v → ws[i]? = some v) (height : Int32) :
    Foresees { s with stack := l, height } { e with stack := ws } where
  wellFormed := ⟨hr.wellFormed.consistent, hr.wellFormed.argument, fun ref hmem => by
    obtain ⟨i, hi⟩ := List.getElem?_of_mem hmem
    exact (hl hi).1⟩
  stack hi hc := (hl hi).2 hc
  branch := hr.branch

theorem Foresees.suits (hr : s.Foresees e) {i : Nat} (hx : s.stack[i]? = some x)
    (hw : e.stack[i]? = some w) : s.Suits x w := by
  refine ⟨hr.wellFormed.stack x (List.mem_of_getElem? hx), fun {v} hc => ?_⟩
  have := hr.stack hx hc
  rw [hw] at this
  exact (Option.some.inj this).symm

end Changes

/-! ## The operations -/

section Operations

variable {s : LiftedStack} {e : Evm.State σ} {w : Word}

theorem Foresees.pop {ws : List Word} (hr : s.Foresees e) (he : e.stack = w :: ws) :
    ∃ x s', Yields Lifted.pop s x s' ∧ s'.Foresees { e with stack := ws } ∧ s'.Suits x w ∧
      ∀ {y v}, s.Suits y v → s'.Suits y v := by
  cases hs : s.stack with
  | cons x rest =>
    have hx : s.stack[0]? = some x := by rw [hs]; rfl
    refine ⟨x, _, Lifted.yields_pop_local hs, hr.withStack (fun {i ref} hi => ?_) _,
      (hr.suits hx (by rw [he]; rfl)).grows (.refl _), fun hy => hy.grows (.refl _)⟩
    have hi' : s.stack[i + 1]? = some ref := by rw [hs]; exact hi
    refine ⟨hr.wellFormed.stack ref (List.mem_of_getElem? hi'), fun hc => ?_⟩
    have := hr.stack hi' hc
    rwa [he] at this
  | nil =>
    obtain ⟨x, s₁, hpop, hext, hl⟩ := Lifted.yields_pop_entry hr.wellFormed hs
    refine ⟨x, _, hpop, ⟨hext.wellFormed.withBorrows _, fun {i ref v} hi _ => ?_,
      (hr.extends hext).branch⟩, suits_of_isSlot (hext.wellFormed.argument hl),
      fun hy => hy.grows hext.grows⟩
    simp only [hext.stack, hs, List.getElem?_nil] at hi
    cases hi

theorem Foresees.push {x : SymbolRef} (hr : s.Foresees e) (hx : s.Suits x w) :
    Foresees { s with stack := x :: s.stack, height := s.height + 1 }
      { e with stack := w :: e.stack } := by
  refine hr.withStack (fun {i ref} hi => ?_) _
  cases i with
  | zero =>
    cases hi
    exact ⟨hx.knows, fun hc => by rw [hx.value hc]; rfl⟩
  | succ i => exact ⟨hr.wellFormed.stack ref (List.mem_of_getElem? hi), fun hc => hr.stack hi hc⟩

/-- The symbol at a depth suits the word there. -/
theorem Foresees.nth {n : Nat} (hr : s.Foresees e) (hget : e.stack[n]? = some w) :
    ∃ ref s', Yields (Lifted.nth n) s ref s' ∧ s.Extends s' ∧ s'.Suits ref w := by
  cases hs : s.stack[n]? with
  | some ref => exact ⟨ref, s, Lifted.yields_nth_local hs, .refl hr.wellFormed, hr.suits hs hget⟩
  | none =>
    obtain ⟨ref, s', hnth, hext, hl⟩ := Lifted.yields_nth_entry hr.wellFormed hs
    exact ⟨ref, s', hnth, hext, suits_of_isSlot (hext.wellFormed.argument hl)⟩

theorem Foresees.dup {n : Nat} (hr : s.Foresees e) (hget : e.stack[n]? = some w) :
    ∃ s', Yields (Lifted.dup (n + 1)) s () s' ∧ s'.Foresees { e with stack := w :: e.stack } := by
  obtain ⟨source, s₁, hnth, hext, hsuits⟩ := hr.nth hget
  have hr₁ := hr.extends hext
  obtain ⟨x, hx, -⟩ := Lifted.yields_symbol hsuits.knows
  cases hc : x.isConstant with
  | true => exact ⟨_, Lifted.yields_dup_constant hnth hx hc, hr₁.push hsuits⟩
  | false =>
    obtain ⟨y, s₂, hy, hext₂, -, -, htmp⟩ := Lifted.yields_temporary hext.wellFormed
    have hr₂ := ((hr₁.extends hext₂).emitted_same (i := .copy y source) rfl)
    exact ⟨_, Lifted.yields_dup_copy hnth hx hc hy,
      hr₂.push (suits_of_isTemporary (w := w) htmp)⟩

/-- Entries below the local stack may change, and entries of it too if they are temporaries. -/
theorem Foresees.setStack (hr : s.Foresees e) {j : Nat} {x : SymbolRef} (hx : s.Suits x w)
    (hj : j < e.stack.length) :
    Foresees { s with stack := s.stack.set j x } { e with stack := e.stack.set j w } := by
  refine hr.withStack (fun {i ref} hi => ?_) s.height
  by_cases hij : j = i
  · subst hij
    have hlt : j < s.stack.length := by
      simpa using (List.getElem?_eq_some_iff.mp hi).1
    rw [List.getElem?_set_self hlt] at hi
    cases hi
    exact ⟨hx.knows, fun hc => by rw [List.getElem?_set_self hj, hx.value hc]⟩
  · rw [List.getElem?_set_ne hij] at hi
    exact ⟨hr.wellFormed.stack ref (List.mem_of_getElem? hi), fun hc => by
      rw [List.getElem?_set_ne hij, hr.stack hi hc]⟩

theorem Foresees.setBelow (hr : s.Foresees e) {j : Nat} (hj : s.stack.length ≤ j) (v : Word) :
    s.Foresees { e with stack := e.stack.set j v } where
  wellFormed := hr.wellFormed
  stack {i ref u} hi hc := by
    have hlt : i < s.stack.length := (List.getElem?_eq_some_iff.mp hi).1
    rw [List.getElem?_set_ne (by omega)]
    exact hr.stack hi hc
  branch := hr.branch

theorem Foresees.swapEntry {n : Nat} {a b : Word} (hr : s.Foresees e) (hn : s.stack.length ≤ n)
    (ha : e.stack[0]? = some a) (hb : e.stack[n]? = some b) :
    ∃ s', Yields (Lifted.swapEntry n) s () s' ∧
      s'.Foresees { e with stack := (e.stack.set n a).set 0 b } := by
  obtain ⟨other, s₁, hnth, hext, -⟩ := hr.nth hb
  have hr₁ := hr.extends hext
  have hlt : 0 < e.stack.length := (List.getElem?_eq_some_iff.mp ha).1
  cases hs : s.stack with
  | cons top rest =>
    have hs₁ : s₁.stack = top :: rest := hext.stack.trans hs
    obtain ⟨x, s₂, hx, hext₂, -, -, htmp⟩ := Lifted.yields_temporary hext.wellFormed
    have hs₂ : s₂.stack = top :: rest := hext₂.stack.trans hs₁
    have hr₂ := ((hr₁.extends hext₂).emitted_same (i := .copy x other) rfl).emitted_same
      (i := .copy other top) rfl
    have hr₃ := hr₂.setBelow (by change s₂.stack.length ≤ n; rw [hs₂, ← hs]; exact hn) a
    have hr₄ := hr₃.setStack (j := 0) (x := x) (w := b) (suits_of_isTemporary htmp)
      (by rw [List.length_set]; exact hlt)
    have hset : s₂.stack.set 0 x = x :: rest := by rw [hs₂]; rfl
    refine ⟨_, Lifted.yields_swapEntry_local hnth hs₁ hx, ?_⟩
    rw [← hset]
    exact hr₄
  | nil =>
    have hs₁ : s₁.stack = [] := hext.stack.trans hs
    obtain ⟨first, s₂, hnth₂, hext₂, -⟩ := hr₁.nth ha
    obtain ⟨x, s₃, hx, hext₃, -, -, -⟩ := Lifted.yields_temporary hext₂.wellFormed
    have hr₃ := (((hr₁.extends (hext₂.trans hext₃)).emitted_same
      (i := .copy x first) rfl).emitted_same (i := .copy first other) rfl).emitted_same
        (i := .copy other x) rfl
    have hempty : ∀ j, s₃.stack.length ≤ j := fun j => by
      rw [hext₃.stack, hext₂.stack, hs₁]
      exact Nat.zero_le j
    exact ⟨_, Lifted.yields_swapEntry_empty hnth hs₁ hnth₂ hx,
      (hr₃.setBelow (hempty n) a).setBelow (hempty 0) b⟩

theorem Foresees.swap {a b : Word} {mid rest : List Word} (hr : s.Foresees e)
    (he : e.stack = a :: (mid ++ b :: rest)) :
    ∃ s', Yields (Lifted.swap (mid.length + 1)) s () s' ∧
      s'.Foresees { e with stack := b :: (mid ++ a :: rest) } := by
  have ha : e.stack[0]? = some a := by rw [he]; rfl
  have hb : e.stack[mid.length + 1]? = some b := by rw [he]; simp
  have hswap : (e.stack.set (mid.length + 1) a).set 0 b = b :: (mid ++ a :: rest) := by
    rw [he]
    simp
  cases hn : s.stack[mid.length + 1]? with
  | some other =>
    have hlen := (List.getElem?_eq_some_iff.mp hn).1
    obtain ⟨top, htop⟩ : ∃ top, s.stack[0]? = some top :=
      ⟨_, List.getElem?_eq_getElem (by omega)⟩
    have hother := hr.suits hn hb
    have hr₁ := hr.setStack (hr.suits htop ha) (List.getElem?_eq_some_iff.mp hb).1
    have hr₂ := hr₁.setStack (j := 0) (x := other) (w := b) (hother.grows (.refl _))
      (by rw [List.length_set]; exact (List.getElem?_eq_some_iff.mp ha).1)
    rw [hswap] at hr₂
    refine ⟨_, Lifted.yields_swap_local htop hn, ?_⟩
    rw [List.set_comm _ _ (Nat.succ_ne_zero _).symm]
    exact hr₂
  | none =>
    obtain ⟨s', hyields, hr'⟩ := hr.swapEntry (List.getElem?_eq_none_iff.mp hn) ha hb
    rw [hswap] at hr'
    exact ⟨s', Lifted.yields_swap_entry hn hyields, hr'⟩

end Operations

/-! ## The laws of the model -/

section Laws

variable {s s₀ : LiftedStack} {e : Evm.State σ} {i : Instruction} {a : Action} {ws : List Word}

theorem Suits.knows_of_mem {refs : List SymbolRef} (h : List.Forall₂ s.Suits refs ws) :
    ∀ ref ∈ refs, s.symbols.Knows ref := by
  induction h with
  | nil => exact fun _ hx => by cases hx
  | cons hx _ ih => exact List.forall_mem_cons.mpr ⟨hx.knows, ih⟩

theorem Suits.eq_of_isConstant {refs : List SymbolRef} {vs : List Word}
    (hrefs : List.Forall₂ s.Suits refs ws)
    (hconst : List.Forall₂ s.symbols.IsConstant refs vs) : vs = ws := by
  induction hrefs generalizing vs with
  | nil => cases hconst; rfl
  | cons hx _ ih =>
    cases hconst with
    | cons hc hcs => rw [ih hcs, hx.value hc]

theorem Foresees.fold (op : Operator) {refs : List SymbolRef} (hr : s.Foresees e)
    (hrefs : List.Forall₂ s.Suits refs ws) :
    ∃ x s', Yields (Lifted.fold op refs) s x s' ∧ s'.Foresees e ∧
      (∀ {y v}, s.Suits y v → s'.Suits y v) ∧ ∀ y ∈ x, s'.Suits y ((op.eval ws).getD 0) := by
  obtain ⟨x, s', hx, hext, -, hfold⟩ :=
    Lifted.yields_fold op hr.wellFormed (Suits.knows_of_mem hrefs)
  refine ⟨x, s', hx, hr.extends hext, fun hy => hy.grows hext.grows, fun y hy => ?_⟩
  obtain ⟨vs, w, hvs, hw, hc⟩ := hfold y hy
  rw [← Suits.eq_of_isConstant hrefs hvs, hw, Option.getD_some]
  exact suits_of_isConstant hc

/-- Each action is recorded, and if it is a jump, with its target. -/
theorem Foresees.act {region : SymbolRef → Region} (hr : s.Foresees e)
    (hact : i.action? region = some a) (hops : List.Forall₂ s.Suits i.operands ws) (env : σ) :
    (s.emitted i).Foresees ⟨e.stack, env, e.trace ++ [⟨a, ws⟩]⟩ := by
  cases i with
  | branch target =>
    cases hact
    cases hops with
    | cons ht hnil =>
      cases hnil
      exact hr.emitted_branch rfl ht rfl
  | condBranch condition target =>
    cases hact
    cases hops with
    | cons _ hops =>
      cases hops with
      | cons ht hnil =>
        cases hnil
        exact hr.emitted_branch rfl ht rfl
  | _ => exact hr.emitted rfl env [⟨a, ws⟩]

theorem branchTarget?_of_definition? {x : SymbolRef} (h : i.definition? = some x) :
    i.branchTarget? = none := by
  cases i with
  | branch | condBranch => cases h
  | _ => rfl

end Laws

/-- The laws of the model, for the relation between its constants and the machine. -/
def constantSimulation (I : Environment σ) (bound : Nat) : Simulation Lifted I bound where
  Rel := Foresees
  Holds := Suits
  Fit := Suits
  Names _ _ _ := True
  Fresh := IsNew
  pop := Foresees.pop
  push hr _ hx := ⟨_, Lifted.yields_push _ _, hr.push hx⟩
  drop hr he := by
    obtain ⟨x, s', hpop, hr', -⟩ := hr.pop he
    exact ⟨s', Lifted.yields_drop hpop, hr'⟩
  dup hr _ _ hget := hr.dup hget
  swap hr _ he := hr.swap he
  constant w type hr := by
    obtain ⟨x, s', hx, hext, -, hc⟩ := Lifted.yields_constant w type hr.wellFormed
    exact ⟨x, s', hx, hr.extends hext, suits_of_isConstant hc⟩
  fold op hr hrefs := hr.fold op hrefs
  global g hr := by
    obtain ⟨x, s', hx, hext, -, -⟩ := Lifted.yields_global g hr.wellFormed
    exact ⟨x, s', hx, hr.extends hext, trivial, fun hy => hy.grows hext.grows, fun hf =>
      ⟨hf.isTemporary.grows hext.grows, fun hy => (hf.suits hy).grows hext.grows⟩⟩
  temporary hr := by
    obtain ⟨x, s', hx, hext, -, -, htmp⟩ := Lifted.yields_temporary hr.wellFormed
    exact ⟨x, s', hx, hr.extends hext, htmp, fun hy => hy.grows hext.grows⟩
  act region hr _ hact _ hops := ⟨_, Lifted.yields_emit _ _, hr.act hact hops _⟩
  assignAct region hr hx hdef _ _ _ := ⟨_, Lifted.yields_emit _ _,
    hr.emitted (branchTarget?_of_definition? hdef) _ _, suits_of_isTemporary hx.isTemporary⟩
  assign hr hx hdef _ _ := ⟨_, Lifted.yields_emit _ _,
    hr.emitted_same (branchTarget?_of_definition? hdef), suits_of_isTemporary hx.isTemporary⟩

theorem foresees_start {symbols : SymbolTable} (h : symbols.Consistent) (node : NodeId)
    (e : Evm.State σ) : Foresees { symbols, node } e where
  wellFormed := ⟨h, fun ha => (by cases ha), fun _ hx => (by cases hx)⟩
  stack hi := by cases hi
  branch hi := by simp at hi

theorem foresees_of_liftAll {symbols : SymbolTable} (h : symbols.Consistent) (node : NodeId)
    {code : List Located} (I : Environment σ) {e e' : Evm.State σ}
    (hrun : Evm.run I code e = some e') :
    ∃ s, liftAll symbols node code = .ok s ∧ s.Foresees e' := by
  obtain ⟨s, hyields, hr⟩ := (constantSimulation I (e.stack.length + code.length)).lowerCode
    (foresees_start h node e) (Nat.le_refl _) hrun
  exact ⟨s, liftAll_eq_ok.mpr ⟨_, hyields⟩, hr⟩

/-- **Lifting succeeds on every instruction list, and its constants are right**: a branch to a
constant stands for a jump to that word in every run of the instructions. -/
theorem exists_liftAll {symbols : SymbolTable} (h : symbols.Consistent) (node : NodeId)
    (code : List Located) :
    ∃ s, liftAll symbols node code = .ok s ∧ s.WellFormed ∧
      ∀ {σ : Type} (I : Environment σ) {e e' : Evm.State σ}, Evm.run I code e = some e' →
        s.Foresees e' := by
  obtain ⟨_, e, e', hrun⟩ := Evm.exists_some_run code
  obtain ⟨s, hs, hr⟩ := foresees_of_liftAll h node _ hrun
  refine ⟨s, hs, hr.wellFormed, fun I _ _ hrun' => ?_⟩
  obtain ⟨s', hs', hr'⟩ := foresees_of_liftAll h node I hrun'
  rw [hs] at hs'
  cases hs'
  exact hr'

end LiftedStack

end EvmFlow
