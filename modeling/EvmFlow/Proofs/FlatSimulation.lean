import EvmFlow.Lowering.Flat
import EvmFlow.Proofs.CreatedSymbols
import EvmFlow.Proofs.FlatMachine
import EvmFlow.Proofs.Simulation

/-!
# Flat code follows the stack machine

The flat model satisfies the laws of a stack model, with stacks of fewer than `2 ^ 256` words, so
the code it makes of any instruction list does what the stack machine does.

* `FlatStack.Adds`: what asking for symbols does to a state of the model;
* `FlatRun`, `FlatRun.Rel`, `FlatRun.Holds`: a run of the code made so far, and its relation to the
  machine; the relation speaks of every table that the table of the model can still grow into;
* `FlatRun.step`, `FlatRun.load`, `FlatRun.store`, `FlatRun.indexOf`: the parts of the operations;
* `FlatRun.simulation`: the laws of the model;
* **`FlatStack.lowerAll_simulates`**: flat code follows the machine.
-/

namespace EvmFlow

open Stateful

instance : Stateful Flat FlatStack where
  Yields x s a s' := x s = (a, s')
  yields_pure _ _ := rfl
  yields_bind {α β x f s s' s'' a b} hx hf := by
    change (f (x s).1) (x s).2 = (b, s'')
    rw [hx, hf]

/-! ## Asking for symbols -/

/-- `s'` comes from `s` by asking for symbols: the table grows and there is no new code. -/
structure FlatStack.Adds (s s' : FlatStack) : Prop where
  grows : s.symbols.Grows s'.symbols
  consistent : s'.symbols.Consistent
  scope : s'.scope = s.scope
  out : s'.out = s.out

theorem FlatStack.Adds.trans {s₁ s₂ s₃ : FlatStack} (h₁ : s₁.Adds s₂) (h₂ : s₂.Adds s₃) :
    s₁.Adds s₃ :=
  ⟨h₁.grows.trans h₂.grows, h₂.consistent, h₂.scope.trans h₁.scope, h₂.out.trans h₁.out⟩

namespace Flat

variable {s : FlatStack}

theorem yields_temporary (h : s.symbols.Consistent) : ∃ x s', Yields temporary s x s' ∧
    s.Adds s' ∧ ¬ s.symbols.Knows x ∧ s'.symbols.IsTemporary x :=
  ⟨_, _, rfl, ⟨s.symbols.temporary_grows s.scope, h.temporary s.scope, rfl, rfl⟩,
    s.symbols.temporary_fresh s.scope, s.symbols.temporary_isTemporary s.scope⟩

theorem yields_global (g : Global) (h : s.symbols.Consistent) : ∃ x s', Yields (global g) s x s' ∧
    s.Adds s' ∧ s'.symbols.IsGlobal g x :=
  ⟨_, _, rfl, ⟨s.symbols.global_grows g, h.global_op g, rfl, rfl⟩, s.symbols.global_isGlobal g⟩

theorem yields_constant (w : Word) (type : TypeHint) (h : s.symbols.Consistent) :
    ∃ x s', Yields (constant w type) s x s' ∧ s.Adds s' ∧ s'.symbols.IsConstant x w :=
  ⟨_, _, rfl, ⟨s.symbols.constant_grows w type, h.constant_op w type, rfl, rfl⟩,
    h.constant_isConstant w type⟩

theorem setWidth_ofNat {n : Nat} (h : n < 2 ^ 64) :
    (BitVec.ofNat 64 n).setWidth 256 = BitVec.ofNat 256 n := by
  apply BitVec.eq_of_toNat_eq
  rw [BitVec.toNat_setWidth, BitVec.toNat_ofNat, BitVec.toNat_ofNat, Nat.mod_eq_of_lt h]

theorem yields_number {n : Nat} (hn : n < 2 ^ 64) (h : s.symbols.Consistent) :
    ∃ x s', Yields (number n) s x s' ∧ s.Adds s' ∧
      s'.symbols.IsConstant x (BitVec.ofNat 256 n) := by
  unfold number
  rw [setWidth_ofNat hn]
  exact yields_constant _ _ h

end Flat

/-- The state with one more instruction. -/
def FlatStack.emitted (s : FlatStack) (i : Instruction) : FlatStack :=
  { s with out := s.out.push i }

theorem Flat.yields_emit (s : FlatStack) (i : Instruction) :
    Yields (Flat.emit i) s () (s.emitted i) := rfl

/-! ## Runs of the code made so far -/

/-- What a run of flat code depends on: the environment, the table that holds the symbols in the
end, and the machine at the start. -/
structure FlatRun (σ : Type) where
  environment : Environment σ
  table : SymbolTable
  start : Machine (StackArray × σ)

namespace FlatRun

variable {σ : Type} (r : FlatRun σ)

/-- The machine after the code made so far. -/
def machine (s : FlatStack) : Machine (StackArray × σ) :=
  r.start.run r.environment.withStack r.table s.out.toList

/-- The table of the run is one that the table of the model can grow into. -/
structure Later (s : FlatStack) : Prop where
  grows : s.symbols.Grows r.table
  consistent : r.table.Consistent

/-- The code made so far leads to the given state of the machine. -/
structure Rel (s : FlatStack) (e : Evm.State σ) : Prop where
  consistent : s.symbols.Consistent
  length : e.stack.length < 2 ^ 256
  represents : r.Later s → Represents r.table (r.machine s) e

/-- A symbol that only its definition assigns holds a word. -/
structure Holds (s : FlatStack) (x : SymbolRef) (w : Word) : Prop where
  defined : s.symbols.IsTemporary x ∨ ∃ v, s.symbols.IsConstant x v
  value : r.Later s → (r.machine s).values x = w

variable {r}

theorem Holds.knows {s : FlatStack} {x : SymbolRef} {w : Word} (h : r.Holds s x w) :
    s.symbols.Knows x := by
  rcases h.defined with ht | ⟨v, hc⟩
  · exact ht.knows
  · exact hc.knows

section Adds

variable {s s' : FlatStack} {e : Evm.State σ} {x : SymbolRef} {w : Word}

theorem machine_adds (h : s.Adds s') : r.machine s' = r.machine s := by
  rw [machine, machine, h.out]

theorem Later.of_adds (hl : r.Later s') (h : s.Adds s') : r.Later s :=
  ⟨h.grows.trans hl.grows, hl.consistent⟩

theorem Rel.adds (hr : r.Rel s e) (h : s.Adds s') : r.Rel s' e where
  consistent := h.consistent
  length := hr.length
  represents hl := by
    rw [machine_adds h]
    exact hr.represents (hl.of_adds h)

theorem Holds.adds (hx : r.Holds s x w) (h : s.Adds s') : r.Holds s' x w where
  defined := hx.defined.imp (·.grows h.grows) fun ⟨v, hc⟩ => ⟨v, hc.grows h.grows⟩
  value hl := by
    rw [machine_adds h]
    exact hx.value (hl.of_adds h)

/-- A constant holds its value. -/
theorem Rel.holds_constant (hr : r.Rel s e) (hx : s.symbols.IsConstant x w) : r.Holds s x w :=
  ⟨.inr ⟨w, hx⟩, fun hl => (hr.represents hl).constant (hx.grows hl.grows)⟩

end Adds

section Emit

variable {s : FlatStack} {e e' : Evm.State σ} {i : Instruction}

theorem machine_emitted (s : FlatStack) (i : Instruction) : r.machine (s.emitted i) =
    (r.machine s).step r.environment.withStack r.table i := by
  rw [machine, machine, FlatStack.emitted, Array.toList_push, Machine.run_concat]

theorem Rel.emitted (hr : r.Rel s e) (hlen : e'.stack.length < 2 ^ 256)
    (h : r.Later s → Represents r.table (r.machine s) e →
      Represents r.table ((r.machine s).step r.environment.withStack r.table i) e') :
    r.Rel (s.emitted i) e' where
  consistent := hr.consistent
  length := hlen
  represents hl := by
    rw [machine_emitted]
    exact h ⟨hl.grows, hl.consistent⟩ (hr.represents ⟨hl.grows, hl.consistent⟩)

theorem Holds.emitted {y : SymbolRef} {v : Word} (hy : r.Holds s y v)
    (hne : r.Later s → i.definition? ≠ some y) : r.Holds (s.emitted i) y v where
  defined := hy.defined
  value hl := by
    have hl' : r.Later s := ⟨hl.grows, hl.consistent⟩
    rw [machine_emitted, Machine.step_values_of_ne _ _ _ (hne hl')]
    exact hy.value hl'

/-- The counter of the height is no symbol that holds a word. -/
theorem Holds.ne_height {y h : SymbolRef} {v : Word} (hy : r.Holds s y v) (hl : r.Later s)
    (hh : s.symbols.IsGlobal .stackHeight h) : y ≠ h := by
  rcases hy.defined with ht | ⟨u, hc⟩
  · exact Represents.ne_height_of_isTemporary hl.consistent (ht.grows hl.grows)
      (hh.grows hl.grows)
  · exact Represents.ne_height_of_isConstant hl.consistent (hc.grows hl.grows)
      (hh.grows hl.grows)

theorem Holds.map_values {refs : List SymbolRef} {ws : List Word}
    (h : List.Forall₂ (r.Holds s) refs ws) (hl : r.Later s) :
    refs.map (r.machine s).values = ws := by
  induction h with
  | nil => rfl
  | cons hx _ ih => rw [List.map_cons, hx.value hl, ih]

end Emit

/-! ## Parts of the operations -/

section Parts

variable {s : FlatStack} {e : Evm.State σ}

theorem Rel.values_height (hr : r.Rel s e) (hl : r.Later s) {h : SymbolRef}
    (hh : s.symbols.IsGlobal .stackHeight h) :
    (r.machine s).values h = BitVec.ofNat 256 e.stack.length :=
  (hr.represents hl).height (hh.grows hl.grows)

/-- The counter moves to the height of another stack that the array holds as well. -/
theorem step (op : Operator) {l : List Word} (hr : r.Rel s e)
    (hop : op.eval [BitVec.ofNat 256 e.stack.length, 1] = some (BitVec.ofNat 256 l.length))
    (hlen : l.length < 2 ^ 256) (harray : r.Later s → (r.machine s).env.1.Holds l.reverse) :
    ∃ s', Yields (Flat.step op) s () s' ∧ r.Rel s' { e with stack := l } ∧
      s.symbols.Grows s'.symbols ∧ (r.machine s').env = (r.machine s).env ∧
      ∀ {y v}, r.Holds s y v → r.Holds s' y v := by
  obtain ⟨h, s₁, hh, hadd₁, hheight⟩ := Flat.yields_global .stackHeight hr.consistent
  obtain ⟨one, s₂, ho, hadd₂, hone⟩ := Flat.yields_number (n := 1) (by decide) hadd₁.consistent
  have hadd := hadd₁.trans hadd₂
  have hheight₂ := hheight.grows hadd₂.grows
  have hr₂ := hr.adds hadd
  refine ⟨s₂.emitted (.binary h op h one),
    yields_bind hh (yields_bind ho (Flat.yields_emit s₂ _)), ?_, hadd.grows, ?_, fun hy => ?_⟩
  · refine hr₂.emitted hlen fun hl hrep => ?_
    have hone' : (r.machine s₂).values one = 1 := (hr₂.holds_constant hone).value hl
    rw [Machine.step_binary, hr₂.values_height hl hheight₂, hone', hop, Option.getD_some]
    refine hrep.setHeight hl.consistent (hheight₂.grows hl.grows) ?_
    rw [machine_adds hadd]
    exact harray (hl.of_adds hadd)
  · rw [machine_emitted, Machine.step_binary, Machine.assign_env, machine_adds hadd]
  · refine (hy.adds hadd).emitted fun hl he => ?_
    injection he with he
    exact (hy.adds hadd).ne_height hl hheight₂ he.symm

/-- A load gives a fresh temporary the word that the array has at an index. -/
theorem load {index : SymbolRef} {w : Word} (hr : r.Rel s e)
    (hw : r.Later s → (r.machine s).env.1 ((r.machine s).values index) = w) :
    ∃ x s', Yields (Flat.load index) s x s' ∧ r.Rel s' e ∧ r.Holds s' x w ∧
      s.symbols.Grows s'.symbols ∧ ∀ {y v}, r.Holds s y v → r.Holds s' y v := by
  obtain ⟨x, s₁, hx, hadd₁, hfresh, htmp⟩ := Flat.yields_temporary hr.consistent
  obtain ⟨stack, s₂, hs, hadd₂, hstack⟩ := Flat.yields_global .stack hadd₁.consistent
  have hadd := hadd₁.trans hadd₂
  have htmp₂ := htmp.grows hadd₂.grows
  have hr₂ := hr.adds hadd
  have hstep : r.Later s₂ → (r.machine s₂).step r.environment.withStack r.table
      (.indexedCopy x stack index) = (r.machine s₂).act r.environment.withStack (some x)
        (.load (.global .stack)) [(r.machine s₂).values index] := fun hl => by
    refine Machine.step_of_action _ _ _ ?_
    rw [Instruction.action?, hl.consistent.region_global (hstack.grows hl.grows)]
  refine ⟨x, s₂.emitted (.indexedCopy x stack index),
    yields_bind hx (yields_bind hs (yields_bind (Flat.yields_emit s₂ _) (yields_pure x _))),
    ?_, ⟨.inl htmp₂, fun hl => ?_⟩, hadd.grows, fun hy => ?_⟩
  · refine hr₂.emitted hr.length fun hl hrep => ?_
    rw [hstep hl]
    exact hrep.load hl.consistent (htmp₂.grows hl.grows) _
  · have hl₂ : r.Later s₂ := ⟨hl.grows, hl.consistent⟩
    rw [machine_emitted, hstep hl₂, Machine.act_values, Machine.assign_some_values,
      Function.update_self, machine_adds hadd]
    exact hw (hl₂.of_adds hadd)
  · refine (hy.adds hadd).emitted fun _ he => hfresh ?_
    injection he with he
    exact he.symm ▸ hy.knows

/-- A store changes the array at an index. -/
theorem store {stack index x : SymbolRef} {j w : Word} {l : List Word} (hr : r.Rel s e)
    (hstack : s.symbols.IsGlobal .stack stack)
    (hindex : r.Later s → (r.machine s).values index = j)
    (hx : r.Later s → (r.machine s).values x = w) (hlen : l.length = e.stack.length)
    (hl : r.Later s → StackArray.Holds (Function.update (r.machine s).env.1 j w) l.reverse) :
    ∃ s', Yields (Flat.emit (.indexedAssign stack index x)) s () s' ∧
      r.Rel s' { e with stack := l } ∧ s'.symbols = s.symbols ∧
      (r.Later s → (r.machine s').env.1 = Function.update (r.machine s).env.1 j w) ∧
      ∀ {y v}, r.Holds s y v → r.Holds s' y v := by
  have hstep : r.Later s → (r.machine s).step r.environment.withStack r.table
      (.indexedAssign stack index x) = (r.machine s).act r.environment.withStack none
        (.store (.global .stack)) [j, w] := fun hlater => by
    have hact : (Instruction.indexedAssign stack index x).action?
        (r.table.region (r.machine s).values) = some (.store (.global .stack)) := by
      rw [Instruction.action?,
        hlater.consistent.region_global (hstack.grows hlater.grows)]
    rw [Machine.step_of_action _ _ _ hact, Instruction.operands, List.map_cons, List.map_cons,
      hindex hlater, hx hlater]
    rfl
  refine ⟨s.emitted (.indexedAssign stack index x), Flat.yields_emit s _, ?_, rfl,
    fun hlater => ?_, fun hy => hy.emitted fun _ he => by cases he⟩
  · refine hr.emitted (hlen ▸ hr.length) fun hlater hrep => ?_
    rw [hstep hlater]
    exact hrep.store hlen (hl hlater)
  · rw [machine_emitted, hstep hlater]
    rfl

/-- The index of an entry, counted from the top. -/
theorem indexOf {n : Nat} (hr : r.Rel s e) (hn : n < 2 ^ 64) (hle : n ≤ e.stack.length) :
    ∃ x s', Yields (Flat.indexOf n) s x s' ∧ r.Rel s' e ∧
      r.Holds s' x (BitVec.ofNat 256 (e.stack.length - n)) ∧ s.symbols.Grows s'.symbols ∧
      ∀ {y v}, r.Holds s y v → r.Holds s' y v := by
  obtain ⟨x, s₁, hx, hadd₁, hfresh, htmp⟩ := Flat.yields_temporary hr.consistent
  obtain ⟨h, s₂, hh, hadd₂, hheight⟩ := Flat.yields_global .stackHeight hadd₁.consistent
  obtain ⟨depth, s₃, hd, hadd₃, hdepth⟩ := Flat.yields_number hn hadd₂.consistent
  have hadd := (hadd₁.trans hadd₂).trans hadd₃
  have htmp₃ := htmp.grows (hadd₂.trans hadd₃).grows
  have hr₃ := hr.adds hadd
  have hstep : r.Later s₃ → (r.machine s₃).step r.environment.withStack r.table
      (.binary x .sub h depth) = (r.machine s₃).assign (some x)
        (BitVec.ofNat 256 (e.stack.length - n)) := fun hl => by
    have hsub : ∀ a b : Word, (Operator.sub.eval [a, b]).getD 0 = a - b := fun _ _ => rfl
    rw [Machine.step_binary, hsub, hr₃.values_height hl (hheight.grows hadd₃.grows),
      (hr₃.holds_constant hdepth).value hl, BitVec.ofNat_sub_ofNat_of_le _ _ (by omega) hle]
  refine ⟨x, s₃.emitted (.binary x .sub h depth),
    yields_bind hx (yields_bind hh (yields_bind hd (yields_bind (Flat.yields_emit s₃ _)
      (yields_pure x _)))), ?_, ⟨.inl htmp₃, fun hl => ?_⟩, hadd.grows, fun hy => ?_⟩
  · refine hr₃.emitted hr.length fun hl hrep => ?_
    rw [hstep hl]
    exact hrep.assign hl.consistent (htmp₃.grows hl.grows) _
  · rw [machine_emitted, hstep ⟨hl.grows, hl.consistent⟩, Machine.assign_some_values,
      Function.update_self]
  · refine (hy.adds hadd).emitted fun _ he => hfresh ?_
    injection he with he
    exact he.symm ▸ hy.knows

end Parts

/-! ## The operations -/

section Operations

variable {s : FlatStack} {e : Evm.State σ}

theorem eval_sub_one (n : Nat) :
    Operator.sub.eval [BitVec.ofNat 256 (n + 1), 1] = some (BitVec.ofNat 256 n) := by
  change some (BitVec.ofNat 256 (n + 1) - BitVec.ofNat 256 1) = _
  rw [BitVec.ofNat_sub_ofNat_of_le (n + 1) 1 (by decide) (Nat.le_add_left 1 n), Nat.add_sub_cancel]

theorem eval_add_one (n : Nat) :
    Operator.add.eval [BitVec.ofNat 256 n, 1] = some (BitVec.ofNat 256 (n + 1)) := by
  change some (BitVec.ofNat 256 n + BitVec.ofNat 256 1) = _
  rw [← BitVec.ofNat_add]

/-- The height goes down, and the entry above it stays in the array. -/
theorem stepDown {w : Word} {rest : List Word} (hr : r.Rel s e) (hs : e.stack = w :: rest) :
    ∃ s', Yields (Flat.step .sub) s () s' ∧ r.Rel s' { e with stack := rest } ∧
      s.symbols.Grows s'.symbols ∧
      (r.Later s' → (r.machine s').env.1 (BitVec.ofNat 256 rest.length) = w) ∧
      ∀ {y v}, r.Holds s y v → r.Holds s' y v := by
  have hlen := hr.length
  rw [hs, List.length_cons] at hlen
  have harray : r.Later s → (r.machine s).env.1.Holds (rest.reverse ++ [w]) := fun hl => by
    have := (hr.represents hl).array
    rwa [hs, List.reverse_cons] at this
  have hop : Operator.sub.eval [BitVec.ofNat 256 e.stack.length, 1] =
      some (BitVec.ofNat 256 rest.length) := by
    rw [hs, List.length_cons]
    exact eval_sub_one _
  obtain ⟨s', hstep, hr', hgrow, henv, hkeep⟩ :=
    step .sub hr hop (by omega) fun hl => (harray hl).of_append
  refine ⟨s', hstep, hr', hgrow, fun hl => ?_, hkeep⟩
  have hlast := (harray ⟨hgrow.trans hl.grows, hl.consistent⟩).last
  rw [List.length_reverse] at hlast
  rw [henv, hlast]

theorem pop {w : Word} {rest : List Word} (hr : r.Rel s e) (hs : e.stack = w :: rest) :
    ∃ x s', Yields Flat.pop s x s' ∧ r.Rel s' { e with stack := rest } ∧ r.Holds s' x w ∧
      ∀ {y v}, r.Holds s y v → r.Holds s' y v := by
  obtain ⟨s₁, hstep, hr₁, -, htop, hkeep₁⟩ := stepDown hr hs
  obtain ⟨h, s₂, hh, hadd, hheight⟩ := Flat.yields_global .stackHeight hr₁.consistent
  have hr₂ := hr₁.adds hadd
  have hw : r.Later s₂ → (r.machine s₂).env.1 ((r.machine s₂).values h) = w := fun hl => by
    rw [hr₂.values_height hl hheight, machine_adds hadd]
    exact htop (hl.of_adds hadd)
  obtain ⟨x, s₃, hx, hr₃, hhold, -, hkeep₃⟩ := load hr₂ hw
  exact ⟨x, s₃, yields_bind hstep (yields_bind hh hx), hr₃, hhold,
    fun hy => hkeep₃ ((hkeep₁ hy).adds hadd)⟩

theorem push {x : SymbolRef} {w : Word} (hr : r.Rel s e) (hlen : e.stack.length < 2 ^ 256 - 1)
    (hx : r.Holds s x w) :
    ∃ s', Yields (Flat.push x) s () s' ∧ r.Rel s' { e with stack := w :: e.stack } := by
  obtain ⟨stack, s₁, hs, hadd₁, hstack⟩ := Flat.yields_global .stack hr.consistent
  obtain ⟨h, s₂, hh, hadd₂, hheight⟩ := Flat.yields_global .stackHeight hadd₁.consistent
  have hadd := hadd₁.trans hadd₂
  have hr₂ := hr.adds hadd
  have hconcat : r.Later s₂ → StackArray.Holds (Function.update (r.machine s₂).env.1
      (BitVec.ofNat 256 e.stack.length) w) (e.stack.reverse ++ [w]) := fun hl => by
    have := (hr₂.represents hl).array.concat (by rw [List.length_reverse]; exact hr.length) w
    rwa [List.length_reverse] at this
  obtain ⟨s₃, hemit, hr₃, htable, henv, -⟩ := store hr₂ (hstack.grows hadd₂.grows)
    (fun hl => hr₂.values_height hl hheight) (hx.adds hadd).value rfl
    fun hl => (hconcat hl).of_append
  have harray : r.Later s₃ → (r.machine s₃).env.1.Holds (w :: e.stack).reverse := fun hl => by
    have hl₂ : r.Later s₂ := ⟨htable ▸ hl.grows, hl.consistent⟩
    rw [henv hl₂, List.reverse_cons]
    exact hconcat hl₂
  obtain ⟨s₄, hstep, hr₄, -⟩ := step (l := w :: e.stack) .add hr₃ (eval_add_one _)
    (by rw [List.length_cons]; omega) harray
  exact ⟨s₄, yields_bind hs (yields_bind hh (yields_bind hemit hstep)), hr₄⟩

/-- Loads the entry at a depth, given the symbol of its index. -/
theorem loadAt {index : SymbolRef} {k : Nat} {w : Word} (hr : r.Rel s e)
    (hindex : r.Holds s index (BitVec.ofNat 256 (e.stack.length - (k + 1))))
    (hget : e.stack[k]? = some w) :
    ∃ x s', Yields (Flat.load index) s x s' ∧ r.Rel s' e ∧ r.Holds s' x w ∧
      s.symbols.Grows s'.symbols ∧ ∀ {y v}, r.Holds s y v → r.Holds s' y v := by
  refine load hr fun hl => ?_
  have hlt : k < e.stack.length := (List.getElem?_eq_some_iff.mp hget).1
  have hrev : e.stack.reverse[e.stack.length - (k + 1)]? = some w := by
    rw [List.getElem?_reverse (by omega), ← hget]
    congr 1
    omega
  rw [hindex.value hl]
  exact (hr.represents hl).array _ _ hrev

theorem dup {n : Nat} {w : Word} (hr : r.Rel s e) (hlen : e.stack.length < 2 ^ 256 - 1)
    (hn : n < 16) (hget : e.stack[n]? = some w) :
    ∃ s', Yields (Flat.dup (n + 1)) s () s' ∧ r.Rel s' { e with stack := w :: e.stack } := by
  have hlt : n < e.stack.length := (List.getElem?_eq_some_iff.mp hget).1
  obtain ⟨index, s₁, hindex, hr₁, hhold₁, -⟩ := indexOf (n := n + 1) hr (by omega) hlt
  obtain ⟨x, s₂, hx, hr₂, hhold₂, -⟩ := loadAt hr₁ hhold₁ hget
  obtain ⟨s₃, hpush, hr₃⟩ := push hr₂ hlen hhold₂
  exact ⟨s₃, yields_bind hindex (yields_bind hx hpush), hr₃⟩

/-- Stores into the entry at an index from the bottom. -/
theorem storeAt {stack index x : SymbolRef} {j : Nat} {w : Word} (hr : r.Rel s e)
    (hstack : s.symbols.IsGlobal .stack stack) (hindex : r.Holds s index (BitVec.ofNat 256 j))
    (hx : r.Holds s x w) (hj : j < e.stack.length) :
    ∃ s', Yields (Flat.emit (.indexedAssign stack index x)) s () s' ∧
      r.Rel s' { e with stack := (e.stack.reverse.set j w).reverse } ∧ s'.symbols = s.symbols ∧
      ∀ {y v}, r.Holds s y v → r.Holds s' y v := by
  have hlen := hr.length
  obtain ⟨s', hemit, hr', htable, -, hkeep⟩ := store (l := (e.stack.reverse.set j w).reverse) hr
    hstack hindex.value hx.value (by simp) fun hl => by
      rw [List.reverse_reverse]
      exact (hr.represents hl).array.set (by rw [List.length_reverse]; exact hlen) (by omega) w
  exact ⟨s', hemit, hr', htable, hkeep⟩

theorem swap {a b : Word} {mid rest : List Word} (hr : r.Rel s e) (hmid : mid.length < 16)
    (hs : e.stack = a :: (mid ++ b :: rest)) :
    ∃ s', Yields (Flat.swap (mid.length + 1)) s () s' ∧
      r.Rel s' { e with stack := b :: (mid ++ a :: rest) } := by
  have hlen : e.stack.length = rest.length + (mid.length + 2) := by
    rw [hs, List.length_cons, List.length_append, List.length_cons]
    omega
  obtain ⟨stack, s₁, hst, hadd, hstack⟩ := Flat.yields_global .stack hr.consistent
  obtain ⟨top, s₂, htop, hr₂, hhold₂, hgrow₂, -⟩ :=
    indexOf (n := 1) (hr.adds hadd) (by omega) (by omega)
  obtain ⟨other, s₃, hother, hr₃, hhold₃, hgrow₃, hkeep₃⟩ :=
    indexOf (n := mid.length + 1 + 1) hr₂ (by omega) (by omega)
  obtain ⟨x, s₄, hx, hr₄, hhold₄, hgrow₄, hkeep₄⟩ :=
    loadAt (k := 0) hr₃ (hkeep₃ hhold₂) (by rw [hs]; rfl)
  obtain ⟨y, s₅, hy, hr₅, hhold₅, hgrow₅, hkeep₅⟩ :=
    loadAt (k := mid.length + 1) (w := b) hr₄ (hkeep₄ hhold₃) (by rw [hs]; simp)
  have hstack₅ := hstack.grows (((hgrow₂.trans hgrow₃).trans hgrow₄).trans hgrow₅)
  obtain ⟨s₆, he₆, hr₆, htable₆, hkeep₆⟩ :=
    storeAt hr₅ hstack₅ (hkeep₅ (hkeep₄ (hkeep₃ hhold₂))) hhold₅ (by omega)
  obtain ⟨s₇, he₇, hr₇, -⟩ := storeAt hr₆ (htable₆ ▸ hstack₅)
    (hkeep₆ (hkeep₅ (hkeep₄ hhold₃))) (hkeep₆ (hkeep₅ hhold₄))
    (by simp only [List.length_reverse, List.length_set]; omega)
  refine ⟨s₇, yields_bind hst (yields_bind htop (yields_bind hother (yields_bind hx
    (yields_bind hy (yields_bind he₆ he₇))))), ?_⟩
  -- The first store goes to the last position of the reversed stack, the second to that of `b`.
  have hfirst : e.stack.reverse.set (e.stack.length - 1) b =
      rest.reverse ++ b :: (mid.reverse ++ [b]) := by
    rw [hlen, hs]
    simp
  have hsecond : (rest.reverse ++ b :: (mid.reverse ++ [b])).set
      (e.stack.length - (mid.length + 1 + 1)) a = rest.reverse ++ a :: (mid.reverse ++ [b]) := by
    rw [hlen, Nat.add_sub_cancel]
    simp
  have hstackEq : ((e.stack.reverse.set (e.stack.length - 1) b).set
      (e.stack.length - (mid.length + 1 + 1)) a).reverse = b :: (mid ++ a :: rest) := by
    rw [hfirst, hsecond]
    simp
  simpa only [List.reverse_reverse, hstackEq] using hr₇

end Operations

/-! ## The laws of the model -/

section Laws

variable {s s₀ : FlatStack} {e : Evm.State σ} {i : Instruction} {a : Action} {ws : List Word}

theorem not_onStack {region : SymbolRef → Region} (hact : i.action? region = some a)
    (hbase : ∀ x ∈ i.base?, ∃ g, s.symbols.IsGlobal g x ∧ g ≠ .stack ∧ region x = .global g) :
    a.onStack = false := by
  refine Action.not_onStack_of_base hact fun x hx => ?_
  obtain ⟨g, -, hg, hregion⟩ := hbase x hx
  exact ⟨g, hg, hregion⟩

/-- `x` was put into the table after `s₀` and is not assigned yet. -/
structure Fresh (r : FlatRun σ) (s₀ s : FlatStack) (x : SymbolRef) : Prop where
  notKnown : ¬ s₀.symbols.Knows x
  isTemporary : s.symbols.IsTemporary x
  holds : ∀ {y v}, r.Holds s₀ y v → r.Holds s y v

theorem Fresh.adds {s' : FlatStack} {x : SymbolRef} (h : r.Fresh s₀ s x) (ha : s.Adds s') :
    r.Fresh s₀ s' x := ⟨h.notKnown, h.isTemporary.grows ha.grows, fun hy => (h.holds hy).adds ha⟩

theorem act (region : SymbolRef → Region) (hr : r.Rel s e) (hdef : i.definition? = none)
    (hact : i.action? region = some a)
    (hbase : ∀ x ∈ i.base?, ∃ g, s.symbols.IsGlobal g x ∧ g ≠ .stack ∧ region x = .global g)
    (hops : List.Forall₂ (r.Holds s) i.operands ws) :
    r.Rel (s.emitted i)
      ⟨e.stack, (r.environment a ws e.env).2, e.trace ++ [⟨a, ws⟩]⟩ := by
  refine hr.emitted hr.length fun hl hrep => ?_
  rw [Machine.step_of_action _ _ _ (hl.consistent.action?_eq hl.grows hact hbase _), hdef,
    Holds.map_values hops hl]
  exact hrep.act (not_onStack hact hbase) ws

theorem assignAct {x : SymbolRef} (region : SymbolRef → Region) (hr : r.Rel s e)
    (hx : r.Fresh s₀ s x) (hdef : i.definition? = some x) (hact : i.action? region = some a)
    (hbase : ∀ x ∈ i.base?, ∃ g, s.symbols.IsGlobal g x ∧ g ≠ .stack ∧ region x = .global g)
    (hops : List.Forall₂ (r.Holds s₀) i.operands ws) :
    r.Rel (s.emitted i) ⟨e.stack, (r.environment a ws e.env).2, e.trace ++ [⟨a, ws⟩]⟩ ∧
      r.Holds (s.emitted i) x (r.environment a ws e.env).1 := by
  have hon := not_onStack hact hbase
  have hops' : List.Forall₂ (r.Holds s) i.operands ws := hops.imp fun _ _ hy => hx.holds hy
  have hstep : r.Later s → (r.machine s).step r.environment.withStack r.table i =
      (r.machine s).act r.environment.withStack (some x) a ws := fun hl => by
    rw [Machine.step_of_action _ _ _ (hl.consistent.action?_eq hl.grows hact hbase _), hdef,
      Holds.map_values hops' hl]
  refine ⟨hr.emitted hr.length fun hl hrep => ?_, .inl hx.isTemporary, fun hl => ?_⟩
  · rw [hstep hl]
    exact (hrep.act hon ws).assign hl.consistent (hx.isTemporary.grows hl.grows) _
  · have hl' : r.Later s := ⟨hl.grows, hl.consistent⟩
    rw [machine_emitted, hstep hl', Machine.act_values, Machine.assign_some_values,
      Function.update_self, Environment.withStack_of_not_onStack _ hon, (hr.represents hl').env]

theorem assign {x : SymbolRef} (hr : r.Rel s e) (hx : r.Fresh s₀ s x)
    (hdef : i.definition? = some x) (hact : ∀ region, i.action? region = none)
    (hops : List.Forall₂ (r.Holds s₀) i.operands ws) :
    r.Rel (s.emitted i) e ∧ r.Holds (s.emitted i) x (i.compute ws) := by
  have hops' : List.Forall₂ (r.Holds s) i.operands ws := hops.imp fun _ _ hy => hx.holds hy
  have hstep : r.Later s → (r.machine s).step r.environment.withStack r.table i =
      (r.machine s).assign (some x) (i.compute ws) := fun hl => by
    rw [Machine.step_of_no_action _ _ _ (hact _), hdef, Holds.map_values hops' hl]
  refine ⟨hr.emitted hr.length fun hl hrep => ?_, .inl hx.isTemporary, fun hl => ?_⟩
  · rw [hstep hl]
    exact hrep.assign hl.consistent (hx.isTemporary.grows hl.grows) _
  · rw [machine_emitted, hstep ⟨hl.grows, hl.consistent⟩, Machine.assign_some_values,
      Function.update_self]

end Laws

/-- **The flat model satisfies the laws of a stack model.** -/
def simulation (r : FlatRun σ) : Simulation Flat r.environment (2 ^ 256 - 1) where
  Rel := r.Rel
  Holds := r.Holds
  Fit := r.Holds
  Names s x g := s.symbols.IsGlobal g x
  Fresh := r.Fresh
  pop := pop
  push := push
  drop hr hs := by
    obtain ⟨s', hstep, hr', -⟩ := stepDown hr hs
    exact ⟨s', hstep, hr'⟩
  dup := dup
  swap := swap
  constant w type hr := by
    obtain ⟨x, s', hx, hadd, hconst⟩ := Flat.yields_constant w type hr.consistent
    exact ⟨x, s', hx, hr.adds hadd, (hr.adds hadd).holds_constant hconst⟩
  fold op hr hrefs := ⟨none, _, yields_pure none _, hr, id, fun _ hx => by cases hx⟩
  global g hr := by
    obtain ⟨x, s', hx, hadd, hg⟩ := Flat.yields_global g hr.consistent
    exact ⟨x, s', hx, hr.adds hadd, hg, fun hy => hy.adds hadd, fun hf => hf.adds hadd⟩
  temporary hr := by
    obtain ⟨x, s', hx, hadd, hnew, htmp⟩ := Flat.yields_temporary hr.consistent
    exact ⟨x, s', hx, hr.adds hadd, hnew, htmp, fun hy => hy.adds hadd⟩
  act region hr hdef hact hbase hops :=
    ⟨_, Flat.yields_emit _ _, act region hr hdef hact hbase hops⟩
  assignAct region hr hx hdef hact hbase hops :=
    ⟨_, Flat.yields_emit _ _, assignAct region hr hx hdef hact hbase hops⟩
  assign hr hx hdef hact hops := ⟨_, Flat.yields_emit _ _, assign hr hx hdef hact hops⟩

end FlatRun

/-! ## Tables and branches of flat code -/

/-- `s'` comes after `s`: symbols were created, the table is consistent, and new branches go to
temporaries. -/
structure FlatStack.Leads (s s' : FlatStack) : Prop where
  consistent : s'.symbols.Consistent
  enlarges : s.symbols.Enlarges s'.symbols
  branch : ∀ i ∈ s'.out, i ∈ s.out ∨ ∀ x, i.branchTarget? = some x → s'.symbols.IsTemporary x

theorem FlatStack.Leads.trans {s₁ s₂ s₃ : FlatStack} (h₁ : s₁.Leads s₂) (h₂ : s₂.Leads s₃) :
    s₁.Leads s₃ := by
  refine ⟨h₂.consistent, h₁.enlarges.trans h₂.enlarges, fun i hi => ?_⟩
  rcases h₂.branch i hi with hi | hi
  · rcases h₁.branch i hi with hi | hi
    · exact .inl hi
    · exact .inr fun x hx => (hi x hx).grows h₂.enlarges.grows
  · exact .inr hi

theorem FlatStack.Leads.emitted {s : FlatStack} (h : s.symbols.Consistent) {i : Instruction}
    (hi : ∀ x, i.branchTarget? = some x → s.symbols.IsTemporary x) : s.Leads (s.emitted i) := by
  refine ⟨h, .refl, fun j hj => ?_⟩
  rcases Array.mem_push.mp hj with hj | rfl
  · exact .inl hj
  · exact .inr hi

theorem FlatStack.Leads.bind {α β : Type} {x : Flat α} {f : α → Flat β} {s : FlatStack}
    (hx : s.Leads (x s).2) (hf : (x s).2.Leads (f (x s).1 (x s).2).2) :
    s.Leads ((x >>= f) s).2 := hx.trans hf

/-- A computation that takes every state with a consistent table to one that comes after it. -/
def Flat.Steers {α : Type} (x : Flat α) : Prop :=
  ∀ s : FlatStack, s.symbols.Consistent → s.Leads (x s).2

namespace Flat.Steers

theorem pure {α : Type} (a : α) : Steers (pure a) :=
  fun _ h => ⟨h, .refl, fun _ => .inl⟩

theorem bind {α β : Type} {x : Flat α} {f : α → Flat β} (hx : Steers x) (hf : ∀ a, Steers (f a)) :
    Steers (x >>= f) := fun s h => (hx s h).bind (hf _ _ (hx s h).consistent)

theorem temporary : Steers temporary := fun s h =>
  ⟨h.temporary s.scope, .single (.temporary s.scope), fun _ => .inl⟩

theorem global (g : Global) : Steers (global g) := fun _ h =>
  ⟨h.global_op g, .single (.global g), fun _ => .inl⟩

theorem constant (w : Word) {type : TypeHint} (htype : type ≠ .bool) : Steers (constant w type) :=
  fun _ h => ⟨h.constant_op w type, .single (.constant w htype), fun _ => .inl⟩

theorem number (n : Nat) : Steers (number n) := constant _ fun h => by cases h

theorem emit {i : Instruction} (hi : i.branchTarget? = none) : Steers (emit i) := fun _ h =>
  .emitted h fun x hx => by rw [hi] at hx; cases hx

theorem step (op : Operator) : Steers (step op) :=
  (global _).bind fun _ => (number _).bind fun _ => emit rfl

theorem load (index : SymbolRef) : Steers (load index) :=
  temporary.bind fun x => (global _).bind fun _ => (emit rfl).bind fun _ => pure x

theorem indexOf (n : Nat) : Steers (indexOf n) :=
  temporary.bind fun x => (global _).bind fun _ => (number _).bind fun _ =>
    (emit rfl).bind fun _ => pure x

theorem push (ref : SymbolRef) : Steers (push ref) :=
  (global _).bind fun _ => (global _).bind fun _ => (emit rfl).bind fun _ => step _

theorem pop : Steers pop := (step .sub).bind fun _ => (global .stackHeight).bind load

/-- What is popped is a temporary. -/
theorem isTemporary_pop (s : FlatStack) : (Flat.pop s).2.symbols.IsTemporary (Flat.pop s).1 := by
  have hload : ∀ (s : FlatStack) index,
      (Flat.load index s).2.symbols.IsTemporary (Flat.load index s).1 := fun s _ =>
    (s.symbols.temporary_isTemporary s.scope).grows (SymbolTable.global_grows _ .stack)
  exact hload _ _

theorem dup (n : Nat) : Steers (dup n) := (indexOf n).bind fun i => (load i).bind push

theorem swap (n : Nat) : Steers (swap n) := by
  refine (global .stack).bind fun _ => (indexOf 1).bind fun i => (indexOf (n + 1)).bind fun j => ?_
  exact (load i).bind fun _ => (load j).bind fun _ => (emit rfl).bind fun _ => emit rfl

theorem jump : Steers (do Flat.emit (.branch (← Flat.pop))) := by
  intro s h
  refine (pop s h).bind (.emitted (pop s h).consistent fun x hx => ?_)
  cases hx
  exact isTemporary_pop s

theorem jumpIf : Steers (do
    let target ← Flat.pop
    let condition ← Flat.pop
    Flat.emit (.condBranch condition target)) := by
  intro s h
  have hpop := pop _ (pop s h).consistent
  refine (pop s h).bind (hpop.bind (.emitted hpop.consistent fun x hx => ?_))
  cases hx
  exact (isTemporary_pop s).grows hpop.enlarges.grows

theorem closed : Closed Flat Steers where
  pure := pure
  bind := bind
  temporary := temporary
  constant w _ htype := constant w htype
  global := global
  jump := jump
  jumpIf := jumpIf
  emit _ := emit
  pop := pop
  push := push
  drop := step .sub
  dup := dup
  swap := swap
  fold _ _ := pure none

end Flat.Steers

variable {σ : Type}

/-- Flat code creates symbols in a table that stays consistent, and its branches go to
temporaries. -/
theorem FlatStack.lowerAll_leads {t : SymbolTable} (ht : t.Consistent) (scope : Scope)
    (code : List Located) :
    FlatStack.Leads { symbols := t, scope } (lowerAll t scope code).2 :=
  Flat.Steers.closed.lowerCode code { symbols := t, scope } ht

/-! ## Flat code -/

theorem FlatStack.represents_lowerAll (I : Environment σ) {t t' : SymbolTable} (ht : t.Consistent)
    (scope : Scope) {code : List Located} {e e' : Evm.State σ} {m : Machine (StackArray × σ)}
    (hrun : Evm.run I code e = some e') (hlen : e.stack.length + code.length < 2 ^ 256)
    (hlater : (lowerAll t scope code).2.symbols.Grows t') (ht' : t'.Consistent)
    (hm : Represents t' m e) :
    (lowerAll t scope code).1 = code.filter (fun i => !i.instr.op.lowering?.isSome) ∧
      Represents t' (m.run I.withStack t' (lowerAll t scope code).2.out.toList) e' := by
  let r : FlatRun σ := ⟨I, t', m⟩
  have hstart : r.Rel { symbols := t, scope } e := ⟨ht, by omega, fun _ => hm⟩
  obtain ⟨s', hyields, hrel⟩ := r.simulation.lowerCode hstart (by omega) hrun
  have hall : lowerAll t scope code = (_, s') := hyields
  rw [hall] at hlater ⊢
  exact ⟨rfl, hrel.represents ⟨hlater, ht'⟩⟩

theorem Flat.lowerInstr_eq_false {i : Located} {s s' : FlatStack}
    (h : (lowerInstr i : Flat Bool).run s = (false, s')) :
    s' = s ∧ i.instr.op.lowering? = none := by
  unfold lowerInstr at h
  cases hl : i.instr.op.lowering? with
  | some l =>
    rw [hl] at h
    cases h
  | none =>
    rw [hl] at h
    cases h
    exact ⟨rfl, rfl⟩

/-- **Flat code follows the machine.** From an array that begins with a stack deep enough for the
instructions and a counter of its height, the code ends with an array and a counter for the stack
that the machine ends with, having asked the environment for the same in the same order.
Instructions without a lowering are reported, and neither the model nor the machine does anything
with them. -/
theorem FlatStack.lowerAll_simulates (I : Environment σ) {t t' : SymbolTable} (ht : t.Consistent)
    (scope : Scope) {code : List Located} {e : Evm.State σ} {m : Machine (StackArray × σ)}
    (hneed : Evm.required code ≤ e.stack.length) (hlen : e.stack.length + code.length < 2 ^ 256)
    (hlater : (lowerAll t scope code).2.symbols.Grows t') (ht' : t'.Consistent)
    (hm : Represents t' m e) :
    (∃ e', Evm.run I code e = some e' ∧
      Represents t' (m.run I.withStack t' (lowerAll t scope code).2.out.toList) e') ∧
    (lowerAll t scope code).1 = code.filter (fun i => !i.instr.op.lowering?.isSome) ∧
    ∀ (i : Located) (s s' : FlatStack), (lowerInstr i : Flat Bool).run s = (false, s') →
      s' = s ∧ ∀ e : Evm.State σ, Evm.step I i e = some e := by
  obtain ⟨e', hrun⟩ := Evm.exists_run I hneed
  obtain ⟨hgaps, hrep⟩ := represents_lowerAll I ht scope hrun hlen hlater ht' hm
  refine ⟨⟨e', hrun, hrep⟩, hgaps, fun i s s' h => ?_⟩
  obtain ⟨hs, hl⟩ := Flat.lowerInstr_eq_false h
  exact ⟨hs, Evm.step_of_no_lowering I hl⟩

/-- Code that copies, exchanges, stores and jumps, on a stack of two words. -/
theorem FlatStack.lowerAll_simulates_store_jump :
    let code := locate 0 [⟨.dup 1, []⟩, ⟨.swap 0, []⟩, ⟨.mstore, []⟩, ⟨.jump, []⟩]
    let I : Environment Nat := fun _ _ n => (0, n + 1)
    let e : Evm.State Nat := ⟨[5, 9], 0, []⟩
    let flat := lowerAll {} .program code
    let t := flat.2.symbols
    Evm.required code ≤ e.stack.length ∧ t.Consistent ∧ Represents t (e.entry t) e ∧ flat.1 = [] ∧
      Represents t ((e.entry t).run I.withStack t flat.2.out.toList)
        ⟨[], 2, [⟨.store (.global .memory), [5, 9]⟩, ⟨.branch, [9]⟩]⟩ := by
  have hbound : 6 < 2 ^ 256 := by omega
  intro code I e
  have hsize : e.stack.length + code.length = 6 := rfl
  have hlen : e.stack.length + code.length < 2 ^ 256 := by
    rw [hsize]
    exact hbound
  have hneed : Evm.required code ≤ e.stack.length := by decide
  have hgrows := lowerAll_leads SymbolTable.consistent_empty .program code
  have hsim : ∀ t' m, (lowerAll {} .program code).2.symbols.Grows t' → t'.Consistent →
      Represents t' m e → _ := fun t' m h₁ h₂ h₃ =>
    lowerAll_simulates I SymbolTable.consistent_empty .program hneed hlen h₁ h₂ h₃
  -- From here on it does not matter what the lowered code is.
  generalize lowerAll {} .program code = flat at hgrows hsim ⊢
  have hentry : Represents flat.2.symbols (e.entry flat.2.symbols) e :=
    represents_entry hgrows.1 (Nat.lt_of_le_of_lt (Nat.le_add_right _ _) hlen) rfl
  obtain ⟨⟨e', hrun, hrep⟩, hgaps, -⟩ := hsim _ _ (.refl _) hgrows.1 hentry
  have he' : e' = ⟨[], 2, [⟨.store (.global .memory), [5, 9]⟩, ⟨.branch, [9]⟩]⟩ :=
    (Option.some.inj hrun).symm
  rw [he'] at hrep
  exact ⟨hneed, hgrows.1, hentry, hgaps, hrep⟩

end EvmFlow
