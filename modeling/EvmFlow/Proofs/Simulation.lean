import EvmFlow.Lowering
import EvmFlow.Proofs.Evm
import Mathlib.Data.List.Forall2

/-!
# Lowering against any stack model

Lowering is written once for all stack models, and so is its correctness. A `Simulation` says what a
state of a model has to do with a state of the stack machine, and has one law for each operation of
the model. From these laws alone follows that lowering an instruction takes the model from one
machine state to the next.

* `Stateful`: monads of computations on a state, through their successful runs;
* `Lowering.inputs`, `Lowering.effect`: what a shape of code does on the machine, and
  **`Lowering.effect_eq`**: it does what the opcode does;
* `Simulation`: the laws of a stack model;
* **`Simulation.lower`**, **`Simulation.lowerCode`**: lowering follows the machine;
* `ClosedInner`, `Closed`, **`Closed.lowerCode`**: what the operations of a model keep, all lowered
  code keeps.
-/

namespace EvmFlow

/-! ## Shapes on the machine -/

namespace Lowering

variable {σ : Type}

/-- The number of words that a shape of code takes from the stack. -/
def inputs : Lowering → Nat
  | skip | push | counter => 0
  | drop | jump | load _ | unary _ => 1
  | jumpIf | store _ | binary _ => 2
  | dup n => n
  | swap n => n + 1
  | function _ n | procedure _ n => n

/-- What a shape of code does with the words it takes. -/
def effect (I : Environment σ) (i : Located) (l : Lowering) (args : List Word) (env : σ) :
    Evm.Effect σ :=
  match l with
  | skip | drop => .pure [] env
  | push => .pure [i.instr.value] env
  | counter => .pure [BitVec.ofNat 256 i.offset] env
  | dup n => .pure (args.getD (n - 1) 0 :: args) env
  | swap _ => .pure (Evm.exchange args) env
  | jump => .request I .branch args env
  | jumpIf => .request I .condBranch args.reverse env
  | store region => .request I (.store (.global region)) args env
  | load region => .query I (.load (.global region)) args env
  | binary op | unary op => .pure [(op.eval args).getD 0] env
  | function g _ => .query I (.function g) args env
  | procedure g _ => .request I (.procedure g) args env

theorem inputs_eq {op : Opcode} {l : Lowering} (h : op.lowering? = some l) :
    op.inputs = l.inputs := by
  cases op with
  | undefined b hb => cases h
  | log n =>
    cases h
    exact Nat.add_comm _ _
  | _ => cases h; rfl

/-- **The shape of an opcode does what the opcode does.** -/
theorem effect_eq (I : Environment σ) {i : Located} {l : Lowering}
    (h : i.instr.op.lowering? = some l) {args : List Word}
    (hargs : args.length = i.instr.op.inputs) (env : σ) :
    Evm.effect I i args env = l.effect I i args env := by
  unfold Evm.effect
  generalize i.instr.op = op at h hargs ⊢
  cases op with
  | undefined b hb => cases h
  | add | mul | sub | div | sdiv | mod | smod | exp | signextend | lt | gt | slt | sgt | eq | and
  | or | xor | byte | shl | shr | sar =>
    cases h
    obtain ⟨a, b, rfl⟩ := List.length_eq_two.mp hargs
    simp [Opcode.result?, effect, Operator.eval, Operator.evalBinary?]
  | iszero | not =>
    cases h
    obtain ⟨a, rfl⟩ := List.length_eq_one_iff.mp hargs
    rfl
  | _ => cases h; rfl

/-- No shape of an opcode works on the stack as a region, and those that copy or exchange entries
count from 1 to 16. -/
def Proper : Lowering → Prop
  | store region | load region => region ≠ .stack
  | dup n | swap n => ∃ k < 16, n = k + 1
  | _ => True

theorem proper_of_lowering? {op : Opcode} {l : Lowering} (h : op.lowering? = some l) :
    l.Proper := by
  cases op with
  | undefined b hb => cases h
  | mload | mstore | calldataload =>
    cases h
    exact Global.noConfusion
  | dup n | swap n =>
    cases h
    exact ⟨n.val, n.isLt, rfl⟩
  | _ => cases h; trivial

theorem eq_jump_of_lowering? {op : Opcode} (h : op.lowering? = some .jump) : op = .jump := by
  cases op with
  | jump => rfl
  | _ => cases h

theorem eq_jumpi_of_lowering? {op : Opcode} (h : op.lowering? = some .jumpIf) : op = .jumpi := by
  cases op with
  | jumpi => rfl
  | _ => cases h

end Lowering

/-- What has no shape is no opcode of the machine, and is passed over. -/
theorem Evm.step_of_no_lowering {σ : Type} (I : Environment σ) {i : Located}
    (h : i.instr.op.lowering? = none) (e : Evm.State σ) : Evm.step I i e = some e := by
  have hop : ∃ b hb, i.instr.op = .undefined b hb := by
    generalize i.instr.op = op at h
    cases op with
    | undefined b hb => exact ⟨b, hb, rfl⟩
    | _ => cases h
  obtain ⟨b, hb, hop⟩ := hop
  simp [Evm.step, Evm.effect, hop, Opcode.inputs, Opcode.result?, Opcode.callee?, Evm.Effect.pure,
    Evm.State.apply]

/-! ## Computations on a state -/

/-- A monad of computations on states, of which only the successful runs matter: `Yields x s a s'`
says that `x` succeeds from `s`, answers `a` and leaves `s'`. -/
class Stateful (m : Type → Type) [Monad m] (S : outParam Type) where
  Yields : {α : Type} → m α → S → α → S → Prop
  yields_pure : ∀ {α : Type} (a : α) (s : S), Yields (pure a) s a s
  yields_bind : ∀ {α β : Type} {x : m α} {f : α → m β} {s s' s'' : S} {a : α} {b : β},
    Yields x s a s' → Yields (f a) s' b s'' → Yields (x >>= f) s b s''

open Stateful StackMachine

/-- The laws of a stack model that holds stacks of at most `bound` words. -/
structure Simulation (m : Type → Type) [Monad m] [StackMachine m] {S : Type} [Stateful m S]
    {σ : Type} (I : Environment σ) (bound : Nat) where
  /-- A state of the model stands for a state of the machine. -/
  Rel : S → Evm.State σ → Prop
  /-- A symbol holds a word from now on. -/
  Holds : S → SymbolRef → Word → Prop
  /-- A symbol that holds a word may be put on the stack. -/
  Fit : S → SymbolRef → Word → Prop
  /-- A symbol is that of a global. -/
  Names : S → SymbolRef → Global → Prop
  /-- `Fresh s₀ s x`: the symbol `x` was put in after `s₀` and is not assigned yet in `s`, where all
  that held in `s₀` still does. -/
  Fresh : S → S → SymbolRef → Prop
  pop : ∀ {s e w rest}, Rel s e → e.stack = w :: rest → ∃ x s', Yields (m := m) pop s x s' ∧
    Rel s' { e with stack := rest } ∧ Holds s' x w ∧ ∀ {y v}, Holds s y v → Holds s' y v
  push : ∀ {s e x w}, Rel s e → e.stack.length < bound → Fit s x w →
    ∃ s', Yields (m := m) (push x) s () s' ∧ Rel s' { e with stack := w :: e.stack }
  drop : ∀ {s e w rest}, Rel s e → e.stack = w :: rest →
    ∃ s', Yields (m := m) drop s () s' ∧ Rel s' { e with stack := rest }
  dup : ∀ {s e n w}, Rel s e → e.stack.length < bound → n < 16 → e.stack[n]? = some w →
    ∃ s', Yields (m := m) (dup (n + 1)) s () s' ∧ Rel s' { e with stack := w :: e.stack }
  swap : ∀ {s e a mid b rest}, Rel s e → mid.length < 16 → e.stack = a :: (mid ++ b :: rest) →
    ∃ s', Yields (m := m) (swap (mid.length + 1)) s () s' ∧
      Rel s' { e with stack := b :: (mid ++ a :: rest) }
  constant : ∀ {s e} (w type), Rel s e →
    ∃ x s', Yields (m := m) (constant w type) s x s' ∧ Rel s' e ∧ Fit s' x w
  fold : ∀ {s e refs ws} (op), Rel s e → List.Forall₂ (Holds s) refs ws →
    ∃ r s', Yields (m := m) (fold op refs) s r s' ∧ Rel s' e ∧
      (∀ {y v}, Holds s y v → Holds s' y v) ∧ ∀ x ∈ r, Fit s' x ((op.eval ws).getD 0)
  global : ∀ {s e} (g), Rel s e → ∃ x s', Yields (m := m) (global g) s x s' ∧ Rel s' e ∧
    Names s' x g ∧ (∀ {y v}, Holds s y v → Holds s' y v) ∧ ∀ {s₀ y}, Fresh s₀ s y → Fresh s₀ s' y
  temporary : ∀ {s e}, Rel s e →
    ∃ x s', Yields (m := m) temporary s x s' ∧ Rel s' e ∧ Fresh s s' x
  act : ∀ {s e i a ws} (region : SymbolRef → Region), Rel s e → i.definition? = none →
    i.action? region = some a →
    (∀ x ∈ i.base?, ∃ g, Names s x g ∧ g ≠ .stack ∧ region x = .global g) →
    List.Forall₂ (Holds s) i.operands ws →
    ∃ s', Yields (m := m) (emit i) s () s' ∧
      Rel s' ⟨e.stack, (I a ws e.env).2, e.trace ++ [⟨a, ws⟩]⟩
  assignAct : ∀ {s₀ s e i x a ws} (region : SymbolRef → Region), Rel s e → Fresh s₀ s x →
    i.definition? = some x → i.action? region = some a →
    (∀ x ∈ i.base?, ∃ g, Names s x g ∧ g ≠ .stack ∧ region x = .global g) →
    List.Forall₂ (Holds s₀) i.operands ws →
    ∃ s', Yields (m := m) (emit i) s () s' ∧
      Rel s' ⟨e.stack, (I a ws e.env).2, e.trace ++ [⟨a, ws⟩]⟩ ∧ Fit s' x (I a ws e.env).1
  assign : ∀ {s₀ s e i x ws}, Rel s e → Fresh s₀ s x → i.definition? = some x →
    (∀ region, i.action? region = none) → List.Forall₂ (Holds s₀) i.operands ws →
    ∃ s', Yields (m := m) (emit i) s () s' ∧ Rel s' e ∧ Fit s' x (i.compute ws)

namespace Simulation

variable {m : Type → Type} [Monad m] [StackMachine m] {S : Type} [Stateful m S] {σ : Type}
  {I : Environment σ} {bound : Nat} (sim : Simulation m I bound)

/-! ## Parts of code -/

theorem popN {s : S} {args rest : List Word} {env : σ} {trace : List Event}
    (h : sim.Rel s ⟨args ++ rest, env, trace⟩) :
    ∃ refs s', Yields (m := m) (popN args.length) s refs s' ∧ sim.Rel s' ⟨rest, env, trace⟩ ∧
      List.Forall₂ (sim.Holds s') refs args ∧ ∀ {y v}, sim.Holds s y v → sim.Holds s' y v := by
  induction args generalizing s with
  | nil => exact ⟨[], s, yields_pure [] s, h, .nil, id⟩
  | cons w args ih =>
    obtain ⟨x, s₁, hx, hrel, hhold, hkeep⟩ := sim.pop h rfl
    obtain ⟨refs, s₂, hrefs, hrel₂, hholds, hkeep₂⟩ := ih hrel
    exact ⟨x :: refs, s₂, yields_bind hx (yields_bind hrefs (yields_pure _ _)), hrel₂,
      .cons (hkeep₂ hhold) hholds, fun hy => hkeep₂ (hkeep hy)⟩

theorem pushResult {s : S} {e : Evm.State σ} (op : Operator) {refs : List SymbolRef}
    {ws : List Word} (assign : SymbolRef → Instruction) (h : sim.Rel s e)
    (hb : e.stack.length < bound) (hrefs : List.Forall₂ (sim.Holds s) refs ws)
    (hdef : ∀ x, (assign x).definition? = some x)
    (hact : ∀ x region, (assign x).action? region = none)
    (hops : ∀ x, (assign x).operands = refs)
    (hval : ∀ x, (assign x).compute ws = (op.eval ws).getD 0) :
    ∃ s', Yields (m := m) (pushResult op refs assign) s () s' ∧
      sim.Rel s' { e with stack := (op.eval ws).getD 0 :: e.stack } := by
  obtain ⟨r, s₁, hr, hrel, hkeep, hsome⟩ := sim.fold op h hrefs
  cases r with
  | some x =>
    obtain ⟨s₂, hpush, hrel₂⟩ := sim.push hrel hb (hsome x rfl)
    exact ⟨s₂, yields_bind hr hpush, hrel₂⟩
  | none =>
    obtain ⟨x, s₂, htmp, hrel₂, hfresh⟩ := sim.temporary hrel
    have hops₁ : List.Forall₂ (sim.Holds s₁) (assign x).operands ws := by
      rw [hops x]
      exact hrefs.imp fun _ _ hy => hkeep hy
    obtain ⟨s₃, hemit, hrel₃, hfit⟩ := sim.assign hrel₂ hfresh (hdef x) (hact x) hops₁
    rw [hval x] at hfit
    obtain ⟨s₄, hpush, hrel₄⟩ := sim.push hrel₃ hb hfit
    exact ⟨s₄, yields_bind hr (yields_bind htmp (yields_bind hemit hpush)), hrel₄⟩

/-- Pushes the answer of the environment to an action on words just popped. -/
theorem assignAct_push {s₀ s : S} {e : Evm.State σ} {i : Instruction} {x : SymbolRef} {a : Action}
    {ws : List Word} (region : SymbolRef → Region) (h : sim.Rel s e) (hb : e.stack.length < bound)
    (hfresh : sim.Fresh s₀ s x) (hdef : i.definition? = some x) (hact : i.action? region = some a)
    (hbase : ∀ x ∈ i.base?, ∃ g, sim.Names s x g ∧ g ≠ .stack ∧ region x = .global g)
    (hops : List.Forall₂ (sim.Holds s₀) i.operands ws) :
    ∃ s', Yields (m := m) (do emit i; StackMachine.push x) s () s' ∧
      sim.Rel s' ⟨(I a ws e.env).1 :: e.stack, (I a ws e.env).2, e.trace ++ [⟨a, ws⟩]⟩ := by
  obtain ⟨s₁, hemit, hrel, hfit⟩ := sim.assignAct region h hfresh hdef hact hbase hops
  obtain ⟨s₂, hpush, hrel₂⟩ := sim.push hrel hb hfit
  exact ⟨s₂, yields_bind hemit hpush, hrel₂⟩

/-! ## One lemma for each shape -/

section Shapes

variable {s : S} {i : Located} {rest : List Word} {env : σ} {trace : List Event}

theorem lower_constant {w : Word} {type : TypeHint} (h : sim.Rel s ⟨rest, env, trace⟩)
    (hb : rest.length < bound) :
    ∃ s', Yields (m := m) (do StackMachine.push (← StackMachine.constant w type)) s () s' ∧
      sim.Rel s' ⟨w :: rest, env, trace⟩ := by
  obtain ⟨x, s₁, hx, hrel, hfit⟩ := sim.constant w type h
  obtain ⟨s₂, hpush, hrel₂⟩ := sim.push hrel hb hfit
  exact ⟨s₂, yields_bind hx hpush, hrel₂⟩

theorem lower_jump {w : Word} (h : sim.Rel s ⟨w :: rest, env, trace⟩) :
    ∃ s', Yields (m := m) (lower i .jump) s () s' ∧
      sim.Rel s' ⟨rest, (I .branch [w] env).2, trace ++ [⟨.branch, [w]⟩]⟩ := by
  obtain ⟨x, s₁, hx, hrel, hhold, -⟩ := sim.pop h rfl
  obtain ⟨s₂, hemit, hrel₂⟩ := sim.act (i := .branch x) (fun _ => .pointer 0) hrel rfl rfl
    (fun _ hx => by cases hx) (.cons hhold .nil)
  exact ⟨s₂, yields_bind hx hemit, hrel₂⟩

theorem lower_jumpIf {target condition : Word}
    (h : sim.Rel s ⟨target :: condition :: rest, env, trace⟩) :
    ∃ s', Yields (m := m) (lower i .jumpIf) s () s' ∧
      sim.Rel s' ⟨rest, (I .condBranch [condition, target] env).2,
        trace ++ [⟨.condBranch, [condition, target]⟩]⟩ := by
  obtain ⟨x, s₁, hx, hrel, hhold, -⟩ := sim.pop h rfl
  obtain ⟨y, s₂, hy, hrel₂, hhold₂, hkeep⟩ := sim.pop hrel rfl
  obtain ⟨s₃, hemit, hrel₃⟩ := sim.act (i := .condBranch y x) (fun _ => .pointer 0) hrel₂ rfl rfl
    (fun _ hx => by cases hx) (.cons hhold₂ (.cons (hkeep hhold) .nil))
  exact ⟨s₃, yields_bind hx (yields_bind hy hemit), hrel₃⟩

theorem lower_store {region : Global} (hr : region ≠ .stack) {index value : Word}
    (h : sim.Rel s ⟨index :: value :: rest, env, trace⟩) :
    ∃ s', Yields (m := m) (lower i (.store region)) s () s' ∧
      sim.Rel s' ⟨rest, (I (.store (.global region)) [index, value] env).2,
        trace ++ [⟨.store (.global region), [index, value]⟩]⟩ := by
  obtain ⟨x, s₁, hx, hrel, hhold, -⟩ := sim.pop h rfl
  obtain ⟨y, s₂, hy, hrel₂, hhold₂, hkeep₂⟩ := sim.pop hrel rfl
  obtain ⟨z, s₃, hz, hrel₃, hname, hkeep₃, -⟩ := sim.global region hrel₂
  obtain ⟨s₄, hemit, hrel₄⟩ := sim.act (i := .indexedAssign z x y)
    (fun _ => .global region) hrel₃ rfl rfl
    (fun _ hz => by cases hz; exact ⟨region, hname, hr, rfl⟩)
    (.cons (hkeep₃ (hkeep₂ hhold)) (.cons (hkeep₃ hhold₂) .nil))
  exact ⟨s₄, yields_bind hx (yields_bind hy (yields_bind hz hemit)), hrel₄⟩

theorem lower_load {region : Global} (hr : region ≠ .stack) {index : Word}
    (h : sim.Rel s ⟨index :: rest, env, trace⟩) (hb : rest.length < bound) :
    ∃ s', Yields (m := m) (lower i (.load region)) s () s' ∧
      sim.Rel s' ⟨(I (.load (.global region)) [index] env).1 :: rest,
        (I (.load (.global region)) [index] env).2,
        trace ++ [⟨.load (.global region), [index]⟩]⟩ := by
  obtain ⟨x, s₁, hx, hrel, hhold, -⟩ := sim.pop h rfl
  obtain ⟨y, s₂, hy, hrel₂, hfresh⟩ := sim.temporary hrel
  obtain ⟨z, s₃, hz, hrel₃, hname, -, hfresh₃⟩ := sim.global region hrel₂
  obtain ⟨s₄, hpush, hrel₄⟩ := sim.assignAct_push (i := .indexedCopy y z x)
    (fun _ => .global region) hrel₃ hb (hfresh₃ hfresh) rfl rfl
    (fun _ hz => by cases hz; exact ⟨region, hname, hr, rfl⟩) (.cons hhold .nil)
  exact ⟨s₄, yields_bind hx (yields_bind hy (yields_bind hz hpush)), hrel₄⟩

theorem lower_binary {op : Operator} {a b : Word} (h : sim.Rel s ⟨a :: b :: rest, env, trace⟩)
    (hb : rest.length < bound) :
    ∃ s', Yields (m := m) (lower i (.binary op)) s () s' ∧
      sim.Rel s' ⟨(op.eval [a, b]).getD 0 :: rest, env, trace⟩ := by
  obtain ⟨y, s₁, hy, hrel, hhold, -⟩ := sim.pop h rfl
  obtain ⟨z, s₂, hz, hrel₂, hhold₂, hkeep₂⟩ := sim.pop hrel rfl
  obtain ⟨s₃, hpush, hrel₃⟩ := sim.pushResult op (fun x => .binary x op y z) hrel₂ hb
    (.cons (hkeep₂ hhold) (.cons hhold₂ .nil)) (fun _ => rfl) (fun _ _ => rfl) (fun _ => rfl)
    (fun _ => rfl)
  exact ⟨s₃, yields_bind hy (yields_bind hz hpush), hrel₃⟩

theorem lower_unary {op : Operator} {a : Word} (h : sim.Rel s ⟨a :: rest, env, trace⟩)
    (hb : rest.length < bound) :
    ∃ s', Yields (m := m) (lower i (.unary op)) s () s' ∧
      sim.Rel s' ⟨(op.eval [a]).getD 0 :: rest, env, trace⟩ := by
  obtain ⟨y, s₁, hy, hrel, hhold, -⟩ := sim.pop h rfl
  obtain ⟨s₂, hpush, hrel₂⟩ := sim.pushResult op (fun x => .unary x op y) hrel hb
    (.cons hhold .nil) (fun _ => rfl) (fun _ _ => rfl) (fun _ => rfl) (fun _ => rfl)
  exact ⟨s₂, yields_bind hy hpush, hrel₂⟩

theorem lower_function {g : Global} {args : List Word}
    (h : sim.Rel s ⟨args ++ rest, env, trace⟩) (hb : rest.length < bound) :
    ∃ s', Yields (m := m) (lower i (.function g args.length)) s () s' ∧
      sim.Rel s' ⟨(I (.function g) args env).1 :: rest, (I (.function g) args env).2,
        trace ++ [⟨.function g, args⟩]⟩ := by
  obtain ⟨refs, s₁, hrefs, hrel, hholds, -⟩ := sim.popN h
  obtain ⟨x, s₂, hx, hrel₂, hfresh⟩ := sim.temporary hrel
  obtain ⟨s₃, hpush, hrel₃⟩ := sim.assignAct_push (i := .function g x refs)
    (fun _ => .pointer 0) hrel₂ hb hfresh rfl rfl (fun _ hz => by cases hz) hholds
  exact ⟨s₃, yields_bind hrefs (yields_bind hx hpush), hrel₃⟩

theorem lower_procedure {g : Global} {args : List Word}
    (h : sim.Rel s ⟨args ++ rest, env, trace⟩) :
    ∃ s', Yields (m := m) (lower i (.procedure g args.length)) s () s' ∧
      sim.Rel s' ⟨rest, (I (.procedure g) args env).2, trace ++ [⟨.procedure g, args⟩]⟩ := by
  obtain ⟨refs, s₁, hrefs, hrel, hholds, -⟩ := sim.popN h
  obtain ⟨s₂, hemit, hrel₂⟩ := sim.act (i := .procedure g refs) (fun _ => .pointer 0) hrel rfl rfl
    (fun _ hz => by cases hz) hholds
  exact ⟨s₂, yields_bind hrefs hemit, hrel₂⟩

end Shapes

/-! ## Instructions and code -/

/-- **The code of a shape follows the machine.** -/
theorem lower {s : S} {e : Evm.State σ} (i : Located) {l : Lowering} (hl : l.Proper)
    (h : sim.Rel s e) (hb : e.stack.length < bound) (hin : l.inputs ≤ e.stack.length) :
    ∃ s', Yields (m := m) (lower i l) s () s' ∧
      sim.Rel s' (e.apply l.inputs (l.effect I i (e.stack.take l.inputs) e.env)) := by
  obtain ⟨args, rest, hargs, hstack⟩ : ∃ args rest, args.length = l.inputs ∧
      e.stack = args ++ rest :=
    ⟨_, _, List.length_take_of_le hin, (List.take_append_drop l.inputs e.stack).symm⟩
  obtain ⟨stack, env, trace⟩ := e
  subst hstack
  have hrest : rest.length < bound := by
    rw [List.length_append] at hb
    omega
  simp only [Evm.State.apply, List.take_left' hargs, List.drop_left' hargs]
  cases l with
  | skip =>
    rw [List.eq_nil_of_length_eq_zero hargs] at h
    exact ⟨s, yields_pure () s, by simpa [Lowering.effect, Evm.Effect.pure] using h⟩
  | push | counter =>
    rw [List.eq_nil_of_length_eq_zero hargs] at h
    simpa [EvmFlow.lower, Lowering.effect, Evm.Effect.pure] using sim.lower_constant h hrest
  | drop =>
    obtain ⟨w, rfl⟩ := List.length_eq_one_iff.mp hargs
    simpa [EvmFlow.lower, Lowering.effect, Evm.Effect.pure] using sim.drop h rfl
  | dup n =>
    obtain ⟨k, hk16, rfl⟩ := hl
    have hk : k < args.length := by rw [hargs]; exact Nat.lt_succ_self k
    simpa [EvmFlow.lower, Lowering.effect, Evm.Effect.pure]
      using sim.dup h hb hk16 (Evm.getElem?_append_getD hk rest)
  | swap n =>
    obtain ⟨k, hk16, rfl⟩ := hl
    obtain ⟨a, mid, b, rfl, rfl⟩ := Evm.exists_ends_of_length hargs
    have hstack : a :: (mid ++ [b]) ++ rest = a :: (mid ++ b :: rest) := by simp
    simpa [EvmFlow.lower, Lowering.effect, Evm.Effect.pure, Evm.exchange_cons_concat]
      using sim.swap h hk16 hstack
  | jump =>
    obtain ⟨w, rfl⟩ := List.length_eq_one_iff.mp hargs
    exact sim.lower_jump h
  | jumpIf =>
    obtain ⟨target, condition, rfl⟩ := List.length_eq_two.mp hargs
    exact sim.lower_jumpIf h
  | store region =>
    obtain ⟨index, value, rfl⟩ := List.length_eq_two.mp hargs
    exact sim.lower_store hl h
  | load region =>
    obtain ⟨index, rfl⟩ := List.length_eq_one_iff.mp hargs
    exact sim.lower_load hl h hrest
  | binary op =>
    obtain ⟨a, b, rfl⟩ := List.length_eq_two.mp hargs
    simpa [Lowering.effect, Evm.Effect.pure] using sim.lower_binary (i := i) h hrest
  | unary op =>
    obtain ⟨a, rfl⟩ := List.length_eq_one_iff.mp hargs
    simpa [Lowering.effect, Evm.Effect.pure] using sim.lower_unary (i := i) h hrest
  | function g n =>
    obtain rfl : args.length = n := hargs
    exact sim.lower_function h hrest
  | procedure g n =>
    obtain rfl : args.length = n := hargs
    exact sim.lower_procedure h

theorem lowerInstr {s : S} {e e' : Evm.State σ} {i : Located} (h : sim.Rel s e)
    (hb : e.stack.length < bound) (hstep : Evm.step I i e = some e') :
    ∃ s', Yields (m := m) (lowerInstr i) s i.instr.op.lowering?.isSome s' ∧ sim.Rel s' e' := by
  have hin := (Evm.length_step I hstep).1
  unfold EvmFlow.lowerInstr
  cases hl : i.instr.op.lowering? with
  | some l =>
    have hargs : (e.stack.take i.instr.op.inputs).length = i.instr.op.inputs :=
      List.length_take_of_le hin
    rw [Evm.step_of_le I hin, Lowering.effect_eq I hl hargs, Lowering.inputs_eq hl] at hstep
    cases hstep
    rw [Lowering.inputs_eq hl] at hin
    obtain ⟨s', hlower, hrel⟩ := sim.lower i (Lowering.proper_of_lowering? hl) h hb hin
    exact ⟨s', yields_bind hlower (yields_pure true s'), hrel⟩
  | none =>
    rw [Evm.step_of_no_lowering I hl] at hstep
    cases hstep
    exact ⟨s, yields_pure false s, h⟩

/-- **The code of an instruction list follows the machine.** -/
theorem lowerCode {s : S} {e e' : Evm.State σ} {code : List Located} (h : sim.Rel s e)
    (hb : e.stack.length + code.length ≤ bound) (hrun : Evm.run I code e = some e') :
    ∃ s', Yields (m := m) (lowerCode code) s
        (code.filter fun i => !i.instr.op.lowering?.isSome) s' ∧ sim.Rel s' e' := by
  induction code generalizing s e with
  | nil =>
    cases hrun
    exact ⟨s, yields_pure [] s, h⟩
  | cons i rest ih =>
    obtain ⟨e₁, hstep, hrest⟩ := Option.bind_eq_some_iff.mp hrun
    have hlen := (Evm.length_step I hstep).2
    have hgrow := Opcode.outputs_le i.instr.op
    rw [List.length_cons] at hb
    obtain ⟨s₁, hinstr, hrel⟩ := sim.lowerInstr h (by omega) hstep
    obtain ⟨s₂, hcode, hrel₂⟩ := ih hrel (by omega) hrest
    refine ⟨s₂, ?_, hrel₂⟩
    refine yields_bind hinstr (yields_bind hcode ?_)
    rw [List.filter_cons]
    cases i.instr.op.lowering?.isSome <;> exact yields_pure _ _

end Simulation

/-! ## Properties of all lowered code -/

/-- A property of computations on a stack model that its operations have and that sequencing keeps,
branches apart. No constant is asked for as a truth value. -/
structure ClosedInner (m : Type → Type) [Monad m] [StackMachine m] (P : {α : Type} → m α → Prop) :
    Prop where
  pure : ∀ {α : Type} (a : α), P (pure a : m α)
  bind : ∀ {α β : Type} {x : m α} {f : α → m β}, P x → (∀ a, P (f a)) → P (x >>= f)
  temporary : P (temporary : m SymbolRef)
  constant : ∀ w type, type ≠ .bool → P (constant w type : m SymbolRef)
  global : ∀ g, P (global g : m SymbolRef)
  emit : ∀ i, i.branchTarget? = none → P (emit i : m Unit)
  pop : P (pop : m SymbolRef)
  push : ∀ ref, P (push ref : m Unit)
  drop : P (drop : m Unit)
  dup : ∀ n, P (dup n : m Unit)
  swap : ∀ n, P (swap n : m Unit)
  fold : ∀ op refs, P (fold op refs : m (Option SymbolRef))

/-- Such a property that branches have, too. They are emitted only behind the pops of their
operands. -/
structure Closed (m : Type → Type) [Monad m] [StackMachine m] (P : {α : Type} → m α → Prop) :
    Prop extends ClosedInner m P where
  jump : P (do StackMachine.emit (.branch (← StackMachine.pop)) : m Unit)
  jumpIf : P (do
    let target ← StackMachine.pop
    let condition ← StackMachine.pop
    StackMachine.emit (.condBranch condition target) : m Unit)

namespace ClosedInner

variable {m : Type → Type} [Monad m] [StackMachine m] {P : {α : Type} → m α → Prop}
  (h : ClosedInner m P)

include h

theorem popN (n : Nat) : P (popN n : m (List SymbolRef)) := by
  induction n with
  | zero => exact h.pure []
  | succ n ih => exact h.bind h.pop fun _ => h.bind ih fun _ => h.pure _

theorem emit_push {i : Instruction} (hi : i.branchTarget? = none) (x : SymbolRef) :
    P (do StackMachine.emit i; StackMachine.push x : m Unit) :=
  h.bind (h.emit i hi) fun _ => h.push x

theorem pushResult (op : Operator) (refs : List SymbolRef) {assign : SymbolRef → Instruction}
    (hassign : ∀ x, (assign x).branchTarget? = none) :
    P (pushResult op refs assign : m Unit) := by
  refine h.bind (h.fold op refs) fun x => ?_
  cases x with
  | some x => exact h.push x
  | none => exact h.bind h.temporary fun x => h.emit_push (hassign x) x

theorem lower (i : Located) {l : Lowering} (hjump : l ≠ .jump) (hjumpIf : l ≠ .jumpIf) :
    P (lower i l : m Unit) := by
  cases l with
  | skip => exact h.pure ()
  | push | counter => exact h.bind (h.constant _ _ fun heq => (by cases heq)) h.push
  | drop => exact h.drop
  | dup n => exact h.dup n
  | swap n => exact h.swap n
  | jump => exact absurd rfl hjump
  | jumpIf => exact absurd rfl hjumpIf
  | store region =>
    refine h.bind h.pop fun _ => h.bind h.pop fun _ => h.bind (h.global region) fun _ => ?_
    exact h.emit _ rfl
  | load region =>
    refine h.bind h.pop fun _ => h.bind h.temporary fun x => h.bind (h.global region) fun _ => ?_
    exact h.emit_push rfl x
  | binary op =>
    exact h.bind h.pop fun _ => h.bind h.pop fun _ => h.pushResult _ _ fun _ => rfl
  | unary op => exact h.bind h.pop fun _ => h.pushResult _ _ fun _ => rfl
  | function g n =>
    exact h.bind (h.popN n) fun _ => h.bind h.temporary fun x => h.emit_push rfl x
  | procedure g n => exact h.bind (h.popN n) fun _ => h.emit _ rfl

/-- An instruction that is no jump emits no branch. -/
theorem lowerInstr {i : Located} (hjump : i.instr.op ≠ .jump) (hjumpi : i.instr.op ≠ .jumpi) :
    P (lowerInstr i : m Bool) := by
  unfold EvmFlow.lowerInstr
  cases hl : i.instr.op.lowering? with
  | some l =>
    refine h.bind (h.lower i ?_ ?_) fun _ => h.pure true
    · rintro rfl
      exact hjump (Lowering.eq_jump_of_lowering? hl)
    · rintro rfl
      exact hjumpi (Lowering.eq_jumpi_of_lowering? hl)
  | none => exact h.pure false

end ClosedInner

namespace Closed

variable {m : Type → Type} [Monad m] [StackMachine m] {P : {α : Type} → m α → Prop}
  (h : Closed m P)

include h

theorem lowerInstr (i : Located) : P (lowerInstr i : m Bool) := by
  unfold EvmFlow.lowerInstr
  cases i.instr.op.lowering? with
  | some l =>
    refine h.bind ?_ fun _ => h.pure true
    by_cases hjump : l = .jump
    · rw [hjump]
      exact h.jump
    · by_cases hjumpIf : l = .jumpIf
      · rw [hjumpIf]
        exact h.jumpIf
      · exact h.lower i hjump hjumpIf
  | none => exact h.pure false

/-- **A property that is closed under the operations of a model holds of all lowered code.** -/
theorem lowerCode (code : List Located) : P (lowerCode code : m (List Located)) := by
  induction code with
  | nil => exact h.pure []
  | cons i rest ih => exact h.bind (h.lowerInstr i) fun _ => h.bind ih fun _ => h.pure _

end Closed

end EvmFlow
