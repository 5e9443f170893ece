import EvmFlow.Instruction
import EvmFlow.Proofs.SymbolTable
import Mathlib.Logic.Function.Basic

/-!
# Running three-address code

Straight-line code runs on an assignment of words to symbols and on a state of the environment, of
which nothing is assumed: an `Environment` says what each action answers and what it makes of the
state. Everything that code does besides assigning symbols is an action and is recorded.

* `Region`, `Action`, `Event`: accesses, actions, and actions with the values of their operands;
* `Environment`: an interpretation of the actions;
* `Machine`, `Machine.step`, `Machine.run`: the state of a run, and its steps;
* `Instruction.operands`, `Instruction.action?`, `Instruction.compute`: the three parts of the
  meaning of an instruction;
* `Machine.step_values_of_ne`: a step changes no symbol but the one it defines.
-/

namespace EvmFlow

/-! ## Actions -/

/-- What an indexed access goes to: a global, or the place a value points to. -/
inductive Region where
  | global (g : Global)
  | pointer (address : Word)
deriving DecidableEq

/-- What code does besides computing values. -/
inductive Action where
  /-- Calls a global without a result. -/
  | procedure (g : Global)
  /-- Calls a global for its result. -/
  | function (g : Global)
  /-- Reads a region at an index. -/
  | load (r : Region)
  /-- Writes to a region at an index. -/
  | store (r : Region)
  /-- Jumps to a target. -/
  | branch
  /-- Jumps to a target under a condition. -/
  | condBranch
deriving DecidableEq

/-- An action on the values of its operands. A store has an index and a value, a conditional branch
its condition and its target. -/
structure Event where
  action : Action
  operands : List Word
deriving DecidableEq

/-- An interpretation of the actions as transformers of a state that answer a word. -/
abbrev Environment (σ : Type) := Action → List Word → σ → Word × σ

/-! ## The meaning of instructions -/

/-- The region that a symbol names as the base of an indexed access under an assignment. -/
def SymbolTable.region (t : SymbolTable) (values : SymbolRef → Word) (ref : SymbolRef) : Region :=
  match t.identity? ref with
  | some ⟨.label g, _, _⟩ => .global g
  | _ => .pointer (values ref)

namespace Instruction

/-- The symbols whose values an instruction works on: those it reads, less the base of an
indexed access. -/
def operands : Instruction → List SymbolRef
  | nop => []
  | binary _ _ y z => [y, z]
  | unary _ _ y => [y]
  | branch target => [target]
  | condBranch condition target => [condition, target]
  | procedure _ parameters => parameters
  | function _ _ parameters => parameters
  | copy _ y => [y]
  | indexedAssign _ index y => [index, y]
  | indexedCopy _ _ index => [index]

/-- The base of an indexed access. -/
def base? : Instruction → Option SymbolRef
  | indexedAssign x _ _ => some x
  | indexedCopy _ y _ => some y
  | _ => none

theorem uses_eq (i : Instruction) : i.uses = i.base?.toList ++ i.operands := by
  cases i <;> rfl

/-- The action of an instruction, if it does more than compute. -/
def action? (region : SymbolRef → Region) : Instruction → Option Action
  | procedure g _ => some (.procedure g)
  | function g _ _ => some (.function g)
  | indexedAssign x _ _ => some (.store (region x))
  | indexedCopy _ y _ => some (.load (region y))
  | branch _ => some .branch
  | condBranch _ _ => some .condBranch
  | nop | binary _ _ _ _ | unary _ _ _ | copy _ _ => none

/-- What an instruction without an action computes. An operator that has no result on the operands
gives zero. -/
def compute : Instruction → List Word → Word
  | binary _ op _ _, ws | unary _ op _, ws => (op.eval ws).getD 0
  | copy _ _, ws => ws.headD 0
  | _, _ => 0

/-- The action depends on the region of the base only. -/
theorem action?_congr {r r' : SymbolRef → Region} {i : Instruction}
    (h : ∀ x ∈ i.base?, r x = r' x) : i.action? r = i.action? r' := by
  cases i with
  | indexedAssign x _ _ | indexedCopy _ x _ => simp only [action?, h x rfl]
  | _ => rfl

/-- Values that agree where an instruction reads give it the same operands and the same action. -/
theorem congr_of_uses (t : SymbolTable) {i : Instruction} {v v' : SymbolRef → Word}
    (h : ∀ x ∈ i.uses, v x = v' x) : i.operands.map v = i.operands.map v' ∧
      i.action? (t.region v) = i.action? (t.region v') := by
  rw [uses_eq] at h
  refine ⟨List.map_congr_left fun x hx => h x (List.mem_append_right _ hx), ?_⟩
  refine action?_congr fun x hx => ?_
  have hx : v x = v' x := h x (List.mem_append_left _ (Option.mem_toList.mpr hx))
  rw [SymbolTable.region, SymbolTable.region, hx]

end Instruction

/-! ## Runs -/

/-- The state of a run: the values of the symbols, the environment, and the actions so far. -/
structure Machine (σ : Type) where
  values : SymbolRef → Word
  env : σ
  trace : List Event := []

namespace Machine

variable {σ : Type}

/-- Gives a symbol a value. -/
def assign (m : Machine σ) (x : Option SymbolRef) (w : Word) : Machine σ :=
  match x with
  | some x => { m with values := Function.update m.values x w }
  | none => m

/-- Takes an action on given operands, and assigns what the environment answers. -/
def act (I : Environment σ) (m : Machine σ) (x : Option SymbolRef) (a : Action) (ws : List Word) :
    Machine σ :=
  let answer := I a ws m.env
  { m.assign x answer.1 with env := answer.2, trace := m.trace ++ [⟨a, ws⟩] }

/-- One instruction. -/
def step (I : Environment σ) (t : SymbolTable) (m : Machine σ) (i : Instruction) : Machine σ :=
  let ws := i.operands.map m.values
  match i.action? (t.region m.values) with
  | some a => m.act I i.definition? a ws
  | none => m.assign i.definition? (i.compute ws)

/-- Straight-line code. -/
def run (I : Environment σ) (t : SymbolTable) (m : Machine σ) (code : List Instruction) :
    Machine σ := code.foldl (step I t) m

section Basics

variable (I : Environment σ) (t : SymbolTable) (m : Machine σ)

@[simp] theorem assign_env (x : Option SymbolRef) (w : Word) : (m.assign x w).env = m.env := by
  cases x <;> rfl

@[simp] theorem assign_trace (x : Option SymbolRef) (w : Word) :
    (m.assign x w).trace = m.trace := by
  cases x <;> rfl

@[simp] theorem assign_some_values (x : SymbolRef) (w : Word) :
    (m.assign (some x) w).values = Function.update m.values x w := rfl

@[simp] theorem act_values (x : Option SymbolRef) (a : Action) (ws : List Word) :
    (m.act I x a ws).values = (m.assign x (I a ws m.env).1).values := rfl

@[simp] theorem act_env (x : Option SymbolRef) (a : Action) (ws : List Word) :
    (m.act I x a ws).env = (I a ws m.env).2 := rfl

@[simp] theorem act_trace (x : Option SymbolRef) (a : Action) (ws : List Word) :
    (m.act I x a ws).trace = m.trace ++ [⟨a, ws⟩] := rfl

theorem run_append (c d : List Instruction) :
    run I t m (c ++ d) = run I t (run I t m c) d := List.foldl_append

theorem run_concat (c : List Instruction) (i : Instruction) :
    run I t m (c ++ [i]) = (run I t m c).step I t i := run_append I t m c [i]

theorem step_of_action {i : Instruction} {a : Action}
    (h : i.action? (t.region m.values) = some a) :
    m.step I t i = m.act I i.definition? a (i.operands.map m.values) := by
  rw [step, h]

theorem step_of_no_action {i : Instruction} (h : i.action? (t.region m.values) = none) :
    m.step I t i = m.assign i.definition? (i.compute (i.operands.map m.values)) := by
  rw [step, h]

theorem step_binary (x y z : SymbolRef) (op : Operator) : m.step I t (.binary x op y z) =
    m.assign (some x) ((op.eval [m.values y, m.values z]).getD 0) := rfl

theorem step_unary (x y : SymbolRef) (op : Operator) : m.step I t (.unary x op y) =
    m.assign (some x) ((op.eval [m.values y]).getD 0) := rfl

theorem step_copy (x y : SymbolRef) : m.step I t (.copy x y) = m.assign (some x) (m.values y) := rfl

theorem assign_values_of_ne {x : Option SymbolRef} {ref : SymbolRef} (h : x ≠ some ref) (w : Word) :
    (m.assign x w).values ref = m.values ref := by
  cases x with
  | none => rfl
  | some x => exact Function.update_of_ne (fun he => h (by rw [he])) _ _

theorem assign_values_congr {m' : Machine σ} {ref : SymbolRef} (h : m.values ref = m'.values ref)
    (x : Option SymbolRef) (w : Word) : (m.assign x w).values ref = (m'.assign x w).values ref := by
  cases x with
  | none => exact h
  | some x =>
    rw [assign_some_values, assign_some_values]
    by_cases hx : ref = x
    · rw [hx, Function.update_self, Function.update_self]
    · rw [Function.update_of_ne hx, Function.update_of_ne hx, h]

/-- A step changes no symbol but the one it defines. -/
theorem step_values_of_ne {i : Instruction} {ref : SymbolRef} (h : i.definition? ≠ some ref) :
    (m.step I t i).values ref = m.values ref := by
  unfold step
  split
  · rw [act_values, assign_values_of_ne m h]
  · exact assign_values_of_ne m h _

end Basics

end Machine

theorem SymbolTable.Consistent.region_global {t : SymbolTable} (ht : t.Consistent) {g : Global}
    {ref : SymbolRef} (h : t.IsGlobal g ref) (values : SymbolRef → Word) :
    t.region values ref = .global g := by
  obtain ⟨sc, hx⟩ := ht.global h
  rw [SymbolTable.region, hx]

/-- Whether the region of a global is read off its name or off a later table makes no difference. -/
theorem SymbolTable.Consistent.action?_eq {t t' : SymbolTable} (ht' : t'.Consistent)
    (hg : t.Grows t') {i : Instruction} {a : Action} {region : SymbolRef → Region}
    (hact : i.action? region = some a)
    (hbase : ∀ x ∈ i.base?, ∃ g, t.IsGlobal g x ∧ g ≠ .stack ∧ region x = .global g)
    (values : SymbolRef → Word) : i.action? (t'.region values) = some a := by
  rw [← hact]
  refine Instruction.action?_congr fun x hx => ?_
  obtain ⟨g, hx, -, hregion⟩ := hbase x hx
  rw [hregion, ht'.region_global (hx.grows hg)]

end EvmFlow
