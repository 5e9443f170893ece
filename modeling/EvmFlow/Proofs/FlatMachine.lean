import EvmFlow.Proofs.Evm
import Mathlib.Algebra.Order.Ring.Nat
import Mathlib.Data.List.Basic

/-!
# The stack as an array

Flat code keeps the stack of the machine in an array, the bottom entry at index 0, with its height
in a counter. This module says when a run of flat code stands for a state of the stack machine, and
follows that relation through the few instructions by which flat code works on the array.

* `StackArray`, `StackArray.Holds`: arrays, and the list of words at the bottom of an array;
* `Environment.withStack`, `Action.onStack`: an environment together with the array;
* `Represents`: a run of flat code stands for a state of the machine;
* `Represents.assign`, `Represents.setHeight`, `Represents.load`, `Represents.store`,
  `Represents.act`: what each kind of instruction does to it;
* `Evm.State.entry`, `represents_entry`: every state is represented.
-/

namespace EvmFlow

variable {σ : Type}

/-! ## Arrays -/

/-- An array of words, indexed by words. -/
abbrev StackArray := Word → Word

/-- The array begins with the given words. -/
def StackArray.Holds (a : StackArray) (l : List Word) : Prop :=
  ∀ k w, l[k]? = some w → a (BitVec.ofNat 256 k) = w

theorem ofNat_ne_of_lt {j k : Nat} (hj : j < 2 ^ 256) (hk : k < 2 ^ 256) (h : j ≠ k) :
    BitVec.ofNat 256 j ≠ BitVec.ofNat 256 k := fun he => h <| by
  have := congrArg BitVec.toNat he
  rwa [BitVec.toNat_ofNat, BitVec.toNat_ofNat, Nat.mod_eq_of_lt hj, Nat.mod_eq_of_lt hk] at this

namespace StackArray.Holds

variable {a : StackArray} {l : List Word}

theorem of_append {l' : List Word} (h : a.Holds (l ++ l')) : a.Holds l := by
  intro k w hk
  have hlt : k < l.length := (List.getElem?_eq_some_iff.mp hk).1
  exact h k w (by rw [List.getElem?_append_left hlt, hk])

theorem last {w : Word} (h : a.Holds (l ++ [w])) : a (BitVec.ofNat 256 l.length) = w :=
  h l.length w (by simp)

theorem set (h : a.Holds l) (hl : l.length < 2 ^ 256) {j : Nat} (hj : j < 2 ^ 256) (w : Word) :
    StackArray.Holds (Function.update a (BitVec.ofNat 256 j) w) (l.set j w) := by
  intro k v hk
  by_cases hkj : j = k
  · subst hkj
    rw [List.getElem?_set_self' ] at hk
    cases hlj : l[j]? with
    | none => rw [hlj] at hk; cases hk
    | some u =>
      rw [hlj] at hk
      cases hk
      exact Function.update_self _ _ _
  · rw [List.getElem?_set_ne hkj] at hk
    have hlt : k < l.length := (List.getElem?_eq_some_iff.mp hk).1
    rw [Function.update_of_ne (ofNat_ne_of_lt (by omega) hj (Ne.symm hkj))]
    exact h k v hk

theorem concat (h : a.Holds l) (hl : l.length < 2 ^ 256) (w : Word) :
    StackArray.Holds (Function.update a (BitVec.ofNat 256 l.length) w) (l ++ [w]) := by
  intro k v hk
  rcases Nat.lt_trichotomy k l.length with hlt | rfl | hgt
  · rw [List.getElem?_append_left hlt] at hk
    rw [Function.update_of_ne (ofNat_ne_of_lt (by omega) hl (Nat.ne_of_lt hlt))]
    exact h k v hk
  · rw [List.getElem?_concat_length] at hk
    cases hk
    exact Function.update_self _ _ _
  · rw [List.getElem?_eq_none (by rw [List.length_append, List.length_singleton]; omega)] at hk
    cases hk

end StackArray.Holds

/-! ## The environment with the array -/

/-- Actions on the stack as a region. -/
def Action.onStack : Action → Bool
  | load (.global .stack) | store (.global .stack) => true
  | _ => false

/-- Actions on the stack work on the array, all others on the environment. -/
def Environment.withStack (I : Environment σ) : Environment (StackArray × σ)
  | .load (.global .stack), ws, s => (s.1 (ws.headD 0), s)
  | .store (.global .stack), ws, s => (0, Function.update s.1 (ws.headD 0) (ws.getD 1 0), s.2)
  | a, ws, s => ((I a ws s.2).1, s.1, (I a ws s.2).2)

theorem Environment.withStack_of_not_onStack (I : Environment σ) {a : Action}
    (h : a.onStack = false) (ws : List Word) (s : StackArray × σ) :
    I.withStack a ws s = ((I a ws s.2).1, s.1, (I a ws s.2).2) := by
  unfold withStack
  split
  · cases h
  · cases h
  · rfl

theorem Action.not_onStack_of_base {i : Instruction} {region : SymbolRef → Region} {a : Action}
    (ha : i.action? region = some a)
    (hb : ∀ x ∈ i.base?, ∃ g, g ≠ Global.stack ∧ region x = .global g) : a.onStack = false := by
  cases i with
  | indexedAssign x _ _ | indexedCopy _ x _ =>
    obtain ⟨g, hg, hr⟩ := hb x rfl
    simp only [Instruction.action?, hr] at ha
    cases ha
    cases g <;> first | rfl | exact absurd rfl hg
  | nop | binary | unary | copy => cases ha
  | branch | condBranch | procedure | function => cases ha; rfl

/-! ## Runs that stand for the machine -/

/-- A run of flat code stands for a state of the machine, over a table `t`: the counter is the
height of the stack, the array begins with the stack, and apart from accesses to the array the
environment has seen the same. -/
structure Represents (t : SymbolTable) (m : Machine (StackArray × σ)) (e : Evm.State σ) : Prop where
  constant : ∀ {ref w}, t.IsConstant ref w → m.values ref = w
  height : ∀ {ref}, t.IsGlobal .stackHeight ref →
    m.values ref = BitVec.ofNat 256 e.stack.length
  array : m.env.1.Holds e.stack.reverse
  env : m.env.2 = e.env
  trace : m.trace.filter (!·.action.onStack) = e.trace

namespace Represents

variable {I : Environment σ} {t : SymbolTable} {m : Machine (StackArray × σ)} {e : Evm.State σ}

theorem ne_height_of_isTemporary (ht : t.Consistent) {x h : SymbolRef} (hx : t.IsTemporary x)
    (hh : t.IsGlobal .stackHeight h) : x ≠ h := by
  rintro rfl
  obtain ⟨sc, hx⟩ := hx
  obtain ⟨sc', hh⟩ := ht.global hh
  rw [hx] at hh
  cases hh

theorem ne_height_of_isConstant (ht : t.Consistent) {x h : SymbolRef} {w : Word}
    (hx : t.IsConstant x w) (hh : t.IsGlobal .stackHeight h) : x ≠ h := by
  rintro rfl
  obtain ⟨a, sc, hx⟩ := hx
  obtain ⟨sc', hh⟩ := ht.global hh
  rw [hx] at hh
  cases hh

/-- An assignment to a temporary changes nothing of the relation. -/
theorem assign (h : Represents t m e) (ht : t.Consistent) {x : SymbolRef} (hx : t.IsTemporary x)
    (w : Word) : Represents t (m.assign (some x) w) e where
  constant {ref v} hc := by
    have hne : ref ≠ x := fun he => hx.not_isConstant (he ▸ hc)
    rw [Machine.assign_some_values, Function.update_of_ne hne]
    exact h.constant hc
  height {ref} hh := by
    rw [Machine.assign_some_values,
      Function.update_of_ne (ne_height_of_isTemporary ht hx hh).symm]
    exact h.height hh
  array := h.array
  env := h.env
  trace := h.trace

/-- A change of the counter. -/
theorem setHeight (h : Represents t m e) (ht : t.Consistent) {r : SymbolRef}
    (hr : t.IsGlobal .stackHeight r) {l : List Word} (hl : m.env.1.Holds l.reverse) :
    Represents t (m.assign (some r) (BitVec.ofNat 256 l.length)) { e with stack := l } where
  constant {ref v} hc := by
    rw [Machine.assign_some_values, Function.update_of_ne (ne_height_of_isConstant ht hc hr)]
    exact h.constant hc
  height {ref} hh := by
    have href : ref = r := Option.some.inj (hh.symm.trans hr)
    rw [href, Machine.assign_some_values, Function.update_self]
  array := hl
  env := h.env
  trace := h.trace

/-- A load from the array gives a temporary a value and leaves no trace. -/
theorem load (h : Represents t m e) (ht : t.Consistent) {x : SymbolRef} (hx : t.IsTemporary x)
    (i : Word) :
    Represents t (m.act I.withStack (some x) (.load (.global .stack)) [i]) e := by
  have hassign := h.assign ht hx (m.env.1 i)
  refine ⟨hassign.constant, hassign.height, h.array, h.env, ?_⟩
  rw [Machine.act_trace, List.filter_append, h.trace]
  exact List.append_nil _

/-- A store into the array changes entries of the stack and leaves no trace. -/
theorem store (h : Represents t m e) {i w : Word} {l : List Word}
    (hlen : l.length = e.stack.length)
    (hl : StackArray.Holds (Function.update m.env.1 i w) l.reverse) :
    Represents t (m.act I.withStack none (.store (.global .stack)) [i, w])
      { e with stack := l } where
  constant := h.constant
  height hh := by
    rw [hlen]
    exact h.height hh
  array := hl
  env := h.env
  trace := by
    rw [Machine.act_trace, List.filter_append, h.trace]
    exact List.append_nil _

/-- Any other action is seen by the environment. -/
theorem act (h : Represents t m e) {a : Action} (ha : a.onStack = false) (ws : List Word) :
    Represents t (m.act I.withStack none a ws)
      ⟨e.stack, (I a ws e.env).2, e.trace ++ [⟨a, ws⟩]⟩ := by
  have hanswer := I.withStack_of_not_onStack ha ws m.env
  refine ⟨h.constant, h.height, ?_, ?_, ?_⟩
  · rw [Machine.act_env, hanswer]
    exact h.array
  · rw [Machine.act_env, hanswer, h.env]
  · rw [Machine.act_trace, List.filter_append, h.trace]
    simp [ha]

end Represents

/-! ## Entry states -/

/-- The machine that stands for a state with no history. -/
def Evm.State.entry (t : SymbolTable) (e : Evm.State σ) : Machine (StackArray × σ) where
  values ref :=
    match t.identity? ref with
    | some ⟨_, .constant w, _⟩ => w
    | some ⟨.label .stackHeight, _, _⟩ => BitVec.ofNat 256 e.stack.length
    | _ => 0
  env := (fun i => e.stack.reverse.getD i.toNat 0, e.env)

/-- Every state is the entry state of some run of flat code. -/
theorem represents_entry {t : SymbolTable} (ht : t.Consistent) {e : Evm.State σ}
    (hlen : e.stack.length < 2 ^ 256) (htrace : e.trace = []) : Represents t (e.entry t) e where
  constant {ref w} hc := by
    obtain ⟨a, sc, hx⟩ := hc
    simp only [Evm.State.entry, hx]
  height {ref} hh := by
    obtain ⟨sc, hx⟩ := ht.global hh
    simp only [Evm.State.entry, hx, Global.kind]
  array k w hk := by
    have hlt : k < e.stack.length := by
      simpa using (List.getElem?_eq_some_iff.mp hk).1
    have hmod : (BitVec.ofNat 256 k).toNat = k := by
      rw [BitVec.toNat_ofNat, Nat.mod_eq_of_lt (by omega)]
    simp only [Evm.State.entry, hmod, List.getD_eq_getElem?_getD, hk, Option.getD_some]
  env := rfl
  trace := htrace.symm

end EvmFlow
