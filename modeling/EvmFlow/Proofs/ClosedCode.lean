import EvmFlow.Proofs.LiftedStack
import Mathlib.Algebra.Order.Ring.Nat

/-!
# Closed computations

Code that neither asks the environment for anything nor touches the stack below its own values is
computed in advance. The symbolic model then holds a constant for each word of the stack and emits
no code.

* `Opcode.isClosed`: the opcodes of such code;
* `LiftedStack.Computes`: the local stack holds constants, one for each word of the machine;
* `LiftedStack.Computes.lower`, `LiftedStack.Computes.lowerInstr`,
  `LiftedStack.Computes.lowerCode`: what one shape, one instruction and a whole run keep of that;
* **`LiftedStack.exists_liftAll_of_isClosed`**: the summary of closed code is the final stack.
-/

namespace EvmFlow

open Stateful

/-! ## Closed opcodes -/

/-- The opcodes that work on words of the stack alone. -/
def Opcode.isClosed : Opcode → Bool
  | push _ | pc | pop | jumpdest | dup _ | swap _
  | add | mul | sub | div | sdiv | mod | smod | exp | signextend | lt | gt | slt | sgt | eq | iszero
  | and | or | xor | not | byte | shl | shr | sar => true
  | _ => false

/-- The shapes of their code. -/
def Lowering.IsClosed : Lowering → Prop
  | skip | push | counter | drop | dup _ | swap _ => True
  | binary op => ∃ f, op.evalBinary? = some f
  | unary op => ∃ f, op.evalUnary? = some f
  | _ => False

theorem Opcode.exists_lowering_of_isClosed {op : Opcode} (h : op.isClosed = true) :
    ∃ l, op.lowering? = some l ∧ l.IsClosed := by
  cases op with
  | push _ | pc | pop | jumpdest | dup _ | swap _ => exact ⟨_, rfl, trivial⟩
  | add | mul | sub | div | sdiv | mod | smod | exp | signextend | lt | gt | slt | sgt | eq | iszero
  | and | or | xor | not | byte | shl | shr | sar => exact ⟨_, rfl, _, rfl⟩
  | _ => cases h

/-! ## Related lists -/

section Forall₂

variable {α β : Type} {R : α → β → Prop} {l : List α} {ws : List β}

theorem exists_getElem?_of_forall₂ (h : List.Forall₂ R l ws) {n : Nat} {w : β}
    (hw : ws[n]? = some w) : ∃ x, l[n]? = some x ∧ R x w := by
  obtain ⟨hn, rfl⟩ := List.getElem?_eq_some_iff.mp hw
  have hn' : n < l.length := h.length_eq ▸ hn
  exact ⟨l[n], List.getElem?_eq_getElem hn', h.get hn' hn⟩

theorem forall₂_set (h : List.Forall₂ R l ws) (n : Nat) {x : α} {w : β} (hx : R x w) :
    List.Forall₂ R (l.set n x) (ws.set n w) := by
  induction h generalizing n with
  | nil => exact .nil
  | cons hy hrest ih =>
    cases n with
    | zero => exact .cons hx hrest
    | succ n => exact .cons hy (ih n)

end Forall₂

namespace Lifted

theorem yields_symbol_constant {s : LiftedStack} {ref : SymbolRef} {w : Word}
    (h : s.symbols.IsConstant ref w) : ∃ x, Yields (symbol ref) s x s ∧ x.value? = some w := by
  obtain ⟨a, sc, hid⟩ := h
  obtain ⟨x, hx, -, hkind⟩ := SymbolTable.exists_symbol_of_identity? hid
  obtain ⟨x', hyields, hx'⟩ := yields_symbol ⟨_, hid⟩
  obtain rfl : x' = x := Except.ok.inj (hx'.symm.trans hx)
  exact ⟨x', hyields, by rw [Symbol.value?, hkind, SymbolKind.value?]⟩

/-- The values of constants are found. -/
theorem yields_values?_constants {s : LiftedStack} {refs : List SymbolRef} {vs : List Word}
    (h : List.Forall₂ s.symbols.IsConstant refs vs) : Yields (values? refs) s (some vs) s := by
  induction h with
  | nil => exact yields_pure _ s
  | cons hc _ ih =>
    obtain ⟨x, hx, hv⟩ := yields_symbol_constant hc
    refine yields_bind hx ?_
    simp only [hv]
    exact yields_bind ih (yields_pure _ s)

end Lifted

namespace LiftedStack

variable {σ : Type}

/-- Nothing was emitted, nothing taken from the stack below, and the local stack holds constants of
the words `ws`. -/
structure Computes (s : LiftedStack) (ws : List Word) : Prop where
  wellFormed : s.WellFormed
  out : s.out = #[]
  borrows : s.borrows = 0
  stack : List.Forall₂ s.symbols.IsConstant s.stack ws

theorem computes_start {symbols : SymbolTable} (h : symbols.Consistent) (node : NodeId) :
    Computes { symbols, node } [] where
  wellFormed := ⟨h, fun ha => (by cases ha), fun _ hx => (by cases hx)⟩
  out := rfl
  borrows := rfl
  stack := .nil

namespace Computes

variable {s s' : LiftedStack} {w : Word} {ws : List Word}

theorem extend (h : s.Computes ws) (he : s.Extends s') : s'.Computes ws where
  wellFormed := he.wellFormed
  out := he.out.trans h.out
  borrows := he.borrows.trans h.borrows
  stack := by
    rw [he.stack]
    exact h.stack.imp fun _ _ hc => hc.grows he.grows

/-- The state with other constants on its stack. -/
theorem withStack (h : s.Computes ws) {l : List SymbolRef} {vs : List Word}
    (hl : List.Forall₂ s.symbols.IsConstant l vs) (height : Int32) :
    Computes { s with stack := l, height } vs where
  wellFormed := by
    refine ⟨h.wellFormed.consistent, h.wellFormed.argument, fun ref hmem => ?_⟩
    obtain ⟨i, hi, rfl⟩ := List.getElem_of_mem hmem
    exact (hl.get hi (hl.length_eq ▸ hi)).knows
  out := h.out
  borrows := h.borrows
  stack := hl

/-! ## The operations -/

theorem pop (h : s.Computes (w :: ws)) : ∃ x s', Yields Lifted.pop s x s' ∧ s'.Computes ws ∧
    s'.symbols.IsConstant x w ∧ s.symbols.Grows s'.symbols := by
  obtain ⟨x, rest, hx, hrest, hs⟩ := List.forall₂_cons_right_iff.mp h.stack
  exact ⟨x, _, Lifted.yields_pop_local hs, h.withStack hrest _, hx, .refl _⟩

theorem push (h : s.Computes ws) {x : SymbolRef} (hx : s.symbols.IsConstant x w) :
    ∃ s', Yields (Lifted.push x) s () s' ∧ s'.Computes (w :: ws) :=
  ⟨_, Lifted.yields_push x s, h.withStack (.cons hx h.stack) _⟩

theorem push_constant (h : s.Computes ws) (w : Word) (type : TypeHint) :
    ∃ s', Yields (do Lifted.push (← Lifted.constant w type)) s () s' ∧ s'.Computes (w :: ws) := by
  obtain ⟨x, s₁, hx, hext, -, hc⟩ := Lifted.yields_constant w type h.wellFormed
  obtain ⟨s₂, hpush, h₂⟩ := (h.extend hext).push hc
  exact ⟨s₂, yields_bind hx hpush, h₂⟩

theorem dup (h : s.Computes ws) {n : Nat} (hw : ws[n]? = some w) :
    ∃ s', Yields (Lifted.dup (n + 1)) s () s' ∧ s'.Computes (w :: ws) := by
  obtain ⟨source, hsource, hc⟩ := exists_getElem?_of_forall₂ h.stack hw
  obtain ⟨x, hx, hv⟩ := Lifted.yields_symbol_constant hc
  have hconst : x.isConstant = true := by rw [Symbol.isConstant, hv, Option.isSome_some]
  exact ⟨_, Lifted.yields_dup_constant (Lifted.yields_nth_local hsource) hx hconst,
    h.withStack (.cons hc h.stack) _⟩

theorem swap {a b : Word} {mid rest : List Word} (h : s.Computes (a :: (mid ++ b :: rest))) :
    ∃ s', Yields (Lifted.swap (mid.length + 1)) s () s' ∧
      s'.Computes (b :: (mid ++ a :: rest)) := by
  obtain ⟨top, htop, ha⟩ := exists_getElem?_of_forall₂ h.stack (n := 0) (w := a) rfl
  obtain ⟨other, hother, hb⟩ := exists_getElem?_of_forall₂ h.stack (n := mid.length + 1) (w := b)
    (by simp)
  have hset := forall₂_set (forall₂_set h.stack 0 hb) (mid.length + 1) ha
  refine ⟨_, Lifted.yields_swap_local htop hother, h.withStack ?_ s.height⟩
  simpa using hset

theorem pushResult (h : s.Computes ws) {op : Operator} {refs : List SymbolRef} {vs : List Word}
    (hrefs : List.Forall₂ s.symbols.IsConstant refs vs) (hw : op.eval vs = some w)
    (assign : SymbolRef → Instruction) :
    ∃ s', Yields (EvmFlow.pushResult op refs assign : Lifted Unit) s () s' ∧
      s'.Computes (w :: ws) := by
  obtain ⟨x, s₁, hx, hext, -, hc⟩ := Lifted.yields_constant w .word h.wellFormed
  have hfold : Yields (Lifted.fold op refs) s (some x) s₁ := by
    refine yields_bind (Lifted.yields_values?_constants hrefs) ?_
    simp only [Option.bind_some, hw]
    exact yields_bind hx (yields_pure _ s₁)
  obtain ⟨s₂, hpush, h₂⟩ := (h.extend hext).push hc
  exact ⟨s₂, yields_bind hfold hpush, h₂⟩

/-! ## Shapes, instructions and code -/

theorem lower_binary {op : Operator} {f : Word → Word → Word} (hf : op.evalBinary? = some f)
    {a b : Word} (h : s.Computes (a :: b :: ws)) (i : Located) :
    ∃ s', Yields (EvmFlow.lower i (.binary op) : Lifted Unit) s () s' ∧
      s'.Computes ((op.eval [a, b]).getD 0 :: ws) := by
  have hw : op.eval [a, b] = some (f a b) := by rw [Operator.eval, hf]; rfl
  obtain ⟨y, s₁, hy, h₁, hcy, -⟩ := h.pop
  obtain ⟨z, s₂, hz, h₂, hcz, hgrows⟩ := h₁.pop
  obtain ⟨s₃, hpush, h₃⟩ := h₂.pushResult (.cons (hcy.grows hgrows) (.cons hcz .nil)) hw
    fun x => .binary x op y z
  rw [hw]
  exact ⟨s₃, yields_bind hy (yields_bind hz hpush), h₃⟩

theorem lower_unary {op : Operator} {f : Word → Word} (hf : op.evalUnary? = some f) {a : Word}
    (h : s.Computes (a :: ws)) (i : Located) :
    ∃ s', Yields (EvmFlow.lower i (.unary op) : Lifted Unit) s () s' ∧
      s'.Computes ((op.eval [a]).getD 0 :: ws) := by
  have hw : op.eval [a] = some (f a) := by rw [Operator.eval, hf]; rfl
  obtain ⟨y, s₁, hy, h₁, hcy, -⟩ := h.pop
  obtain ⟨s₂, hpush, h₂⟩ := h₁.pushResult (.cons hcy .nil) hw fun x => .unary x op y
  rw [hw]
  exact ⟨s₂, yields_bind hy hpush, h₂⟩

/-- A closed shape is computed in advance. -/
theorem lower (I : Environment σ) (i : Located) {l : Lowering} (hl : l.IsClosed) (hp : l.Proper)
    {args rest : List Word} (hargs : args.length = l.inputs) (h : s.Computes (args ++ rest))
    (env : σ) : ∃ s', Yields (EvmFlow.lower i l : Lifted Unit) s () s' ∧
      s'.Computes ((l.effect I i args env).results ++ rest) := by
  cases l with
  | skip =>
    rw [List.eq_nil_of_length_eq_zero hargs] at h
    exact ⟨s, yields_pure () s, h⟩
  | push | counter =>
    rw [List.eq_nil_of_length_eq_zero hargs] at h
    exact h.push_constant _ _
  | drop =>
    obtain ⟨w, rfl⟩ := List.length_eq_one_iff.mp hargs
    obtain ⟨x, s', hpop, h', -⟩ := h.pop
    exact ⟨s', Lifted.yields_drop hpop, h'⟩
  | dup n =>
    obtain ⟨k, -, rfl⟩ := hp
    have hk : k < args.length := by rw [hargs]; exact Nat.lt_succ_self k
    exact h.dup (Evm.getElem?_append_getD hk rest)
  | swap n =>
    obtain ⟨k, -, rfl⟩ := hp
    obtain ⟨a, mid, b, rfl, rfl⟩ := Evm.exists_ends_of_length hargs
    have hstack : a :: (mid ++ [b]) ++ rest = a :: (mid ++ b :: rest) := by simp
    rw [hstack] at h
    obtain ⟨s', hswap, h'⟩ := h.swap
    refine ⟨s', hswap, ?_⟩
    simpa [Lowering.effect, Evm.Effect.pure, Evm.exchange_cons_concat] using h'
  | binary op =>
    obtain ⟨a, b, rfl⟩ := List.length_eq_two.mp hargs
    obtain ⟨f, hf⟩ := hl
    exact h.lower_binary hf i
  | unary op =>
    obtain ⟨a, rfl⟩ := List.length_eq_one_iff.mp hargs
    obtain ⟨f, hf⟩ := hl
    exact h.lower_unary hf i
  | _ => exact hl.elim

theorem lowerInstr (I : Environment σ) {i : Located} (hi : i.instr.op.isClosed = true)
    {e e' : Evm.State σ} (h : s.Computes e.stack) (hstep : Evm.step I i e = some e') :
    ∃ s', Yields (EvmFlow.lowerInstr i : Lifted Bool) s true s' ∧ s'.Computes e'.stack := by
  obtain ⟨l, hl, hclosed⟩ := Opcode.exists_lowering_of_isClosed hi
  have hin := (Evm.length_step I hstep).1
  have hargs : (e.stack.take i.instr.op.inputs).length = i.instr.op.inputs :=
    List.length_take_of_le hin
  rw [Evm.step_of_le I hin, Lowering.effect_eq I hl hargs] at hstep
  cases hstep
  rw [← List.take_append_drop i.instr.op.inputs e.stack] at h
  obtain ⟨s', hlower, h'⟩ := h.lower I i hclosed (Lowering.proper_of_lowering? hl)
    (hargs.trans (Lowering.inputs_eq hl)) e.env
  refine ⟨s', ?_, h'⟩
  unfold EvmFlow.lowerInstr
  simp only [hl]
  exact yields_bind hlower (yields_pure true s')

/-- Along a run of closed code the local stack is the stack of the machine. -/
theorem lowerCode (I : Environment σ) {code : List Located}
    (hcode : ∀ i ∈ code, i.instr.op.isClosed = true) {e e' : Evm.State σ} (h : s.Computes e.stack)
    (hrun : Evm.run I code e = some e') :
    ∃ s', Yields (EvmFlow.lowerCode code : Lifted (List Located)) s [] s' ∧
      s'.Computes e'.stack := by
  induction code generalizing s e with
  | nil =>
    cases hrun
    exact ⟨s, yields_pure [] s, h⟩
  | cons i rest ih =>
    obtain ⟨hi, hrest⟩ := List.forall_mem_cons.mp hcode
    obtain ⟨e₁, hstep, hrun₁⟩ := Option.bind_eq_some_iff.mp hrun
    obtain ⟨s₁, hinstr, h₁⟩ := h.lowerInstr I hi hstep
    obtain ⟨s₂, hlower, h₂⟩ := ih hrest h₁ hrun₁
    exact ⟨s₂, yields_bind hinstr (yields_bind hlower (yields_pure [] s₂)), h₂⟩

end Computes

/-- A change of height that fits in 32 bits is the number itself. -/
theorem Balanced.toInt_height {s : LiftedStack} (h : s.Balanced) (hborrows : s.borrows = 0)
    (hlength : s.stack.length < 2 ^ 31) : s.height.toInt = s.stack.length := by
  rw [show s.height = _ from h, hborrows, Int32.toInt_ofInt_of_le] <;> omega

/-- **Closed computations are carried out in advance.** Lifting them emits no code, and the summary
has a constant for each word of the final stack. -/
theorem exists_liftAll_of_isClosed {symbols : SymbolTable} (h : symbols.Consistent) (node : NodeId)
    {code : List Located} (hcode : ∀ i ∈ code, i.instr.op.isClosed = true)
    (hlength : code.length < 2 ^ 31) (I : Environment σ) {env : σ} {e : Evm.State σ}
    (hrun : Evm.run I code ⟨[], env, []⟩ = some e) :
    ∃ s info, liftAll symbols node code = .ok s ∧ s.summary = .ok info ∧ s.out = #[] ∧
      info.arguments = 0 ∧ info.height.toInt = e.stack.length ∧
      List.Forall₂ s.symbols.IsConstant info.generates e.stack.reverse := by
  obtain ⟨s, hyields, hs⟩ := (computes_start h node).lowerCode I hcode hrun
  have hbalanced : s.Balanced := (Lifted.Balances.closed.lowerCode code _ _ _ hyields).2 rfl
  have hheight : e.stack.length ≤ code.length := by
    have := Evm.length_run_le I hrun
    simpa using this
  refine ⟨s, s.info, liftAll_eq_ok.mpr ⟨_, hyields⟩, hbalanced.summary, hs.out, ?_, ?_, ?_⟩
  · exact congrArg Int.ofNat hs.borrows
  · rw [← hs.stack.length_eq]
    exact hbalanced.toInt_height hs.borrows (by rw [hs.stack.length_eq]; omega)
  · exact List.forall₂_reverse_iff.mpr hs.stack

/-- `3 ^ 2` less the offset of an instruction, twice. -/
theorem exists_liftAll_of_isClosed_power :
    let code := locate 0 (decode [0x60, 0x02, 0x60, 0x03, 0x0a, 0x58, 0x90, 0x03, 0x80])
    let I : Environment Unit := fun _ _ env => (0, env)
    (∀ i ∈ code, i.instr.op.isClosed = true) ∧ code.length < 2 ^ 31 ∧
      (Evm.run I code ⟨[], (), []⟩).map Evm.State.stack = some [4, 4] ∧
      ∃ s info, liftAll {} 0 code = .ok s ∧ s.summary = .ok info ∧ s.out = #[] ∧
        info.arguments = 0 ∧ info.height.toInt = 2 ∧
        List.Forall₂ s.symbols.IsConstant info.generates [4, 4] := by
  intro code I
  have hcode : ∀ i ∈ code, i.instr.op.isClosed = true := by decide +kernel
  have hlength : code.length < 2 ^ 31 := by decide +kernel
  have hstack : (Evm.run I code ⟨[], (), []⟩).map Evm.State.stack = some [4, 4] := by
    decide +kernel
  obtain ⟨e, hrun, he⟩ := Option.map_eq_some_iff.mp hstack
  have hlift := exists_liftAll_of_isClosed SymbolTable.consistent_empty 0 hcode hlength I hrun
  rw [he] at hlift
  exact ⟨hcode, hlength, hstack, hlift⟩

end LiftedStack

end EvmFlow
