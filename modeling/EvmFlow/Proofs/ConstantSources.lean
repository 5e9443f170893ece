import EvmFlow.Proofs.ConstantStack
import EvmFlow.Proofs.OrderlyCode
import Mathlib.Data.Nat.Digits.Lemmas

/-!
# Where constants come from

All constants of a program come from one pool, which is keyed by value and type. They stand for the
data bytes of push instructions, for offsets of instructions, for the indices of the flat stack and
for the results of operators that are computed in advance. The code tells which symbol stands for
what, and the pool has that symbol under the type that belongs to its source.

* `bytesToNat_eq_ofDigits`, `Word.eq_of_ofBytes_eq`: byte strings as numbers;
* `Source`, `Source.Shared`: what makes constants, and how the pool has the constant of a source;
  **`Source.Shared.eq_iff`**, **`Source.Shared.ne`**: pushes share a symbol exactly if they push the
  same bytes, and with nothing else;
* `FlatStack.Stands`, `FlatStack.Indexed`, **`FlatStack.Stands.shared`**: which symbol stands for a
  source in flat code, and that the pool has it;
* `LiftedStack.Stands`, **`LiftedStack.Stands.shared`**: the same for lifted code.
-/

namespace EvmFlow

open Stateful

/-! ## Byte strings -/

theorem bytesToNat_concat (bytes : List UInt8) (b : UInt8) :
    bytesToNat (bytes ++ [b]) = 256 * bytesToNat bytes + b.toNat := by
  simp [bytesToNat]

/-- Bytes are the digits of a number to the base 256, the last byte being the lowest digit. -/
theorem bytesToNat_eq_ofDigits (bytes : List UInt8) :
    bytesToNat bytes = Nat.ofDigits 256 (bytes.reverse.map UInt8.toNat) := by
  induction bytes using List.reverseRecOn with
  | nil => rfl
  | append_singleton bytes b ih =>
    rw [bytesToNat_concat, ih, List.reverse_concat, List.map_cons, Nat.ofDigits_cons]
    exact Nat.add_comm _ _

theorem toNat_lt_of_mem_map {bytes : List UInt8} {d : Nat} (hd : d ∈ bytes.map UInt8.toNat) :
    d < 256 := by
  obtain ⟨b, -, rfl⟩ := List.mem_map.mp hd
  exact b.toNat_lt

theorem bytesToNat_lt (bytes : List UInt8) : bytesToNat bytes < 256 ^ bytes.length := by
  have hlt := Nat.ofDigits_lt_base_pow_length (b := 256) (by omega)
    fun d (hd : d ∈ bytes.reverse.map UInt8.toNat) => toNat_lt_of_mem_map hd
  rwa [List.length_map, List.length_reverse, ← bytesToNat_eq_ofDigits] at hlt

/-- Byte strings of one length are told apart by their numbers. -/
theorem eq_of_bytesToNat_eq {a b : List UInt8} (hlen : a.length = b.length)
    (h : bytesToNat a = bytesToNat b) : a = b := by
  rw [bytesToNat_eq_ofDigits, bytesToNat_eq_ofDigits] at h
  have hdigits := Nat.ofDigits_inj_of_len_eq (b := 256) (by omega) (by simpa using hlen)
    (fun d hd => toNat_lt_of_mem_map hd) (fun d hd => toNat_lt_of_mem_map hd) h
  exact List.reverse_injective (List.map_injective_iff.mpr (fun _ _ => UInt8.toNat_inj.mp) hdigits)

namespace Word

/-- A word has room for 32 bytes. -/
theorem toNat_ofBytes {bytes : List UInt8} (h : bytes.length ≤ 32) :
    (ofBytes bytes).toNat = bytesToNat bytes := by
  have hpow : 256 ^ bytes.length ≤ 256 ^ 32 := Nat.pow_le_pow_right (by omega) h
  have hlt : bytesToNat bytes < 2 ^ 256 := Nat.lt_of_lt_of_le (bytesToNat_lt bytes) hpow
  rw [ofBytes, BitVec.toNat_ofNat, Nat.mod_eq_of_lt hlt]

theorem eq_of_ofBytes_eq {a b : List UInt8} (ha : a.length ≤ 32) (hlen : a.length = b.length)
    (h : ofBytes a = ofBytes b) : a = b := by
  refine eq_of_bytesToNat_eq hlen ?_
  rw [← toNat_ofBytes ha, ← toNat_ofBytes (hlen ▸ ha), h]

end Word

/-! ## Sources of constants -/

/-- What makes a constant: a push instruction, an instruction that pushes its own offset, the flat
stack for its indices, or an operator that is computed in advance. -/
inductive Source where
  | push (x : Located)
  | counter (x : Located)
  | index
  | folded (x : Located)

namespace Source

/-- The type of the constants of a source. -/
def type : Source → TypeHint
  | push x => .bytes x.instr.immediate.length
  | counter _ | index => .pointer
  | folded _ => .word

/-- The pool has a constant for a source, and for a push the one of its data bytes. -/
def Shared (source : Source) (t : SymbolTable) (ref : SymbolRef) : Prop :=
  ∃ w, t.shares.get? (.constant w source.type) = some ref ∧
    ∀ x, source = .push x → w = x.instr.value

variable {source : Source} {t t' : SymbolTable} {ref : SymbolRef}

theorem Shared.retains (h : source.Shared t ref) (ht : t.Retains t') : source.Shared t' ref := by
  obtain ⟨w, hw, hvalue⟩ := h
  exact ⟨w, ht hw, hvalue⟩

/-- The symbol of a push is the constant of its data bytes. -/
theorem Shared.symbol_push {x : Located} (h : (push x).Shared t ref) (ht : t.Consistent) :
    t.symbol ref = .ok (.constant x.instr.value (.bytes x.instr.immediate.length)) := by
  obtain ⟨w, hw, hvalue⟩ := h
  obtain ⟨e, he, hs⟩ := ht.share hw
  rw [SymbolTable.symbol_of_entry he, hs, hvalue x rfl]
  rfl

/-- Pushes share a symbol if and only if they push the same bytes. -/
theorem Shared.eq_iff {x y : Located} {ref' : SymbolRef} (ht : t.Consistent)
    (hx : (push x).Shared t ref) (hy : (push y).Shared t ref')
    (hshort : x.instr.immediate.length ≤ 32) :
    ref = ref' ↔ x.instr.immediate = y.instr.immediate := by
  constructor
  · rintro rfl
    have hsymbols := Except.ok.inj ((hx.symbol_push ht).symm.trans (hy.symbol_push ht))
    injection hsymbols with _ htype hkind
    injection htype with _ hlen
    injection hkind with hvalue
    exact Word.eq_of_ofBytes_eq hshort (Int.ofNat_inj.mp hlen) hvalue
  · intro hbytes
    obtain ⟨v, hv, hvalue⟩ := hx
    obtain ⟨w, hw, hvalue'⟩ := hy
    rw [hvalue x rfl, Instr.value, type, hbytes] at hv
    rw [hvalue' y rfl, Instr.value, type] at hw
    exact Option.some.inj (hv.symm.trans hw)

/-- A push shares no symbol with a source of another kind, since the types differ. -/
theorem Shared.ne {x : Located} {ref' : SymbolRef} (ht : t.Consistent) (hx : (push x).Shared t ref)
    (h : source.Shared t ref') (hsource : ∀ y, source ≠ .push y) : ref ≠ ref' := by
  rintro rfl
  obtain ⟨w, hw, -⟩ := h
  obtain ⟨e, he, hs⟩ := ht.share hw
  have hsymbols := (hx.symbol_push ht).symm.trans (SymbolTable.symbol_of_entry he)
  rw [hs] at hsymbols
  have hcls : (TypeHint.bytes x.instr.immediate.length).cls = source.type.cls :=
    congrArg (fun s : Symbol => s.type.cls) (Except.ok.inj hsymbols)
  cases source with
  | push y => exact hsource y rfl
  | counter y | index | folded y => cases hcls

end Source

theorem Opcode.lowering?_of_isPush {op : Opcode} (h : op.isPush = true) :
    op.lowering? = some .push := by
  cases op with
  | push n => rfl
  | _ => cases h

/-- The operands of a binary operator. -/
def Instruction.operandPair? : Instruction → Option (SymbolRef × SymbolRef)
  | binary _ _ y z => some (y, z)
  | _ => none

/-! ## Flat code -/

namespace Flat

theorem bind_apply {α β : Type} (x : Flat α) (f : α → Flat β) (s : FlatStack) :
    (x >>= f) s = f (x s).1 (x s).2 := rfl

theorem lowerCode_append (a b : List Located) (s : FlatStack) :
    ((lowerCode (a ++ b) : Flat (List Located)) s).2 =
      ((lowerCode b : Flat (List Located)) ((lowerCode a : Flat (List Located)) s).2).2 := by
  induction a generalizing s with
  | nil => rfl
  | cons i a ih => exact ih ((lowerInstr i : Flat Bool) s).2

theorem lowerCode_singleton {x : Located} {l : Lowering} (hl : x.instr.op.lowering? = some l)
    (s : FlatStack) :
    ((lowerCode [x] : Flat (List Located)) s).2 = ((lower x l : Flat Unit) s).2 := by
  have hinstr : ((lowerInstr x : Flat Bool) s).2 = ((lower x l : Flat Unit) s).2 := by
    unfold lowerInstr
    rw [hl]
    rfl
  exact hinstr

end Flat

namespace FlatStack

variable {t : SymbolTable} {scope : Scope} {ops : List Located} {s : FlatStack} {ref : SymbolRef}

/-- The code so far ends with a push of `ref`: a store at the height, which then goes up. -/
def Pushed (s : FlatStack) (ref : SymbolRef) : Prop :=
  ∃ code stack height counter one, s.out.toList =
    code ++ [.indexedAssign stack height ref, .binary counter .add counter one]

theorem out_push (s : FlatStack) (ref : SymbolRef) : ∃ stack height counter one,
    (Flat.push ref s).2.out.toList =
      s.out.toList ++ [.indexedAssign stack height ref, .binary counter .add counter one] := by
  obtain ⟨stack, height, counter, one, hout⟩ : ∃ stack height counter one,
      (Flat.push ref s).2.out = (s.out.push (.indexedAssign stack height ref)).push
        (.binary counter .add counter one) := ⟨_, _, _, _, rfl⟩
  refine ⟨stack, height, counter, one, ?_⟩
  rw [hout]
  simp

theorem pushed_push {ref' : SymbolRef} : (Flat.push ref s).2.Pushed ref' ↔ ref' = ref := by
  obtain ⟨stack, height, counter, one, hout⟩ := out_push s ref
  constructor
  · rintro ⟨code, stack', height', counter', one', hout'⟩
    obtain ⟨-, hlast⟩ := List.append_inj' (hout'.symm.trans hout) rfl
    injection hlast with hstore
    injection hstore
  · rintro rfl
    exact ⟨_, _, _, _, _, hout⟩

/-- Which symbol stands for a source in the flat code of the instructions `ops`: for an instruction
the one that its code pushes, and for the stack the one that code adds to the height or takes
from it. -/
inductive Stands (t : SymbolTable) (scope : Scope) (ops : List Located) :
    Source → SymbolRef → Prop
  | push {before after : List Located} {x : Located} {ref : SymbolRef}
      (hops : ops = before ++ x :: after) (hx : x.instr.op.isPush = true)
      (h : (lowerAll t scope (before ++ [x])).2.Pushed ref) : Stands t scope ops (.push x) ref
  | counter {before after : List Located} {x : Located} {ref : SymbolRef}
      (hops : ops = before ++ x :: after) (hx : x.instr.op = .pc)
      (h : (lowerAll t scope (before ++ [x])).2.Pushed ref) : Stands t scope ops (.counter x) ref
  | index {x height ref : SymbolRef} {op : Operator}
      (hheight : (lowerAll t scope ops).2.symbols.IsGlobal .stackHeight height)
      (h : .binary x op height ref ∈ (lowerAll t scope ops).2.out) : Stands t scope ops .index ref

/-! ### Pushed constants -/

theorem lowerAll_append (t : SymbolTable) (scope : Scope) (a b : List Located) :
    (lowerAll t scope (a ++ b)).2 =
      ((lowerCode b : Flat (List Located)) (lowerAll t scope a).2).2 := Flat.lowerCode_append a b _

/-- What is shared after some of the instructions is shared after all of them. -/
theorem retains_lowerAll_append (ht : t.Consistent) (scope : Scope) (a b : List Located) :
    (lowerAll t scope a).2.symbols.Retains (lowerAll t scope (a ++ b)).2.symbols := by
  rw [lowerAll_append]
  exact (Flat.Steers.closed.lowerCode b _ (lowerAll_leads ht scope a).consistent).enlarges.retains

section Constant

variable {before : List Located} {x : Located} {l : Lowering} {w : Word} {type : TypeHint}
  (hl : x.instr.op.lowering? = some l)
  (hlower : (lower x l : Flat Unit) = Flat.constant w type >>= Flat.push)

include hl hlower

/-- The code of an instruction that pushes a constant. -/
theorem lowerAll_constant (t : SymbolTable) (scope : Scope) (before : List Located) :
    (lowerAll t scope (before ++ [x])).2 =
      (Flat.push (Flat.constant w type (lowerAll t scope before).2).1
        (Flat.constant w type (lowerAll t scope before).2).2).2 := by
  rw [lowerAll_append, Flat.lowerCode_singleton hl, hlower, Flat.bind_apply]

/-- The pool has the constant that an instruction pushes. -/
theorem get?_of_pushed (ht : t.Consistent) (h : (lowerAll t scope (before ++ [x])).2.Pushed ref) :
    (lowerAll t scope (before ++ [x])).2.symbols.shares.get? (.constant w type) = some ref := by
  have hbefore := lowerAll_leads ht scope before
  rw [lowerAll_constant hl hlower] at h ⊢
  obtain rfl := pushed_push.mp h
  refine (Flat.Steers.push _ _ ?_).enlarges.retains (SymbolTable.get?_constant _ w type)
  exact hbefore.consistent.constant_op w type

end Constant

/-! ### Indices -/

/-- Where the code so far has a binary operator, its first operand is a temporary, or the second one
is a pointer from the pool. -/
structure Indexed (s : FlatStack) : Prop where
  consistent : s.symbols.Consistent
  operand : ∀ i ∈ s.out, ∀ y z, i.operandPair? = some (y, z) → s.symbols.IsTemporary y ∨
    ∃ w, s.symbols.shares.get? (.constant w .pointer) = some z

namespace Indexed

/-- Other tables that come from asking for symbols do as well. -/
theorem withTable (h : s.Indexed) {t : SymbolTable} (ht : t.Consistent) (hg : s.symbols.Grows t)
    (hr : s.symbols.Retains t) : Indexed { s with symbols := t } where
  consistent := ht
  operand i hi y z hyz := (h.operand i hi y z hyz).imp (·.grows hg) fun ⟨w, hw⟩ => ⟨w, hr hw⟩

theorem emitted (h : s.Indexed) {i : Instruction}
    (hi : ∀ y z, i.operandPair? = some (y, z) → s.symbols.IsTemporary y ∨
      ∃ w, s.symbols.shares.get? (.constant w .pointer) = some z) : (s.emitted i).Indexed where
  consistent := h.consistent
  operand j hj := by
    rcases Array.mem_push.mp hj with hj | rfl
    · exact h.operand j hj
    · exact hi

theorem bind {α β : Type} {x : Flat α} {f : α → Flat β} (h : (f (x s).1 (x s).2).2.Indexed) :
    ((x >>= f) s).2.Indexed := h

end Indexed

end FlatStack

/-- A computation that keeps to this. -/
def Flat.Indexes {α : Type} (x : Flat α) : Prop := ∀ s : FlatStack, s.Indexed → (x s).2.Indexed

namespace Flat.Indexes

variable {α β : Type}

theorem pure (a : α) : Indexes (pure a) := fun _ h => h

theorem bind {x : Flat α} {f : α → Flat β} (hx : Indexes x) (hf : ∀ a, Indexes (f a)) :
    Indexes (x >>= f) := fun s h => hf _ _ (hx s h)

theorem temporary : Indexes temporary := fun s h =>
  h.withTable (h.consistent.temporary _) (s.symbols.temporary_grows _) (.of_shares rfl)

theorem global (g : Global) : Indexes (global g) := fun s h =>
  h.withTable (h.consistent.global_op g) (s.symbols.global_grows g) (s.symbols.global_retains g)

theorem constant (w : Word) (type : TypeHint) : Indexes (constant w type) := fun s h =>
  h.withTable (h.consistent.constant_op w type) (s.symbols.constant_grows w type)
    (s.symbols.constant_retains w type)

theorem emit {i : Instruction} (hi : i.operandPair? = none) : Indexes (emit i) :=
  fun _ h => h.emitted fun y z hyz => by rw [hi] at hyz; cases hyz

/-- An operation on the height, with a number from the pool. -/
theorem emit_number (n : Nat) (x height : SymbolRef) (op : Operator) :
    Indexes (do let y ← number n; Flat.emit (.binary x op height y)) := fun s h => by
  refine ((constant _ .pointer) s h).emitted fun _ _ hyz => .inr ?_
  cases hyz
  exact ⟨_, SymbolTable.get?_constant _ _ _⟩

theorem step (op : Operator) : Indexes (step op) := (global _).bind fun h => emit_number 1 h h op

theorem load (index : SymbolRef) : Indexes (load index) :=
  temporary.bind fun x => (global _).bind fun _ => (emit rfl).bind fun _ => pure x

theorem indexOf (n : Nat) : Indexes (indexOf n) := by
  refine temporary.bind fun x => (global _).bind fun h => ?_
  exact (emit_number n x h .sub).bind fun _ => pure x

theorem push (ref : SymbolRef) : Indexes (push ref) :=
  (global _).bind fun _ => (global _).bind fun _ => (emit rfl).bind fun _ => step _

theorem pop : Indexes pop := (step .sub).bind fun _ => (global .stackHeight).bind load

theorem popN (n : Nat) : Indexes (popN n : Flat (List SymbolRef)) := by
  induction n with
  | zero => exact pure []
  | succ n ih => exact pop.bind fun _ => ih.bind fun _ => pure _

theorem dup (n : Nat) : Indexes (dup n) := (indexOf n).bind fun i => (load i).bind push

theorem swap (n : Nat) : Indexes (swap n) := by
  refine (global .stack).bind fun _ => (indexOf 1).bind fun i => (indexOf (n + 1)).bind fun j => ?_
  exact (load i).bind fun _ => (load j).bind fun _ => (emit rfl).bind fun _ => emit rfl

theorem pushResult {s : FlatStack} (h : s.Indexed) (op : Operator) (refs : List SymbolRef)
    {assign : SymbolRef → Instruction}
    (hassign : ∀ x y z, (assign x).operandPair? = some (y, z) → s.symbols.IsTemporary y) :
    ((pushResult op refs assign : Flat Unit) s).2.Indexed := by
  change (Flat.push (Flat.temporary s).1
    ((Flat.temporary s).2.emitted (assign (Flat.temporary s).1))).2.Indexed
  refine push _ _ ((temporary s h).emitted fun y z hyz => .inl ?_)
  exact (hassign _ y z hyz).grows (s.symbols.temporary_grows s.scope)

/-- The operands of an operator come from the stack, so that they are temporaries. -/
theorem binary (i : Located) (op : Operator) : Indexes (lower i (.binary op) : Flat Unit) := by
  intro s h
  have hfirst := pop s h
  refine .bind (.bind (pushResult (pop _ hfirst) op _ fun x y z hyz => ?_))
  cases hyz
  exact (Flat.Steers.isTemporary_pop s).grows (Flat.Steers.pop _ hfirst.consistent).enlarges.grows

theorem lower (i : Located) (l : Lowering) : Indexes (lower i l : Flat Unit) := by
  cases l with
  | skip => exact pure ()
  | push | counter => exact (constant _ _).bind push
  | drop => exact step .sub
  | dup n => exact dup n
  | swap n => exact swap n
  | jump => exact pop.bind fun _ => emit rfl
  | jumpIf => exact pop.bind fun _ => pop.bind fun _ => emit rfl
  | store region => exact pop.bind fun _ => pop.bind fun _ => (global region).bind fun _ => emit rfl
  | load region =>
    refine pop.bind fun _ => temporary.bind fun x => (global region).bind fun _ => ?_
    exact (emit rfl).bind fun _ => push x
  | binary op => exact binary i op
  | unary op => exact pop.bind fun _ s h => pushResult h op _ nofun
  | function g n =>
    exact (popN n).bind fun _ => temporary.bind fun x => (emit rfl).bind fun _ => push x
  | procedure g n => exact (popN n).bind fun _ => emit rfl

theorem lowerCode (code : List Located) : Indexes (lowerCode code : Flat (List Located)) := by
  induction code with
  | nil => exact pure []
  | cons i rest ih =>
    refine bind ?_ fun _ => ih.bind fun _ => pure _
    unfold lowerInstr
    cases i.instr.op.lowering? with
    | some l => exact (lower i l).bind fun _ => pure true
    | none => exact pure false

end Flat.Indexes

namespace FlatStack

variable {t : SymbolTable} {scope : Scope} {ops : List Located} {ref : SymbolRef}

theorem indexed_lowerAll (ht : t.Consistent) (scope : Scope) (ops : List Located) :
    (lowerAll t scope ops).2.Indexed :=
  Flat.Indexes.lowerCode ops _ ⟨ht, fun i hi => by simp at hi⟩

/-- **The pool has the constants of flat code.** -/
theorem Stands.shared {source : Source} (h : Stands t scope ops source ref) (ht : t.Consistent) :
    source.Shared (lowerAll t scope ops).2.symbols ref := by
  cases h with
  | @push before after x _ hops hx h =>
    have hpool := get?_of_pushed (Opcode.lowering?_of_isPush hx) rfl ht h
    have hretains := retains_lowerAll_append ht scope (before ++ [x]) after
    rw [List.append_assoc, List.singleton_append, ← hops] at hretains
    refine ⟨_, hretains hpool, fun y hy => ?_⟩
    cases hy
    rfl
  | @counter before after x _ hops hx h =>
    have hpool := get?_of_pushed (l := .counter) (by rw [hx]; rfl) rfl ht h
    have hretains := retains_lowerAll_append ht scope (before ++ [x]) after
    rw [List.append_assoc, List.singleton_append, ← hops] at hretains
    exact ⟨_, hretains hpool, nofun⟩
  | index hheight h =>
    have hindexed := indexed_lowerAll ht scope ops
    rcases hindexed.operand _ h _ _ rfl with htmp | ⟨w, hw⟩
    · exact absurd htmp (hindexed.consistent.not_isTemporary_of_isGlobal hheight)
    · exact ⟨w, hw, nofun⟩

theorem Stands.mem {x : Located} (h : Stands t scope ops (.push x) ref) :
    x ∈ ops ∧ x.instr.op.isPush = true := by
  cases h with
  | push hops hx => exact ⟨by simp [hops], hx⟩

/-- Every push instruction has a symbol. -/
theorem exists_stands_push {x : Located} (hmem : x ∈ ops) (hx : x.instr.op.isPush = true) :
    ∃ ref, Stands t scope ops (.push x) ref := by
  obtain ⟨before, after, hops⟩ := List.append_of_mem hmem
  have hcode := lowerAll_constant (Opcode.lowering?_of_isPush hx) rfl t scope before
  exact ⟨_, .push hops hx (hcode ▸ pushed_push.mpr rfl)⟩

end FlatStack

/-! ## Lifted code -/

namespace Lifted

variable {s s' : LiftedStack} {ref : SymbolRef}

theorem exists_of_yields_append {a b gaps : List Located}
    (h : Yields (lowerCode (a ++ b) : Lifted (List Located)) s gaps s') :
    ∃ gaps₁ gaps₂ s₁, Yields (lowerCode a : Lifted (List Located)) s gaps₁ s₁ ∧
      Yields (lowerCode b : Lifted (List Located)) s₁ gaps₂ s' := by
  induction a generalizing s gaps with
  | nil => exact ⟨[], gaps, s, yields_pure _ _, h⟩
  | cons i a ih =>
    obtain ⟨known, s₁, hi, h⟩ := exists_of_yields_bind h
    obtain ⟨rest, s₂, hrest, h⟩ := exists_of_yields_bind h
    cases h
    obtain ⟨gaps₁, gaps₂, s₃, ha, hb⟩ := ih hrest
    exact ⟨_, gaps₂, s₃, yields_bind hi (yields_bind ha (yields_pure _ _)), hb⟩

theorem yields_lower_of_singleton {x : Located} {l : Lowering} {gaps : List Located}
    (hl : x.instr.op.lowering? = some l)
    (h : Yields (lowerCode [x] : Lifted (List Located)) s gaps s') :
    Yields (lower x l : Lifted Unit) s () s' := by
  obtain ⟨known, s₁, hi, h⟩ := exists_of_yields_bind h
  cases h
  unfold lowerInstr at hi
  rw [hl] at hi
  obtain ⟨_, s₂, hlower, hi⟩ := exists_of_yields_bind hi
  cases hi
  exact hlower

/-- A constant that is pushed lies on top of the stack and in the pool. -/
theorem top_of_yields_constant {w : Word} {type : TypeHint}
    (h : Yields (constant w type >>= push) s () s') :
    ∃ ref, s'.stack.head? = some ref ∧
      s'.symbols.shares.get? (.constant w type) = some ref := by
  obtain ⟨ref, s₁, hconstant, hpush⟩ := exists_of_yields_bind h
  cases hconstant
  cases hpush
  exact ⟨_, rfl, SymbolTable.get?_constant _ w type⟩

/-- What an operator yields in advance is a word from the pool. -/
theorem get?_of_yields_fold {op : Operator} {refs : List SymbolRef}
    (h : Yields (fold op refs) s (some ref) s') :
    ∃ w, s'.symbols.shares.get? (.constant w .word) = some ref := by
  obtain ⟨vs, s₁, -, h⟩ := exists_of_yields_bind h
  split at h
  · next w _ =>
    obtain ⟨x, s₂, hconstant, h⟩ := exists_of_yields_bind h
    cases h
    cases hconstant
    exact ⟨w, SymbolTable.get?_constant _ w .word⟩
  · cases h

/-- The result of an operator is a word from the pool if it is a constant. -/
theorem get?_of_yields_pushResult {op : Operator} {refs : List SymbolRef}
    {assign : SymbolRef → Instruction} {w : Word}
    (h : Yields (pushResult op refs assign : Lifted Unit) s () s')
    (htop : s'.stack.head? = some ref) (hconst : s'.symbols.IsConstant ref w) :
    ∃ v, s'.symbols.shares.get? (.constant v .word) = some ref := by
  obtain ⟨r, s₁, hfold, h⟩ := exists_of_yields_bind h
  cases r with
  | some x =>
    cases h
    cases htop
    obtain ⟨v, hv⟩ := get?_of_yields_fold hfold
    exact ⟨v, hv⟩
  | none =>
    cases h
    cases htop
    exact absurd hconst (s₁.symbols.temporary_isTemporary (.block s₁.node)).not_isConstant

end Lifted

namespace LiftedStack

variable {t : SymbolTable} {n : NodeId} {ops : List Located} {s s' : LiftedStack} {ref : SymbolRef}

/-- Which symbol stands for a source in the lifted code of the instructions `ops`: the one on top of
the stack behind a push, behind an instruction that pushes its offset, and behind an operator if it
is a constant. -/
inductive Stands (t : SymbolTable) (n : NodeId) (ops : List Located) : Source → SymbolRef → Prop
  | push {before after : List Located} {x : Located} {s : LiftedStack} {ref : SymbolRef}
      (hops : ops = before ++ x :: after) (hx : x.instr.op.isPush = true)
      (hs : liftAll t n (before ++ [x]) = .ok s) (h : s.stack.head? = some ref) :
      Stands t n ops (.push x) ref
  | counter {before after : List Located} {x : Located} {s : LiftedStack} {ref : SymbolRef}
      (hops : ops = before ++ x :: after) (hx : x.instr.op = .pc)
      (hs : liftAll t n (before ++ [x]) = .ok s) (h : s.stack.head? = some ref) :
      Stands t n ops (.counter x) ref
  | folded {before after : List Located} {x : Located} {op : Operator} {s : LiftedStack}
      {ref : SymbolRef} {w : Word} (hops : ops = before ++ x :: after)
      (hx : x.instr.op.lowering? = some (.binary op) ∨ x.instr.op.lowering? = some (.unary op))
      (hs : liftAll t n (before ++ [x]) = .ok s) (h : s.stack.head? = some ref)
      (hw : s.symbols.IsConstant ref w) : Stands t n ops (.folded x) ref

/-- The last instruction is lowered behind the others. -/
theorem exists_yields_lower {before : List Located} {x : Located} {l : Lowering}
    (hl : x.instr.op.lowering? = some l) (hs : liftAll t n (before ++ [x]) = .ok s) :
    ∃ s₀, Yields (lower x l : Lifted Unit) s₀ () s := by
  obtain ⟨gaps, h⟩ := liftAll_eq_ok.mp hs
  obtain ⟨_, _, s₀, -, hx⟩ := Lifted.exists_of_yields_append h
  exact ⟨s₀, Lifted.yields_lower_of_singleton hl hx⟩

/-- What is shared after some of the instructions is shared after all of them. -/
theorem retains_liftAll_append {a b : List Located} (hs : liftAll t n a = .ok s)
    (hs' : liftAll t n (a ++ b) = .ok s') : s.symbols.Retains s'.symbols := by
  obtain ⟨gaps, h⟩ := liftAll_eq_ok.mp hs'
  obtain ⟨_, _, s₁, ha, hb⟩ := Lifted.exists_of_yields_append h
  obtain rfl := Except.ok.inj (hs.symm.trans (liftAll_eq_ok.mpr ⟨_, ha⟩))
  exact (Lifted.enlarges_lowerCode hb).retains

section Top

variable {before : List Located} {x : Located}

/-- The pool has the constant that an instruction pushes. -/
theorem get?_of_head? {l : Lowering} {w : Word} {type : TypeHint}
    (hl : x.instr.op.lowering? = some l)
    (hlower : (lower x l : Lifted Unit) = Lifted.constant w type >>= Lifted.push)
    (hs : liftAll t n (before ++ [x]) = .ok s) (htop : s.stack.head? = some ref) :
    s.symbols.shares.get? (.constant w type) = some ref := by
  obtain ⟨s₀, h⟩ := exists_yields_lower hl hs
  rw [hlower] at h
  obtain ⟨ref', htop', hpool⟩ := Lifted.top_of_yields_constant h
  rwa [htop'.symm.trans htop] at hpool

/-- The pool has the constant that an operator leaves on the stack. -/
theorem get?_of_folded {op : Operator} {w : Word}
    (hx : x.instr.op.lowering? = some (.binary op) ∨ x.instr.op.lowering? = some (.unary op))
    (hs : liftAll t n (before ++ [x]) = .ok s) (htop : s.stack.head? = some ref)
    (hw : s.symbols.IsConstant ref w) :
    ∃ v, s.symbols.shares.get? (.constant v .word) = some ref := by
  rcases hx with hl | hl
  · obtain ⟨s₀, h⟩ := exists_yields_lower hl hs
    obtain ⟨y, s₁, -, h⟩ := Lifted.exists_of_yields_bind h
    obtain ⟨z, s₂, -, h⟩ := Lifted.exists_of_yields_bind h
    exact Lifted.get?_of_yields_pushResult h htop hw
  · obtain ⟨s₀, h⟩ := exists_yields_lower hl hs
    obtain ⟨y, s₁, -, h⟩ := Lifted.exists_of_yields_bind h
    exact Lifted.get?_of_yields_pushResult h htop hw

end Top

/-- **The pool has the constants of lifted code.** -/
theorem Stands.shared {source : Source} (h : Stands t n ops source ref)
    (hs' : liftAll t n ops = .ok s') : source.Shared s'.symbols ref := by
  have hlater : ∀ {before after x s}, ops = before ++ x :: after →
      liftAll t n (before ++ [x]) = .ok s → s.symbols.Retains s'.symbols := by
    intro before after x s hops hs
    rw [hops, ← List.singleton_append, ← List.append_assoc] at hs'
    exact retains_liftAll_append hs hs'
  cases h with
  | push hops hx hs htop =>
    have hpool := get?_of_head? (Opcode.lowering?_of_isPush hx) rfl hs htop
    refine ⟨_, hlater hops hs hpool, fun y hy => ?_⟩
    cases hy
    rfl
  | counter hops hx hs htop =>
    have hpool := get?_of_head? (l := .counter) (by rw [hx]; rfl) rfl hs htop
    exact ⟨_, hlater hops hs hpool, nofun⟩
  | folded hops hx hs htop hw =>
    obtain ⟨v, hpool⟩ := get?_of_folded hx hs htop hw
    exact ⟨v, hlater hops hs hpool, nofun⟩

theorem Stands.mem {x : Located} (h : Stands t n ops (.push x) ref) :
    x ∈ ops ∧ x.instr.op.isPush = true := by
  cases h with
  | push hops hx => exact ⟨by simp [hops], hx⟩

/-- Every push instruction has a symbol. -/
theorem exists_stands_push (ht : t.Consistent) {x : Located} (hmem : x ∈ ops)
    (hx : x.instr.op.isPush = true) : ∃ ref, Stands t n ops (.push x) ref := by
  obtain ⟨before, after, hops⟩ := List.append_of_mem hmem
  obtain ⟨s, hs, -⟩ := exists_liftAll ht n (before ++ [x])
  obtain ⟨s₀, hlower⟩ := exists_yields_lower (Opcode.lowering?_of_isPush hx) hs
  obtain ⟨ref, htop, -⟩ := Lifted.top_of_yields_constant hlower
  exact ⟨ref, .push hops hx hs htop⟩

end LiftedStack

end EvmFlow
