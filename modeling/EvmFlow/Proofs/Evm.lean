import EvmFlow.Bytecode
import EvmFlow.Proofs.Execution
import Mathlib.Data.List.Basic

/-!
# The stack machine

The meaning of opcodes on a stack of words, given by what the machine's definition says of each
opcode: how many words it takes from the stack and how many it leaves, what it computes from them,
and what it asks the environment for. Operands are listed with the top of the stack first.

* `Opcode.inputs`, `Opcode.outputs`: the words taken and left; copying and exchanging count as
  taking all words down to the deepest one they touch, and leaving them again;
* `Opcode.result?`: the word that an arithmetic opcode computes;
* `Opcode.callee?`: the operation of the environment that an opcode calls;
* `Evm.State`, `Evm.step`, `Evm.run`: runs of straight-line code, which fail on a stack that is too
  short; an undefined opcode is passed over;
* `Evm.required`: the number of words that code needs on the stack, and **`Evm.run_isSome_iff`**;
* `Evm.run_append_stack`: words below the required ones are left alone.
-/

namespace EvmFlow

/-! ## Opcodes -/

namespace Opcode

/-- The number of words that an opcode takes from the stack. -/
def inputs : Opcode → Nat
  | stop | address | origin | caller | callvalue | calldatasize | codesize | gasprice
  | returndatasize | coinbase | timestamp | number | difficulty | gaslimit | chainid | selfbalance
  | basefee | blobbasefee | pc | msize | gas | jumpdest | push _ | invalid | undefined _ _ => 0
  | iszero | not | balance | calldataload | extcodesize | extcodehash | blockhash | blobhash | pop
  | mload | sload | tload | jump | selfdestruct => 1
  | add | mul | sub | div | sdiv | mod | smod | exp | signextend | lt | gt | slt | sgt | eq | and
  | or | xor | byte | shl | shr | sar | keccak256 | mstore | mstore8 | sstore | tstore | jumpi | ret
  | revert => 2
  | addmod | mulmod | calldatacopy | codecopy | returndatacopy | mcopy | create => 3
  | extcodecopy | create2 => 4
  | delegatecall | staticcall => 6
  | call | callcode => 7
  | dup n => n.val + 1
  | swap n => n.val + 2
  | log n => n.val + 2

/-- The number of words that an opcode leaves on the stack. -/
def outputs : Opcode → Nat
  | stop | pop | mstore | mstore8 | sstore | tstore | jump | jumpi | jumpdest | calldatacopy
  | codecopy | extcodecopy | returndatacopy | mcopy | log _ | ret | revert | invalid | selfdestruct
  | undefined _ _ => 0
  | dup n => n.val + 2
  | swap n => n.val + 2
  | _ => 1

/-- The word that an arithmetic opcode computes. -/
def result? : Opcode → List Word → Option Word
  | add, [a, b] => some (a + b)
  | mul, [a, b] => some (a * b)
  | sub, [a, b] => some (a - b)
  | div, [a, b] => some (if b = 0 then 0 else a / b)
  | sdiv, [a, b] => some (if b = 0 then 0 else a.sdiv b)
  | mod, [a, b] => some (if b = 0 then 0 else a % b)
  | smod, [a, b] => some (if b = 0 then 0 else a.srem b)
  | exp, [a, b] => some (Word.pow a b)
  | signextend, [k, w] => some (Word.signExtendFrom k w)
  | lt, [a, b] => some (Word.ofBool (a.ult b))
  | gt, [a, b] => some (Word.ofBool (b.ult a))
  | slt, [a, b] => some (Word.ofBool (a.slt b))
  | sgt, [a, b] => some (Word.ofBool (b.slt a))
  | eq, [a, b] => some (Word.ofBool (a == b))
  | iszero, [a] => some (Word.ofBool (a == 0))
  | and, [a, b] => some (a &&& b)
  | or, [a, b] => some (a ||| b)
  | xor, [a, b] => some (a ^^^ b)
  | not, [a] => some (~~~a)
  | byte, [k, w] => some (Word.byteAt k w)
  | shl, [k, w] => some (if k < 256 then w <<< k.toNat else 0)
  | shr, [k, w] => some (if k < 256 then w >>> k.toNat else 0)
  | sar, [k, w] =>
    some (if k < 256 then w.sshiftRight k.toNat else if w.msb then BitVec.allOnes 256 else 0)
  | _, _ => none

/-- The operation of the environment that an opcode calls with its operands. -/
def callee? : Opcode → Option Global
  | stop => some .stop
  | addmod => some .addMod
  | mulmod => some .mulMod
  | keccak256 => some .sha3
  | address => some .contractAddress
  | balance => some .balance
  | origin => some .origin
  | caller => some .caller
  | callvalue => some .callValue
  | calldatasize => some .callDataSize
  | calldatacopy => some .memoryCopy
  | codesize => some .codeSize
  | codecopy => some .codeCopy
  | gasprice => some .gasPrice
  | extcodesize => some .extCodeSize
  | extcodecopy => some .extCodeCopy
  | returndatasize => some .returnDataSize
  | returndatacopy => some .returnDataCopy
  | extcodehash => some .extCodeHash
  | blockhash => some .blockHash
  | coinbase => some .coinbase
  | timestamp => some .timestamp
  | number => some .blockNumber
  | difficulty => some .prevRanDao
  | gaslimit => some .gasLimit
  | chainid => some .chainId
  | selfbalance => some .selfBalance
  | basefee => some .baseFee
  | blobhash => some .blobHash
  | blobbasefee => some .blobBaseFee
  | mstore8 => some .mstore8
  | sload => some .sload
  | sstore => some .sstore
  | msize => some .memorySize
  | gas => some .gas
  | tload => some .tload
  | tstore => some .tstore
  | mcopy => some .mcopy
  | log _ => some .log
  | create => some .create
  | call => some .call
  | callcode => some .callCode
  | ret => some .ret
  | delegatecall => some .delegateCall
  | create2 => some .create2
  | staticcall => some .staticCall
  | revert => some .revert
  | invalid => some .invalid
  | selfdestruct => some .selfDestruct
  | _ => none

/-- An opcode raises the stack by one word at most. -/
theorem outputs_le (op : Opcode) : op.outputs ≤ op.inputs + 1 := by
  cases op <;> simp [outputs, inputs]

end Opcode

/-! ## Located instructions -/

theorem map_instr_locate (offset : Nat) (instrs : List Instr) :
    (locate offset instrs).map Located.instr = instrs := by
  induction instrs generalizing offset with
  | nil => rfl
  | cons i rest ih => rw [locate, List.map_cons, ih]

theorem length_locate (offset : Nat) (instrs : List Instr) :
    (locate offset instrs).length = instrs.length := by
  rw [← List.length_map (f := Located.instr), map_instr_locate]

theorem instr_mem_of_mem_locate {offset : Nat} {instrs : List Instr} {i : Located}
    (h : i ∈ locate offset instrs) : i.instr ∈ instrs := by
  have := List.mem_map_of_mem (f := Located.instr) h
  rwa [map_instr_locate] at this

namespace Evm

variable {σ : Type}

/-! ## Effects -/

/-- What comes of an opcode: the words it leaves, the next state of the environment, and what it
asked the environment for. -/
structure Effect (σ : Type) where
  results : List Word
  env : σ
  events : List Event

/-- Words only. -/
def Effect.pure (results : List Word) (env : σ) : Effect σ := ⟨results, env, []⟩

/-- A request without an answer. -/
def Effect.request (I : Environment σ) (a : Action) (ws : List Word) (env : σ) : Effect σ :=
  ⟨[], (I a ws env).2, [⟨a, ws⟩]⟩

/-- A request whose answer is left on the stack. -/
def Effect.query (I : Environment σ) (a : Action) (ws : List Word) (env : σ) : Effect σ :=
  ⟨[(I a ws env).1], (I a ws env).2, [⟨a, ws⟩]⟩

/-- The list with its first and its last word exchanged. -/
def exchange : List Word → List Word
  | a :: b :: rest => (b :: rest).getLastD b :: ((b :: rest).dropLast ++ [a])
  | l => l

/-- What an instruction does with the words it takes. A conditional jump takes its target before
its condition. -/
def effect (I : Environment σ) (i : Located) (args : List Word) (env : σ) : Effect σ :=
  match i.instr.op with
  | .push _ => .pure [i.instr.value] env
  | .pc => .pure [BitVec.ofNat 256 i.offset] env
  | .dup n => .pure (args.getD n.val 0 :: args) env
  | .swap _ => .pure (exchange args) env
  | .jump => .request I .branch args env
  | .jumpi => .request I .condBranch args.reverse env
  | .mload => .query I (.load (.global .memory)) args env
  | .calldataload => .query I (.load (.global .callData)) args env
  | .mstore => .request I (.store (.global .memory)) args env
  | op =>
    match op.result? args, op.callee? with
    | some w, _ => .pure [w] env
    | none, some g =>
      if op.outputs = 0 then .request I (.procedure g) args env
      else .query I (.function g) args env
    | none, none => .pure [] env

/-! ## Runs -/

/-- A stack, its top first, with the environment and what was asked of it so far. -/
structure State (σ : Type) where
  stack : List Word
  env : σ
  trace : List Event := []

/-- Replaces the topmost `n` words by the outcome of an effect. -/
def State.apply (e : State σ) (n : Nat) (f : Effect σ) : State σ :=
  ⟨f.results ++ e.stack.drop n, f.env, e.trace ++ f.events⟩

/-- One instruction; there is none on a stack that is too short for it. -/
def step (I : Environment σ) (i : Located) (e : State σ) : Option (State σ) :=
  let n := i.instr.op.inputs
  if n ≤ e.stack.length then some (e.apply n (effect I i (e.stack.take n) e.env)) else none

/-- Straight-line code. -/
def run (I : Environment σ) : List Located → State σ → Option (State σ)
  | [], e => some e
  | i :: rest, e => (step I i e).bind (run I rest)

/-- The number of words that code needs on the stack. -/
def required : List Located → Nat
  | [] => 0
  | i :: rest => max i.instr.op.inputs (required rest + i.instr.op.inputs - i.instr.op.outputs)

/-! ## Heights -/

theorem length_exchange (l : List Word) : (exchange l).length = l.length := by
  match l with
  | [] => rfl
  | [_] => rfl
  | a :: b :: rest => simp [exchange]

theorem exchange_cons_concat (a b : Word) (mid : List Word) :
    exchange (a :: (mid ++ [b])) = b :: (mid ++ [a]) := by
  cases mid with
  | nil => rfl
  | cons c mid =>
    have hassoc : c :: (mid ++ [b]) = (c :: mid) ++ [b] := rfl
    rw [List.cons_append, exchange, hassoc, List.dropLast_concat, List.getLastD_concat]

/-- A list of two words or more has a first and a last one. -/
theorem exists_ends_of_length {args : List Word} {k : Nat} (h : args.length = k + 2) :
    ∃ a mid b, args = a :: (mid ++ [b]) ∧ mid.length = k := by
  obtain ⟨a, tail, rfl⟩ := List.exists_cons_of_length_eq_add_one h
  have htail : tail.length = k + 1 := Nat.succ.inj h
  have hne : tail ≠ [] := List.ne_nil_of_length_eq_add_one htail
  exact ⟨a, tail.dropLast, tail.getLast hne, by rw [List.dropLast_append_getLast hne],
    by rw [List.length_dropLast, htail, Nat.add_sub_cancel]⟩

theorem getElem?_append_getD {args : List Word} {k : Nat} (h : k < args.length) (rest : List Word) :
    (args ++ rest)[k]? = some (args.getD k 0) := by
  rw [List.getElem?_append_left h, List.getD_eq_getElem?_getD, List.getElem?_eq_getElem h,
    Option.getD_some]

theorem length_effect (I : Environment σ) (i : Located) {args : List Word}
    (h : args.length = i.instr.op.inputs) (env : σ) :
    (effect I i args env).results.length = i.instr.op.outputs := by
  unfold effect
  generalize i.instr.op = op at h ⊢
  cases op with
  | dup n => simpa [Effect.pure, Opcode.outputs, Opcode.inputs] using h
  | swap n => simpa [Effect.pure, Opcode.outputs, Opcode.inputs, length_exchange] using h
  | add | mul | sub | div | sdiv | mod | smod | exp | signextend | lt | gt | slt | sgt | eq | and
  | or | xor | byte | shl | shr | sar =>
    obtain ⟨a, b, rfl⟩ := List.length_eq_two.mp h
    rfl
  | iszero | not =>
    obtain ⟨a, rfl⟩ := List.length_eq_one_iff.mp h
    rfl
  | _ => rfl

theorem step_of_le (I : Environment σ) {i : Located} {e : State σ}
    (h : i.instr.op.inputs ≤ e.stack.length) :
    step I i e = some (e.apply i.instr.op.inputs
      (effect I i (e.stack.take i.instr.op.inputs) e.env)) := if_pos h

theorem step_of_lt (I : Environment σ) {i : Located} {e : State σ}
    (h : e.stack.length < i.instr.op.inputs) : step I i e = none := if_neg (Nat.not_le.mpr h)

theorem length_step (I : Environment σ) {i : Located} {e e' : State σ} (h : step I i e = some e') :
    i.instr.op.inputs ≤ e.stack.length ∧
      e'.stack.length + i.instr.op.inputs = e.stack.length + i.instr.op.outputs := by
  by_cases hle : i.instr.op.inputs ≤ e.stack.length
  · rw [step_of_le I hle] at h
    cases h
    have hargs : (e.stack.take i.instr.op.inputs).length = i.instr.op.inputs := by
      rw [List.length_take, Nat.min_eq_left hle]
    have hres := length_effect I i hargs e.env
    refine ⟨hle, ?_⟩
    simp only [State.apply, List.length_append, List.length_drop, hres]
    omega
  · rw [step_of_lt I (Nat.not_le.mp hle)] at h
    cases h

/-- **A run succeeds exactly on stacks that hold the required number of words.** -/
theorem run_isSome_iff (I : Environment σ) (code : List Located) (e : State σ) :
    (run I code e).isSome ↔ required code ≤ e.stack.length := by
  induction code generalizing e with
  | nil => simp [run, required]
  | cons i rest ih =>
    by_cases hle : i.instr.op.inputs ≤ e.stack.length
    · have hstep := step_of_le I hle
      have hlen := (length_step I hstep).2
      rw [run, hstep, Option.bind_some, ih, required, Nat.max_le]
      omega
    · rw [run, step_of_lt I (Nat.not_le.mp hle), required, Nat.max_le]
      simp [hle]

theorem exists_run (I : Environment σ) {code : List Located} {e : State σ}
    (h : required code ≤ e.stack.length) : ∃ e', run I code e = some e' :=
  Option.isSome_iff_exists.mp ((run_isSome_iff I code e).mpr h)

/-- Each instruction adds one word at most. -/
theorem length_run_le (I : Environment σ) {code : List Located} {e e' : State σ}
    (h : run I code e = some e') : e'.stack.length ≤ e.stack.length + code.length := by
  induction code generalizing e with
  | nil =>
    cases h
    exact Nat.le_add_right _ _
  | cons i rest ih =>
    obtain ⟨e₁, hstep, hrest⟩ := Option.bind_eq_some_iff.mp h
    have hlen := (length_step I hstep).2
    have hgrow := Opcode.outputs_le i.instr.op
    have := ih hrest
    rw [List.length_cons]
    omega

/-- Every code has a run: on a stack that is high enough. -/
theorem exists_some_run (code : List Located) :
    ∃ (I : Environment Unit) (e e' : State Unit), run I code e = some e' := by
  have hneed : required code ≤ (List.replicate (required code) (0 : Word)).length :=
    Nat.le_of_eq List.length_replicate.symm
  exact ⟨fun _ _ env => (0, env), ⟨_, (), []⟩, exists_run _ (e := ⟨_, (), []⟩) hneed⟩

/-! ## Composition -/

theorem run_append (I : Environment σ) (c d : List Located) (e : State σ) :
    run I (c ++ d) e = (run I c e).bind (run I d) := by
  induction c generalizing e with
  | nil => rfl
  | cons i rest ih =>
    rw [List.cons_append, run, run, Option.bind_assoc]
    exact Option.bind_congr fun e' _ => ih e'

theorem step_append_stack (I : Environment σ) {i : Located} {e e' : State σ}
    (h : step I i e = some e') (below : List Word) :
    step I i { e with stack := e.stack ++ below } =
      some { e' with stack := e'.stack ++ below } := by
  have hle := (length_step I h).1
  rw [step_of_le I hle] at h
  cases h
  have hle' : i.instr.op.inputs ≤ (e.stack ++ below).length := by
    rw [List.length_append]; omega
  rw [step_of_le I (e := { e with stack := e.stack ++ below }) hle']
  simp only [State.apply, List.take_append_of_le_length hle, List.drop_append_of_le_length hle,
    List.append_assoc]

/-- Words below those that a run uses are left alone. -/
theorem run_append_stack (I : Environment σ) {code : List Located} {e e' : State σ}
    (h : run I code e = some e') (below : List Word) :
    run I code { e with stack := e.stack ++ below } =
      some { e' with stack := e'.stack ++ below } := by
  induction code generalizing e with
  | nil =>
    cases h
    rfl
  | cons i rest ih =>
    obtain ⟨e₁, hstep, hrest⟩ := Option.bind_eq_some_iff.mp h
    rw [run, step_append_stack I hstep below]
    exact ih hrest

end Evm

end EvmFlow
