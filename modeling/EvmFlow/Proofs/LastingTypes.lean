import EvmFlow.Proofs.TypeHints
import EvmFlow.Proofs.WrappedSlots

/-!
# Types that last

Whatever passes run, the types in the lifted blocks that can be reached are as their instructions
ask for. Two things can keep a lifted block from having these types: that it cannot be reached any
more when types are propagated, and that it reaches so many entries of the stack that their slots
wrap around.

* **`Program.passes_keep_types`**: what any sequence of passes keeps;
* `Program.jumped_over_index_keeps_type`: a lifted block that type propagation does not go through;
* `Program.index_becomes_truth_value_manyLogs`: a lifted block whose slots wrap around, of fewer
  than `2 ^ 31 - 32` instructions.
-/

namespace EvmFlow.Program

/-- **The types that branches, indices and comparisons ask for last.** Whatever built-in passes run
on the program of a code, the types in every lifted block that can be reached from the start are as
its instructions ask for, if it reaches at most `2 ^ 32` entries of the stack. Constants and globals
are what they were when they were created: in the program as it was built, or when one of the passes
had lifted blocks and not yet gone through types. -/
theorem passes_keep_types (instrs : List Instr) : ∃ p, build instrs = .ok p ∧
    SymbolTable.Enlarges {} p.symbols ∧
    ∀ passes : List Pass, (∀ pass ∈ passes, pass = .deadCode ∨ pass = .lift) →
      ∃ q, p.runAll passes = (q, .ok ()) ∧
        (∃ found, q.reachable = .ok found ∧ ∀ n ∈ found, q.isSentinel n = false →
          ∃ b ops, q.block n = .ok b ∧ q.opcodes n = .ok ops ∧
            (b.lifted = true → Evm.required ops ≤ 2 ^ 32 →
              WellTyped q.symbols b.instructions b.stackInfo.generates)) ∧
        q.symbols.Genuine ∧
        ∀ first rest, passes = first ++ rest →
          ∃ r, p.runAll first = (r, .ok ()) ∧ r.symbols.KeepsFixed q.symbols ∧
            (rest.head? = some .lift → ∃ lifted r', r.liftBlocks = .ok (lifted, r') ∧
              r.symbols.Enlarges r'.symbols ∧ r'.symbols.KeepsFixed q.symbols) := by
  obtain ⟨p, hp, -⟩ := exists_steps_build instrs
  refine ⟨p, hp, (filled_of_build hp).enlarges, fun passes hpasses => ?_⟩
  obtain ⟨q, hq, hhinted, hfixed⟩ := (hinted_of_build hp).exists_runAll hpasses
  obtain ⟨found, hfound⟩ := hhinted.regular.sound.exists_reachable
  refine ⟨q, hq, ⟨found, hfound, fun n hn hreal => ?_⟩, hhinted.genuine, hfixed⟩
  have hsound := hhinted.regular.sound
  obtain ⟨b, hb⟩ := Graph.contains_iff_label?.mp (hsound.contains_of_reachable hfound hn)
  have hspan := (hsound.verified.block n b hb hreal).span
  have hops := (opcodes_eq_ok hb).mpr ⟨hspan, rfl⟩
  exact ⟨b, _, Graph.label_eq_ok.mpr hb, hops, hhinted.hints found hfound n hn hreal b _ hb hops⟩

/-- Code that reads memory where the top of the stack says, leaves the answer of a comparison on the
stack and jumps if that of another one is not zero. -/
def compareAndJump : List Instr := decode [0x51, 0x33, 0x33, 0x10, 0x33, 0x33, 0x14, 0x33, 0x57]

theorem passes_keep_types_compareAndJump :
    (∀ pass ∈ [Pass.lift, .deadCode], pass = .deadCode ∨ pass = .lift) ∧
      ∃ p q b, build compareAndJump = .ok p ∧ p.runAll [.lift, .deadCode] = (q, .ok ()) ∧
        q.block 4 = .ok b ∧ b.lifted = true ∧ b.instructions =
          [.indexedCopy 20 5 19, .function .caller 21 [], .function .caller 22 [],
            .binary 23 .lessThan 22 21, .function .caller 24 [], .function .caller 25 [],
            .binary 26 .equal 25 24, .function .caller 27 [], .condBranch 26 27] ∧
        b.stackInfo.generates = [20, 23] ∧
        WellTyped q.symbols b.instructions b.stackInfo.generates := by
  have hpasses : ∀ pass ∈ [Pass.lift, .deadCode], pass = .deadCode ∨ pass = .lift := by simp
  have heval : (build compareAndJump).toOption.bind (fun p =>
      (p.runAll [.lift, .deadCode]).1.reachable.toOption.bind fun found =>
        ((p.runAll [.lift, .deadCode]).1.block 4).toOption.bind fun b =>
          ((p.runAll [.lift, .deadCode]).1.opcodes 4).toOption.map fun ops =>
            ([decide (4 ∈ found), !(p.runAll [.lift, .deadCode]).1.isSentinel 4, b.lifted,
              decide (Evm.required ops ≤ 2 ^ 32)], b.instructions, b.stackInfo.generates)) =
      some ([true, true, true, true],
        [.indexedCopy 20 5 19, .function .caller 21 [], .function .caller 22 [],
          .binary 23 .lessThan 22 21, .function .caller 24 [], .function .caller 25 [],
          .binary 26 .equal 25 24, .function .caller 27 [], .condBranch 26 27], [20, 23]) := by
    decide +kernel
  obtain ⟨p, hp, -, hall⟩ := passes_keep_types compareAndJump
  obtain ⟨q, hq, ⟨found, hfound, htypes⟩, -⟩ := hall [.lift, .deadCode] hpasses
  simp only [Option.bind_eq_some_iff, Option.map_eq_some_iff, toOption_eq_some, hp,
    Except.ok.injEq, exists_eq_left', hq, hfound, Prod.mk.injEq, List.cons.injEq, and_true,
    decide_eq_true_eq, Bool.not_eq_true'] at heval
  obtain ⟨b, hb, ops, hops, ⟨hmem, hreal, hlifted, hneed⟩, hcode, hgenerates⟩ := heval
  obtain ⟨b', ops', hb', hops', htyped⟩ := htypes 4 hmem hreal
  cases hb.symm.trans hb'
  cases hops.symm.trans hops'
  exact ⟨hpasses, p, q, b, hp, hq, hb, hlifted, hcode, hgenerates, htyped hlifted hneed⟩

/-- A jump over a block that reads memory where the top of the stack says. -/
def jumpOverRead : List Instr := decode [0x60, 6, 0x56, 0x5b, 0x51, 0x00, 0x5b, 0x00]

/-- The block that is jumped over is lifted. Then the jump is resolved, so that type propagation
does not go through the block any more, and its index is no pointer. Nor can the bound on the
entries be left out: see `index_becomes_truth_value_manyLogs`. -/
theorem jumped_over_index_keeps_type :
    ∃ p q b s, build jumpOverRead = .ok p ∧ p.runAll [.lift] = (q, .ok ()) ∧ q.block 5 = .ok b ∧
      b.lifted = true ∧ .indexedCopy 9 7 8 ∈ b.instructions ∧ q.symbols.symbol 8 = .ok s ∧
      s.isConstant = false ∧ s.type = .word ∧ s.type ≠ .pointer := by
  have heval : (build jumpOverRead).toOption.bind (fun p => (p.run .lift).toOption.bind fun q =>
      (q.block 5).toOption.bind fun b => (q.symbols.symbol 8).toOption.map fun s =>
        (b.lifted, decide (.indexedCopy 9 7 8 ∈ b.instructions), s.isConstant, s.type)) =
      some (true, true, false, .word) := by
    decide +kernel
  simp only [Option.bind_eq_some_iff, Option.map_eq_some_iff, toOption_eq_some, Prod.mk.injEq,
    decide_eq_true_eq] at heval
  obtain ⟨p, hp, q, hq, b, hb, s, hs, hlifted, hmem, hconst, htype⟩ := heval
  refine ⟨p, q, b, s, hp, runAll_cons hq [], hb, hlifted, hmem, hs, hconst, htype, ?_⟩
  rw [htype]
  decide

/-- Logs with four topics, and one without. -/
def manyLogs (k : Nat) : List Instr := List.replicate k ⟨.log 4, []⟩ ++ [⟨.log 0, []⟩]

theorem isLog_of_mem_manyLogs {k : Nat} {i : Instr} (hi : i ∈ manyLogs k) :
    ∃ topics, i.op = .log topics := by
  rcases List.mem_append.mp hi with hi | hi
  · exact ⟨4, congrArg Instr.op (List.eq_of_mem_replicate hi)⟩
  · exact ⟨0, congrArg Instr.op (List.mem_singleton.mp hi)⟩

theorem sum_inputs_manyLogs (k : Nat) :
    ((manyLogs k).map fun i => i.op.inputs).sum = k * 6 + 2 := by
  have hfour : Opcode.inputs (.log 4) = 6 := by decide
  have hzero : Opcode.inputs (.log 0) = 2 := by decide
  rw [manyLogs, List.map_append, List.map_replicate, List.sum_append, List.sum_replicate_nat,
    List.map_singleton, List.sum_singleton, hfour, hzero]

theorem length_readLogBranch_manyLogs (k : Nat) : (readLogBranch (manyLogs k)).length = k + 4 := by
  simp [readLogBranch, manyLogs]

-- The number of logs is an argument of `manyLogs`, so that the list is never evaluated.
/-- A block that can be reached and is lifted, of fewer than `2 ^ 31 - 32` instructions, reaches so
many entries that its index is no pointer. -/
theorem index_becomes_truth_value_manyLogs :
    (readLogBranch (manyLogs 715827882)).length < 2 ^ 31 - 32 ∧
    ∃ p q found n b x y region, build (readLogBranch (manyLogs 715827882)) = .ok p ∧
      p.run .lift = .ok q ∧ q.reachable = .ok found ∧ n ∈ found ∧ q.block n = .ok b ∧
      b.lifted = true ∧ .indexedCopy y region x ∈ b.instructions ∧
      q.symbols.type? x = some .bool ∧ ¬ q.symbols.Typed x .pointer := by
  have hsum := sum_inputs_manyLogs 715827882
  refine ⟨?_, index_becomes_truth_value (fun _ => isLog_of_mem_manyLogs) (hsum.trans (by omega))⟩
  rw [length_readLogBranch_manyLogs]
  omega

end EvmFlow.Program
