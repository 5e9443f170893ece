import EvmFlow.Proofs.BlockLayout
import EvmFlow.Proofs.JumpResolution

/-!
# Control flow is sound through all passes

The program of a byte string follows the control of the code when it is new, and still does after
any sequence of the built-in passes.

* `offset_lt_of_mem_locate`: instructions lie in front of the end of their code;
* `Program.Tracks.run`, `Program.Tracks.runAll`: one pass, and passes in turn;
* **`Program.followsControl_runAll`**: what the passes make of a new program represents every
  transfer of control in every run of its code.
-/

namespace EvmFlow

/-! ## Offsets -/

theorem offset_lt_of_mem_locate {bytes : List UInt8} (skip k : Nat) {x : Located}
    (hx : x ∈ locate (k + skip) (decodeAfter skip bytes)) : x.offset < k + bytes.length := by
  induction bytes generalizing skip k with
  | nil =>
    rw [decodeAfter] at hx
    cases hx
  | cons byte rest ih =>
    rw [List.length_cons, Nat.add_comm rest.length, ← Nat.add_assoc]
    cases skip with
    | zero =>
      rcases List.mem_cons.mp hx with rfl | hx
      · exact Nat.lt_of_lt_of_le (Nat.lt_succ_self k) (Nat.le_add_right ..)
      · -- The data of the instruction is what the rest begins with, padded to its full length.
        have hlength : ∀ n, ((rest.take n).rightpad n 0).length = n := fun n => by
          rw [List.length_rightpad, List.length_take]
          omega
        rw [Nat.add_zero, Instr.length, hlength, ← Nat.add_assoc] at hx
        exact ih _ _ hx
    | succ skip =>
      rw [decodeAfter, Nat.add_comm skip, ← Nat.add_assoc] at hx
      exact ih _ _ hx

namespace Program

variable {p q : Program} {code : List Located}

/-! ## Passes -/

theorem Tracks.run (h : p.Tracks code) (hcode : ∀ x ∈ code, x.offset < 2 ^ 63) {pass : Pass}
    (hpass : pass = .deadCode ∨ pass = .lift) (hq : p.run pass = .ok q) : q.Tracks code := by
  have hkeeps : ∀ {changes r}, pass.apply p = .ok (changes, r) → r.Tracks code := by
    intro changes r hr
    rcases hpass with rfl | rfl
    · exact h.eliminateDeadCode (mapError_eq_ok.mp hr)
    · exact h.lift hcode (mapError_eq_ok.mp hr)
  unfold Program.run at hq
  split at hq
  · cases hq
  · next changes r hr =>
    split at hq
    · cases hq
    · cases hq
      exact (hkeeps hr).withSymbols rfl (.refl _) (hkeeps hr).symbols

theorem Tracks.runAll (h : p.Tracks code) (hcode : ∀ x ∈ code, x.offset < 2 ^ 63)
    {passes : List Pass} (hpasses : ∀ pass ∈ passes, pass = .deadCode ∨ pass = .lift) :
    (p.runAll passes).1.Tracks code := by
  induction passes generalizing p with
  | nil => exact h
  | cons pass rest ih =>
    unfold Program.runAll
    split
    · next q hq =>
      exact ih (h.run hcode (hpasses pass List.mem_cons_self) hq)
        fun pass' hmem => hpasses pass' (List.mem_cons_of_mem _ hmem)
    · exact h

/-- **Control flow stays sound through all passes.** Every code has a program, and whatever sequence
of passes runs on it, the result represents every transfer of control in every run of the code. -/
theorem followsControl_runAll (bytes : List UInt8) (h : bytes.length < 2 ^ 62) :
    ∃ p, build (decode bytes) = .ok p ∧
      ∀ passes : List Pass, (∀ pass ∈ passes, pass = .deadCode ∨ pass = .lift) →
        (p.runAll passes).1.FollowsControl (locate 0 (decode bytes)) := by
  obtain ⟨p, hp, ht⟩ := exists_build (decode bytes)
  refine ⟨p, hp, fun passes hpasses => (ht.runAll (fun x hx => ?_) hpasses).followsControl⟩
  have hlt := offset_lt_of_mem_locate 0 0 hx
  omega

/-- A jump over an invalid instruction to a jump destination, where the execution ends. -/
def jumpAhead : List UInt8 := [0x60, 4, 0x56, 0xfe, 0x5b, 0x00]

/-- In the optimised program, too, the jump is represented. -/
theorem followsControl_runAll_jumpAhead : jumpAhead.length < 2 ^ 62 ∧
    ∃ p, build (decode jumpAhead) = .ok p ∧ ∃ n, p.optimize.1.Covers n 1 ∧
      p.optimize.1.Carries (locate 0 (decode jumpAhead)) n 1 (.jump 4) := by
  have hlength : jumpAhead.length < 2 ^ 62 := by decide
  obtain ⟨p, hp, hfollows⟩ := followsControl_runAll jumpAhead hlength
  refine ⟨hlength, p, hp, ?_⟩
  have hpasses : ∀ pass ∈ [Pass.deadCode, .lift, .deadCode], pass = .deadCode ∨ pass = .lift := by
    simp
  let I : Environment Unit := fun _ _ env => (0, env)
  have hreaches : Evm.Reaches I (locate 0 (decode jumpAhead)) ⟨0, ⟨[], (), []⟩⟩
      ⟨1, ⟨[4], (), []⟩⟩ := .advance .start rfl
  obtain ⟨n, hn, -, hcarries⟩ :=
    hfollows [.deadCode, .lift, .deadCode] hpasses I () _ hreaches ⟨2, ⟨.jump, []⟩⟩ rfl
  refine ⟨n, hn, ?_⟩
  rcases hcarries ⟨[], (), [⟨.branch, [4]⟩]⟩ rfl with ⟨hnext, -⟩ | hjump
  · cases hnext
  · exact hjump

end Program

end EvmFlow
