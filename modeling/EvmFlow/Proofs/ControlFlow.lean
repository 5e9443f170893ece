import EvmFlow.Program
import EvmFlow.Proofs.Control
import EvmFlow.Proofs.Incidence

/-!
# Programs that follow the control of their code

What it takes for the graph of a program to represent every transfer of control of the machine, and
that it is enough.

* `Program.StartsAt`, `Program.Covers`: the live block that begins at an instruction, and the one
  that an instruction lies in;
* `Program.LeadsTo`: the node that stands for the destination of a jump;
* `Program.Carries`: the edges that represent a transfer of control;
* `Program.TargetsForced`: the branches of the code of a block are right;
* `Program.Flows`: what is required of one block, and `Program.Tracks`: of a whole program;
* `Program.Inside`: a point of a run inside a block;
* `Program.FollowsControl`, **`Program.Tracks.followsControl`**: such a program represents every
  transfer of control in every run.
-/

namespace EvmFlow.Program

/-! ## Blocks and edges -/

section Statement

variable (p : Program) (code : List Located)

/-- The live block at a node begins at an instruction. -/
def StartsAt (n : NodeId) (i : Nat) : Prop :=
  ∃ b, p.graph.label? n = some b ∧ p.isSentinel n = false ∧ b.opcodes.start = i

/-- An instruction lies in the range of the live block at a node. -/
def Covers (n : NodeId) (i : Nat) : Prop :=
  ∃ b, p.graph.label? n = some b ∧ p.isSentinel n = false ∧ b.opcodes.contains i = true

/-- The node for a jump to a word: the block at the jump destination, or else the invalid jump. -/
def LeadsTo (w : Word) (m : NodeId) : Prop :=
  match Evm.destination? code w with
  | some j => p.StartsAt m j
  | none => m = p.sentinels.invalidJump

/-- The transfer of control out of a block behind the instruction `i` is represented by edges:
falling through by a static edge to the next block; a jump by a static edge to where it leads, or
through the jump table; and the end of the execution by an edge to the terminator. -/
def Carries (n : NodeId) (i : Nat) : Evm.Exit → Prop
  | .next => ∃ m, p.StartsAt m (i + 1) ∧ p.graph.Links n m .static
  | .jump w =>
    (∃ m, p.LeadsTo code w m ∧ p.graph.Links n m .static) ∨
      p.graph.Links n p.sentinels.jumpTable .dynamic ∧
        ∀ j, Evm.destination? code w = some j →
          ∃ m, p.StartsAt m j ∧ p.graph.Links p.sentinels.jumpTable m .dynamic
  | .halt => p.graph.Links n p.sentinels.terminator .static
  | .stuck => True

end Statement

/-! ## Requirements -/

/-- Branches go to known symbols, and a branch to a constant stands for a jump that the code is
forced to make. -/
def TargetsForced (t : SymbolTable) (instructions : List Instruction) (code : List Located) :
    Prop :=
  ∀ i ∈ instructions, ∀ target, i.branchTarget? = some target →
    t.Knows target ∧ ∀ w, t.IsConstant target w → Evm.Forces code w

/-- The edges and the code of a block that covers the instructions from `a` to `z`. -/
structure Flows (p : Program) (code : List Located) (n : NodeId) (b : BasicBlock) (a z : Nat) :
    Prop where
  span : b.opcodes = ⟨a, z⟩
  le : a ≤ z
  bound : z ≤ code.length
  nonempty : a < code.length → a < z
  inner : ∀ i x, a ≤ i → i + 1 < z → code[i]? = some x → x.instr.op.isBlockEnd = false
  jump : ∀ i x, a ≤ i → i + 1 = z → code[i]? = some x →
    x.instr.op = .jump ∨ x.instr.op = .jumpi → p.graph.Links n p.sentinels.jumpTable .dynamic ∨
      ∃ w m, Evm.Forces (code.extract a z) w ∧ p.LeadsTo code w m ∧ p.graph.Links n m .static
  next : ∀ i x, a ≤ i → i + 1 = z → code[i]? = some x →
    x.instr.op = .jumpi ∨ x.instr.op.isBlockEnd = false ∧ z < code.length →
      ∃ m, p.StartsAt m z ∧ p.graph.Links n m .static
  halt : ∀ i x, a ≤ i → i + 1 = z → code[i]? = some x → x.instr.op.isTerminator = true →
    p.graph.Links n p.sentinels.terminator .static
  branch : TargetsForced p.symbols b.instructions (code.extract a z)

/-- A program whose graph follows the control of the code. The jump table is complete as long as a
block uses it. -/
structure Tracks (p : Program) (code : List Located) : Prop where
  instrs : p.code = code.toArray
  graph : p.graph.Incident
  symbols : p.symbols.Consistent
  entry : ∃ m, p.StartsAt m 0 ∧ p.graph.Links p.sentinels.start m .static
  block : ∀ n b, p.graph.label? n = some b → p.isSentinel n = false → ∃ a z, p.Flows code n b a z
  disjoint : ∀ n m i, p.Covers n i → p.Covers m i → n = m
  table : ∀ n, p.isSentinel n = false → p.graph.Links n p.sentinels.jumpTable .dynamic →
    ∀ j x, code[j]? = some x → x.instr.op = .jumpdest →
      ∃ m, p.StartsAt m j ∧ p.graph.Links p.sentinels.jumpTable m .dynamic ∧
        p.jumpTargets[(x.offset : Int)]? = some m
  targets : ∀ k m, p.jumpTargets[k]? = some m →
    ∃ x ∈ code, x.instr.op = .jumpdest ∧ (x.offset : Int) = k

theorem Flows.eq_of_span {p : Program} {code : List Located} {n : NodeId} {b : BasicBlock}
    {a z a' z' : Nat} (h : p.Flows code n b a z) (hb : b.opcodes = ⟨a', z'⟩) : a = a' ∧ z = z' := by
  have hspan := h.span.symm.trans hb
  injection hspan with ha hz
  exact ⟨Int.ofNat.inj ha, Int.ofNat.inj hz⟩

theorem Tracks.flows_of_startsAt {p : Program} {code : List Located} (h : p.Tracks code)
    {n : NodeId} {j : Nat} (hn : p.StartsAt n j) :
    ∃ b z, p.graph.label? n = some b ∧ p.isSentinel n = false ∧ p.Flows code n b j z := by
  obtain ⟨b, hb, hreal, hstart⟩ := hn
  obtain ⟨a, z, hflows⟩ := h.block n b hb hreal
  rw [hflows.span] at hstart
  obtain rfl : a = j := Int.ofNat.inj hstart
  exact ⟨b, z, hb, hreal, hflows⟩

theorem contains_span {a z i : Nat} : Span.contains ⟨a, z⟩ i = true ↔ a ≤ i ∧ i < z := by
  unfold Span.contains
  rw [Bool.and_eq_true, decide_eq_true_eq, decide_eq_true_eq, Int.ofNat_le, Int.ofNat_lt]

/-! ## Runs -/

section Runs

variable {p : Program} {code : List Located} {σ : Type} {I : Environment σ}

/-- A point of a run lies in the block at a node, which the run entered at its first instruction. -/
structure Inside (p : Program) (code : List Located) (I : Environment σ) (c : Evm.Config σ)
    (n : NodeId) (b : BasicBlock) (a z : Nat) : Prop where
  label : p.graph.label? n = some b
  real : p.isSentinel n = false
  flows : p.Flows code n b a z
  le : a ≤ c.index
  lt : c.index < z
  entered : ∃ e₀ t, e₀.trace = [] ∧
    Evm.run I (code.extract a c.index) e₀ = some { c.state with trace := t }

theorem extract_concat {code : List Located} {a i : Nat} {x : Located} (hai : a ≤ i)
    (hx : code[i]? = some x) : code.extract a (i + 1) = code.extract a i ++ [x] := by
  have hget : (code.drop a)[i - a]? = some x := by
    rw [List.getElem?_drop, Nat.add_sub_cancel' hai, hx]
  rw [List.extract_eq_take_drop, List.extract_eq_take_drop, Nat.succ_sub hai, List.take_add_one,
    hget]
  rfl

theorem mem_extract {code : List Located} {a z : Nat} {x : Located} (h : x ∈ code.extract a z) :
    ∃ i, a ≤ i ∧ i < z ∧ code[i]? = some x := by
  rw [List.extract_eq_take_drop] at h
  obtain ⟨k, hk⟩ := List.getElem?_of_mem h
  rw [List.getElem?_take, List.getElem?_drop] at hk
  split at hk
  · exact ⟨a + k, by omega, by omega, hk⟩
  · cases hk

theorem Tracks.exists_inside (h : p.Tracks code) {n : NodeId} {j : Nat} (hn : p.StartsAt n j)
    (hj : j < code.length) (e : Evm.State σ) : ∃ n b a z, p.Inside code I ⟨j, e⟩ n b a z := by
  obtain ⟨b, z, hb, hreal, hflows⟩ := h.flows_of_startsAt hn
  refine ⟨n, b, j, z, hb, hreal, hflows, Nat.le_refl j, hflows.nonempty hj, ?_⟩
  refine ⟨{ e with trace := [] }, [], rfl, ?_⟩
  simp [Evm.run]

theorem Inside.covers {c : Evm.Config σ} {n : NodeId} {b : BasicBlock} {a z i : Nat}
    (h : p.Inside code I c n b a z) (ha : a ≤ i) (hz : i < z) : p.Covers n i := by
  refine ⟨b, h.label, h.real, ?_⟩
  rw [h.flows.span]
  exact contains_span.mpr ⟨ha, hz⟩

section Carries

variable {c : Evm.Config σ} {n : NodeId} {b : BasicBlock} {a z : Nat} {x : Located}
  {e : Evm.State σ}

/-- A block end is the last instruction of its block. -/
theorem Inside.eq_of_isBlockEnd (h : p.Inside code I c n b a z) (hx : code[c.index]? = some x)
    (hend : x.instr.op.isBlockEnd = true) : c.index + 1 = z := by
  by_contra hne
  have hlt := h.lt
  rw [h.flows.inner c.index x h.le (by omega) hx] at hend
  cases hend

/-- A jump that is taken is represented. If the block has a static edge for it, the target was
known, and the word on the stack is that target. -/
theorem Inside.carries_jump (ht : p.Tracks code) (h : p.Inside code I c n b a z)
    (hx : code[c.index]? = some x) (hstep : Evm.step I x c.state = some e)
    (hop : x.instr.op = .jump ∨ x.instr.op = .jumpi) :
    p.Carries code n c.index (.jump (c.state.stack.headD 0)) := by
  have hz := h.eq_of_isBlockEnd hx (Evm.isBlockEnd_iff.mpr (.inl hop))
  rcases h.flows.jump c.index x h.le hz hx hop with hdyn | ⟨w, m, hforces, hleads, hlink⟩
  · refine .inr ⟨hdyn, fun j hj => ?_⟩
    obtain ⟨y, hy, hdest, -⟩ := Evm.exists_of_destination? hj
    obtain ⟨m, hm, hlink, -⟩ := ht.table n h.real hdyn j y hy hdest
    exact ⟨m, hm, hlink⟩
  · rw [← hz, extract_concat h.le hx] at hforces
    obtain ⟨e₀, t, h₀, hrun⟩ := h.entered
    obtain ⟨events, -, hany, -⟩ := Evm.exists_step_events I hstep
    have hinner : ∀ y ∈ code.extract a c.index, y.instr.op.isBlockEnd = false := by
      intro y hy
      obtain ⟨i, hai, hi, hyi⟩ := mem_extract hy
      exact h.flows.inner i y hai (by omega) hyi
    obtain rfl := hforces.eq_head hinner h₀ hrun (hany t)
    exact .inl ⟨m, hleads, hlink⟩

/-- **Every transfer of control is represented**: control stays in the block, reaches the end of the
code, or leaves the block along edges of the graph. -/
theorem Inside.carries (ht : p.Tracks code) (h : p.Inside code I c n b a z)
    (hx : code[c.index]? = some x) (hstep : Evm.step I x c.state = some e) :
    Evm.exit x.instr.op c.state.stack = .next ∧ x.instr.op ≠ .jumpi ∧
        (c.index + 1 < z ∨ c.index + 1 = code.length) ∨
      p.Carries code n c.index (Evm.exit x.instr.op c.state.stack) := by
  have hlt := h.lt
  have hbound := h.flows.bound
  unfold Evm.exit
  split
  · next hop => exact .inr (h.carries_jump ht hx hstep (.inl hop))
  · next hop =>
    have hz := h.eq_of_isBlockEnd hx (by rw [hop]; rfl)
    split
    · right
      change ∃ m, p.StartsAt m (c.index + 1) ∧ _
      rw [hz]
      exact h.flows.next c.index x h.le hz hx (.inl hop)
    · exact .inr (h.carries_jump ht hx hstep (.inr hop))
  · exact .inr trivial
  · next hjump hjumpi _ =>
    split
    · next hterm =>
      have hend := Evm.isBlockEnd_iff.mpr (.inr hterm)
      exact .inr (h.flows.halt c.index x h.le (h.eq_of_isBlockEnd hx hend) hx hterm)
    · next hterm =>
      by_cases hin : c.index + 1 < z ∨ c.index + 1 = code.length
      · exact .inl ⟨rfl, hjumpi, hin⟩
      · right
        have hz : c.index + 1 = z := by omega
        have hend : x.instr.op.isBlockEnd = false := by
          rw [Bool.eq_false_iff, ne_eq, Evm.isBlockEnd_iff]
          exact not_or.mpr ⟨not_or.mpr ⟨hjump, hjumpi⟩, hterm⟩
        change ∃ m, p.StartsAt m (c.index + 1) ∧ _
        rw [hz]
        exact h.flows.next c.index x h.le hz hx (.inr ⟨hend, by omega⟩)

end Carries

/-- Every point of a run that is not the end of the code lies inside a block. -/
theorem Tracks.exists_inside_of_reaches (ht : p.Tracks code) {env : σ} {c : Evm.Config σ}
    (h : Evm.Reaches I code ⟨0, ⟨[], env, []⟩⟩ c) (hc : c.index < code.length) :
    ∃ n b a z, p.Inside code I c n b a z := by
  induction h with
  | start =>
    obtain ⟨m, hm, -⟩ := ht.entry
    exact ht.exists_inside hm hc _
  | @advance c c' _ hadv ih =>
    obtain ⟨x, e, hx, hstep, hstate, hexit⟩ := Evm.exists_of_advance hadv
    obtain ⟨n, b, a, z, hin⟩ := ih (List.getElem?_eq_some_iff.mp hx).1
    obtain ⟨j, e'⟩ := c'
    cases hstate
    rcases hin.carries ht hx hstep with ⟨hnext, -, hstay⟩ | hcarries
    · -- Control goes on inside the block, or ends with the code.
      rcases hexit with ⟨-, hj⟩ | ⟨w, hjump, -⟩
      · dsimp only at hj hc
        subst hj
        obtain ⟨e₀, t, h₀, hrun⟩ := hin.entered
        obtain ⟨events, -, hany, -⟩ := Evm.exists_step_events I hstep
        refine ⟨n, b, a, z, hin.label, hin.real, hin.flows, Nat.le_succ_of_le hin.le,
          by dsimp only; omega, e₀, t ++ events, h₀, ?_⟩
        dsimp only
        rw [extract_concat hin.le hx, Evm.run_append, hrun]
        simp [Evm.run, hany]
      · rw [hnext] at hjump
        cases hjump
    · -- Control enters another block at its first instruction.
      rcases hexit with ⟨hnext, hj⟩ | ⟨w, hjump, hj⟩
      · rw [hnext] at hcarries
        obtain ⟨m, hm, -⟩ := hcarries
        dsimp only at hj
        subst hj
        exact ht.exists_inside hm hc _
      · rw [hjump] at hcarries
        rcases hcarries with ⟨m, hm, -⟩ | ⟨-, htable⟩
        · rw [LeadsTo, hj] at hm
          exact ht.exists_inside hm hc _
        · obtain ⟨m, hm, -⟩ := htable j hj
          exact ht.exists_inside hm hc _

/-- In every run of the code from its first instruction on an empty stack: each instruction that
control reaches lies in one live block, and whenever it is carried out, control stays in that block,
ends with the code, or leaves the block in a way that edges represent. -/
def FollowsControl (p : Program) (code : List Located) : Prop :=
  ∀ {σ : Type} (I : Environment σ) (env : σ) (c : Evm.Config σ),
    Evm.Reaches I code ⟨0, ⟨[], env, []⟩⟩ c → ∀ x, code[c.index]? = some x →
      ∃ n, p.Covers n c.index ∧ (∀ m, p.Covers m c.index → m = n) ∧
        ∀ e, Evm.step I x c.state = some e →
          Evm.exit x.instr.op c.state.stack = .next ∧ x.instr.op ≠ .jumpi ∧
              (p.Covers n (c.index + 1) ∨ c.index + 1 = code.length) ∨
            p.Carries code n c.index (Evm.exit x.instr.op c.state.stack)

/-- **A program that tracks its code represents every transfer of control.** -/
theorem Tracks.followsControl (ht : p.Tracks code) : p.FollowsControl code := by
  intro σ I env c hc x hx
  obtain ⟨n, b, a, z, hin⟩ :=
    ht.exists_inside_of_reaches hc (List.getElem?_eq_some_iff.mp hx).1
  have hcovers := hin.covers hin.le hin.lt
  refine ⟨n, hcovers, fun m hm => ht.disjoint m n c.index hm hcovers, fun e hstep => ?_⟩
  rcases hin.carries ht hx hstep with ⟨hnext, hop, hstay⟩ | hcarries
  · refine .inl ⟨hnext, hop, hstay.imp_left fun hlt => ?_⟩
    exact hin.covers (Nat.le_succ_of_le hin.le) hlt
  · exact .inr hcarries

end Runs

end EvmFlow.Program
