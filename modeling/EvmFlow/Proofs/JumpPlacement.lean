import EvmFlow.Proofs.PassSuccess

/-!
# Jumps end the code of blocks

Among the opcodes of a block only the last can be a jump, and only jumps are lowered to branches. So
a branch in lifted code is its last instruction, and stays the last one when others are removed.

* `LiftedStack.pairwise_of_liftAll`: the branches of lifted code;
* `Program.JumpsLast`, `Program.JumpsLast.step`: the blocks of a program, which every step keeps so;
* `Program.constantTarget?_of_sublist`: lifted code gets no jump to a constant by removals.
-/

namespace EvmFlow

open Stateful

/-! ## Lifted code -/

namespace Lifted

variable {s s' : LiftedStack}

/-- No instruction so far is a branch. -/
def Straight (s : LiftedStack) : Prop := ∀ i ∈ s.out, i.branchTarget? = none

theorem Adds.straight (h : Adds (fun i => i.branchTarget? = none) s s') (hs : Straight s) :
    Straight s' := fun i hi => (h.code i hi).elim (hs i) id

theorem Straight.pairwise (hs : Straight s) :
    s.out.toList.Pairwise fun i _ => i.branchTarget? = none :=
  List.pairwise_of_forall_mem_list fun i hi _ _ => hs i (Array.mem_toList_iff.mp hi)

theorem Straight.pairwise_push (hs : Straight s) (i : Instruction) :
    (s.out.push i).toList.Pairwise fun i _ => i.branchTarget? = none := by
  rw [Array.toList_push, List.pairwise_append]
  refine ⟨hs.pairwise, List.pairwise_singleton _ _, fun j hj _ _ => ?_⟩
  exact hs j (Array.mem_toList_iff.mp hj)

theorem straight_pop {x : SymbolRef} (h : Yields pop s x s') (hs : Straight s) : Straight s' :=
  ((Balances.pop (Q := fun i => i.branchTarget? = none)) _ _ _ h).1.straight hs

theorem straight_lowerInstr {x : Located} (hjump : x.instr.op ≠ .jump)
    (hjumpi : x.instr.op ≠ .jumpi) {known : Bool}
    (h : Yields (lowerInstr x : Lifted Bool) s known s') (hs : Straight s) : Straight s' :=
  ((Balances.closedInner fun _ hi => hi).lowerInstr hjump hjumpi _ _ _ h).1.straight hs

/-- Behind code without branches, an instruction gives at most one branch, at the end. -/
theorem pairwise_lowerInstr {x : Located} {known : Bool}
    (h : Yields (lowerInstr x : Lifted Bool) s known s') (hs : Straight s) :
    s'.out.toList.Pairwise fun i _ => i.branchTarget? = none := by
  by_cases hjump : x.instr.op = .jump
  · unfold lowerInstr at h
    rw [hjump] at h
    obtain ⟨_, s₁, hlower, h⟩ := exists_of_yields_bind h
    cases h
    obtain ⟨target, s₂, hpop, hemit⟩ := exists_of_yields_bind hlower
    cases hemit
    exact (straight_pop hpop hs).pairwise_push _
  · by_cases hjumpi : x.instr.op = .jumpi
    · unfold lowerInstr at h
      rw [hjumpi] at h
      obtain ⟨_, s₁, hlower, h⟩ := exists_of_yields_bind h
      cases h
      obtain ⟨target, s₂, hpop, hlower⟩ := exists_of_yields_bind hlower
      obtain ⟨condition, s₃, hpop', hemit⟩ := exists_of_yields_bind hlower
      cases hemit
      exact (straight_pop hpop' (straight_pop hpop hs)).pairwise_push _
    · exact (straight_lowerInstr hjump hjumpi h hs).pairwise

theorem pairwise_lowerCode {code gaps : List Located}
    (hcode : code.Pairwise fun x _ => x.instr.op.isBlockEnd = false)
    (h : Yields (lowerCode code : Lifted (List Located)) s gaps s') (hs : Straight s) :
    s'.out.toList.Pairwise fun i _ => i.branchTarget? = none := by
  induction code generalizing s gaps with
  | nil =>
    cases h
    exact hs.pairwise
  | cons x rest ih =>
    obtain ⟨hx, hrest⟩ := List.pairwise_cons.mp hcode
    obtain ⟨known, s₁, hinstr, h⟩ := exists_of_yields_bind h
    obtain ⟨gaps', s₂, hlower, h⟩ := exists_of_yields_bind h
    cases h
    cases rest with
    | nil =>
      cases hlower
      exact pairwise_lowerInstr hinstr hs
    | cons y rest =>
      -- A jump has nothing behind it.
      have hend := hx y List.mem_cons_self
      refine ih hrest hlower (straight_lowerInstr ?_ ?_ hinstr hs)
      · intro hjump
        rw [hjump] at hend
        cases hend
      · intro hjumpi
        rw [hjumpi] at hend
        cases hend

end Lifted

theorem LiftedStack.pairwise_of_liftAll {t : SymbolTable} {n : NodeId} {ops : List Located}
    {s : LiftedStack} (h : liftAll t n ops = .ok s)
    (hops : ops.Pairwise fun x _ => x.instr.op.isBlockEnd = false) :
    s.out.toList.Pairwise fun i _ => i.branchTarget? = none := by
  obtain ⟨gaps, hyields⟩ := liftAll_eq_ok.mp h
  exact Lifted.pairwise_lowerCode hops hyields fun i hi => by cases Array.mem_toList_iff.mpr hi

/-! ## Programs -/

namespace Program

variable {p q : Program}

/-- Only the last opcode of a block can end it, and only the last instruction of a lifted block can
be a branch. -/
structure JumpsLast (p : Program) : Prop where
  opcodes : ∀ n ops, p.isSentinel n = false → p.opcodes n = .ok ops →
    ops.Pairwise fun x _ => x.instr.op.isBlockEnd = false
  code : ∀ n b, p.graph.label? n = some b → b.lifted = true →
    b.instructions.Pairwise fun i _ => i.branchTarget? = none

/-- **Every step keeps jumps last.** -/
theorem JumpsLast.step (h : p.JumpsLast) (hstep : Step p q) : q.JumpsLast where
  opcodes n ops hreal hops := by
    rw [hstep.isSentinel] at hreal
    obtain ⟨b', hb', -⟩ := bind_eq_ok.mp hops
    have hb' := Graph.label_eq_ok.mp hb'
    obtain ⟨b, hb, hrecoded⟩ := hstep.label? hb'
    exact h.opcodes n ops hreal
      (opcodes_congr hb' hb hrecoded.opcodes.symm hstep.code.symm hops)
  code n b' hb' hlifted := by
    obtain ⟨b, hb, hrecoded⟩ := hstep.label? hb'
    cases hrecoded with
    | same => exact h.code n _ hb hlifted
    | trim _ hkept => exact (h.code n b hb hlifted).sublist hkept.sublist
    | lower _ flat =>
      rw [flat] at hlifted
      cases hlifted
    | lift real _ hops hs => exact LiftedStack.pairwise_of_liftAll hs (h.opcodes n _ real hops)

/-- A new program has no lifted blocks. -/
theorem jumpsLast_ofInstrs (instrs : List Instr) : (ofInstrs instrs).JumpsLast where
  opcodes n ops hreal hops := by
    have htracks := tracks_ofInstrs instrs
    obtain ⟨b, hb, -⟩ := bind_eq_ok.mp hops
    have hb := Graph.label_eq_ok.mp hb
    obtain ⟨a, z, hflows⟩ := htracks.block n b hb hreal
    rw [htracks.opcodes_eq hb hflows] at hops
    cases hops
    rw [List.pairwise_iff_getElem]
    intro i j hi hj hij
    have hlength : j < z - a := by
      rw [List.extract_eq_take_drop, List.length_take] at hj
      omega
    have hget : (locate 0 instrs)[a + i]? = some ((locate 0 instrs).extract a z)[i] := by
      rw [← List.getElem?_eq_getElem hi, List.extract_eq_take_drop,
        List.getElem?_take_of_lt (by omega), List.getElem?_drop]
    exact hflows.inner (a + i) _ (Nat.le_add_right a i) (by omega) hget
  code n b hb hlifted := by
    rw [label?_ofInstrs hb] at hlifted
    cases hlifted

/-- If only the last member can fail to have a property, then one that does is the last. -/
theorem getLast?_of_pairwise {α : Type} {P : α → Prop} {l : List α} (h : l.Pairwise fun x _ => P x)
    {x : α} (hx : x ∈ l) (hnot : ¬ P x) : l.getLast? = some x := by
  obtain ⟨before, after, rfl⟩ := List.append_of_mem hx
  cases after with
  | nil => simp
  | cons y after =>
    have hrest := List.pairwise_cons.mp (List.pairwise_append.mp h).2.1
    exact absurd (hrest.1 y List.mem_cons_self) hnot

theorem getLast?_of_branchTarget? {code : List Instruction}
    (h : code.Pairwise fun i _ => i.branchTarget? = none) {i : Instruction} (hi : i ∈ code)
    {x : SymbolRef} (hx : i.branchTarget? = some x) : code.getLast? = some i :=
  getLast?_of_pairwise h hi (by simp [hx])

/-- A branch that is left in lifted code was its last instruction before. -/
theorem constantTarget?_of_sublist {b : BasicBlock} {kept : List Instruction} {w : Word}
    (hb : b.instructions.Pairwise fun i _ => i.branchTarget? = none)
    (hkept : kept.Sublist b.instructions)
    (h : p.constantTarget? { b with instructions := kept } = .ok (some w)) :
    p.constantTarget? b = .ok (some w) := by
  rw [constantTarget?_eq_some] at h ⊢
  obtain ⟨i, target, hi, htarget, hw⟩ := h
  have hmem := hkept.subset (List.mem_of_getLast? hi)
  exact ⟨i, target, getLast?_of_branchTarget? hb hmem htarget, htarget, hw⟩

end Program

end EvmFlow
