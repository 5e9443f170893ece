import EvmFlow.Proofs.ConstantStack

/-!
# Control of the stack machine

Runs of whole code: control goes on with the next instruction, jumps to a jump destination, or
ends.

* `Evm.Exit`, `Evm.exit`: how control goes on behind an instruction;
* `Evm.destination?`: the index of the jump destination at an offset;
* `Evm.Config`, `Evm.advance`, `Evm.Reaches`: points of a run, one step, and all that a run reaches;
* `Evm.Forces`: straight-line code always jumps to one and the same word, and
  **`Evm.Forces.eq_head`**: that word is the one on the stack.
-/

namespace EvmFlow.Evm

variable {σ : Type}

/-! ## Steps of control -/

/-- How control goes on behind an instruction: with the next one, at the jump destination that a
word names, or not at all, by intention or because the opcode is none. -/
inductive Exit where
  | next
  | jump (w : Word)
  | halt
  | stuck
deriving DecidableEq

/-- How control goes on behind an opcode, by the stack in front of it. -/
def exit (op : Opcode) (stack : List Word) : Exit :=
  match op with
  | .jump => .jump (stack.headD 0)
  | .jumpi => if stack.getD 1 0 = 0 then .next else .jump (stack.headD 0)
  | .undefined _ _ => .stuck
  | op => if op.isTerminator then .halt else .next

/-- The index of the jump destination that a word names. -/
def destination? (code : List Located) (w : Word) : Option Nat :=
  code.findIdx? fun x => x.instr.op = .jumpdest ∧ x.offset = w.toNat

/-- A point of a run: the index of the instruction that comes next, and the state in front of it. -/
structure Config (σ : Type) where
  index : Nat
  state : State σ

/-- One step of a run. There is none at the end of the code, on a stack that is too short, behind
the end of the execution and to a place that is no jump destination. -/
def advance (I : Environment σ) (code : List Located) (c : Config σ) : Option (Config σ) :=
  code[c.index]?.bind fun x => (step I x c.state).bind fun e =>
    match exit x.instr.op c.state.stack with
    | .next => some ⟨c.index + 1, e⟩
    | .jump w => (destination? code w).map fun j => ⟨j, e⟩
    | .halt | .stuck => none

/-- The points of the run from `c₀`. -/
inductive Reaches (I : Environment σ) (code : List Located) (c₀ : Config σ) : Config σ → Prop where
  | start : Reaches I code c₀ c₀
  | advance {c c' : Config σ} :
    Reaches I code c₀ c → Evm.advance I code c = some c' → Reaches I code c₀ c'

theorem exists_of_destination? {code : List Located} {w : Word} {j : Nat}
    (h : destination? code w = some j) :
    ∃ x, code[j]? = some x ∧ x.instr.op = .jumpdest ∧ x.offset = w.toNat := by
  obtain ⟨hj, hx, -⟩ := List.findIdx?_eq_some_iff_getElem.mp h
  obtain ⟨hop, hoffset⟩ := of_decide_eq_true hx
  exact ⟨code[j], List.getElem?_eq_getElem hj, hop, hoffset⟩

theorem destination?_ne_none {code : List Located} {w : Word} {x : Located} (hx : x ∈ code)
    (hop : x.instr.op = .jumpdest) (hoffset : x.offset = w.toNat) : destination? code w ≠ none := by
  intro h
  have := List.findIdx?_eq_none_iff.mp h x hx
  simp [hop, hoffset] at this

theorem exists_of_advance {I : Environment σ} {code : List Located} {c c' : Config σ}
    (h : advance I code c = some c') :
    ∃ x e, code[c.index]? = some x ∧ step I x c.state = some e ∧ c'.state = e ∧
      (exit x.instr.op c.state.stack = .next ∧ c'.index = c.index + 1 ∨
        ∃ w, exit x.instr.op c.state.stack = .jump w ∧ destination? code w = some c'.index) := by
  obtain ⟨x, hx, h⟩ := Option.bind_eq_some_iff.mp h
  obtain ⟨e, he, h⟩ := Option.bind_eq_some_iff.mp h
  refine ⟨x, e, hx, he, ?_⟩
  split at h
  · next hexit =>
    cases h
    exact ⟨rfl, .inl ⟨hexit, rfl⟩⟩
  · next w hexit =>
    obtain ⟨j, hj, rfl⟩ := Option.map_eq_some_iff.mp h
    exact ⟨rfl, .inr ⟨w, hexit, hj⟩⟩
  · cases h
  · cases h

/-! ## The target of a jump -/

theorem Event.eq_of_target? {event : Event} {w : Word} (h : event.target? = some w) :
    event = ⟨.branch, [w]⟩ ∨ ∃ c, event = ⟨.condBranch, [c, w]⟩ := by
  unfold Event.target? at h
  split at h
  · cases h
    exact .inl rfl
  · cases h
    exact .inr ⟨_, rfl⟩
  · cases h

/-- Only jumps have a target, and take it from the top of the stack. -/
theorem target?_of_mem_events {I : Environment σ} {i : Located} {l : Lowering} {args : List Word}
    {env : σ} {event : Event} {w : Word} (h : event ∈ (l.effect I i args env).events)
    (ht : event.target? = some w) : (l = .jump ∨ l = .jumpIf) ∧ args.head? = some w := by
  rcases Event.eq_of_target? ht with rfl | ⟨c, rfl⟩
  · cases l with
    | jump =>
      cases List.mem_singleton.mp h
      exact ⟨.inl rfl, rfl⟩
    | _ => simp [Lowering.effect, Effect.pure, Effect.request, Effect.query] at h
  · cases l with
    | jumpIf =>
      have hargs : args.reverse = [c, w] := by
        have := List.mem_singleton.mp h
        injection this with _ hargs
        exact hargs.symm
      rw [← List.reverse_reverse args, hargs]
      exact ⟨.inr rfl, rfl⟩
    | _ => simp [Lowering.effect, Effect.pure, Effect.request, Effect.query] at h

theorem isBlockEnd_iff {op : Opcode} :
    op.isBlockEnd = true ↔ (op = .jump ∨ op = .jumpi) ∨ op.isTerminator = true := by
  unfold Opcode.isBlockEnd
  split <;> simp_all

theorem isBlockEnd_of_lowering? {op : Opcode} {l : Lowering} (h : op.lowering? = some l)
    (hl : l = .jump ∨ l = .jumpIf) : op.isBlockEnd = true := by
  cases op with
  | jump | jumpi => rfl
  | _ => rcases hl with rfl | rfl <;> cases h

/-- What an instruction asks for is added to the trace, which otherwise has no part in the step. -/
theorem exists_step_events (I : Environment σ) {i : Located} {e e' : State σ}
    (h : step I i e = some e') : ∃ events, e'.trace = e.trace ++ events ∧
      (∀ t, step I i { e with trace := t } = some { e' with trace := t ++ events }) ∧
      ∀ event ∈ events, ∀ w, event.target? = some w →
        i.instr.op.isBlockEnd = true ∧ w = e.stack.headD 0 := by
  have hle := (length_step I h).1
  rw [step_of_le I hle] at h
  cases h
  refine ⟨_, rfl, fun t => step_of_le I (e := { e with trace := t }) hle, fun event hmem w hw => ?_⟩
  cases hl : i.instr.op.lowering? with
  | none =>
    have hstep := step_of_no_lowering I hl e
    rw [step_of_le I hle] at hstep
    have htrace := congrArg State.trace (Option.some.inj hstep)
    rw [List.append_right_eq_self.mp htrace] at hmem
    cases hmem
  | some l =>
    rw [Lowering.effect_eq I hl (List.length_take_of_le hle)] at hmem
    obtain ⟨hjump, hhead⟩ := target?_of_mem_events hmem hw
    refine ⟨isBlockEnd_of_lowering? hl hjump, ?_⟩
    cases hs : e.stack with
    | nil => simp [hs] at hhead
    | cons v rest =>
      have hpos : i.instr.op.inputs ≠ 0 := by
        intro hzero
        simp [hzero] at hhead
      obtain ⟨n, hn⟩ := Nat.exists_eq_succ_of_ne_zero hpos
      rw [hs, hn] at hhead
      exact (Option.some.inj hhead).symm

/-- Every run of the code jumps to the word `w`. -/
def Forces (code : List Located) (w : Word) : Prop :=
  ∀ {σ : Type} (I : Environment σ) {e e' : State σ}, run I code e = some e' →
    ∃ event ∈ e'.trace, event.target? = some w

theorem target?_eq_none_of_run (I : Environment σ) {code : List Located}
    (hcode : ∀ x ∈ code, x.instr.op.isBlockEnd = false) {e e' : State σ}
    (h : run I code e = some e') (he : e.trace = []) :
    ∀ event ∈ e'.trace, event.target? = none := by
  suffices hall : ∀ {e : State σ}, run I code e = some e' →
      (∀ event ∈ e.trace, event.target? = none) → ∀ event ∈ e'.trace, event.target? = none from
    hall h (by rw [he]; simp)
  clear h he e
  induction code with
  | nil =>
    intro e h he
    cases h
    exact he
  | cons x rest ih =>
    intro e h he
    obtain ⟨e₁, hstep, hrest⟩ := Option.bind_eq_some_iff.mp h
    refine ih (fun y hy => hcode y (List.mem_cons_of_mem _ hy)) hrest fun event hmem => ?_
    obtain ⟨events, htrace, -, htarget⟩ := exists_step_events I hstep
    rw [htrace] at hmem
    rcases List.mem_append.mp hmem with hmem | hmem
    · exact he event hmem
    · rw [Option.eq_none_iff_forall_ne_some]
      intro w hw
      have hend := (htarget event hmem w hw).1
      rw [hcode x List.mem_cons_self] at hend
      cases hend

/-- **A word that code is forced to jump to is the word on the stack** in front of its last
instruction, if there is no other jump. -/
theorem Forces.eq_head {I : Environment σ} {code : List Located} {x : Located} {w : Word}
    (h : Forces (code ++ [x]) w) (hcode : ∀ y ∈ code, y.instr.op.isBlockEnd = false)
    {e₀ e e' : State σ} (h₀ : e₀.trace = []) (hrun : run I code e₀ = some e)
    (hstep : step I x e = some e') : w = e.stack.headD 0 := by
  have hall : run I (code ++ [x]) e₀ = some e' := by
    rw [run_append, hrun]
    simp [run, hstep]
  obtain ⟨event, hmem, hw⟩ := h I hall
  obtain ⟨events, htrace, -, htarget⟩ := exists_step_events I hstep
  rw [htrace] at hmem
  rcases List.mem_append.mp hmem with hmem | hmem
  · rw [target?_eq_none_of_run I hcode hrun h₀ event hmem] at hw
    cases hw
  · exact (htarget event hmem w hw).2

end EvmFlow.Evm
