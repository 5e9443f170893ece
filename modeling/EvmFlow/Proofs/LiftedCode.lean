import EvmFlow.Proofs.ConstantStack
import EvmFlow.Proofs.FlatSimulation
import EvmFlow.Proofs.LiftedSimulation

/-!
# Lifted code agrees with flat code

Flat code and lifted code of the same instructions both follow the stack machine, so they agree with
each other: on the requests to the environment, on jumps, and on the stack they leave. Lifted code
reads the stack it is entered with through symbols, one for each slot, and slots have 32 bits; so
the agreement ends where instructions reach more than `2 ^ 32` entries.

* `StackInfo.exitStack`: the stack that a block leaves, by its summary;
* `LiftedStack.Entry`: the values of symbols at the entry of a block;
* `LiftedStack.AgreesWithFlat`: the agreement, on one entry stack;
* **`LiftedStack.agreesWithFlat`**: the agreement on `2 ^ 32` entries;
* **`LiftedStack.not_agreesWithFlat_of_many_logs`**: its failure beyond.
-/

namespace EvmFlow

variable {σ : Type}

/-! ## Entry and exit -/

/-- The stack that a block leaves: the values it generates on top of the stack below, without the
arguments it takes. -/
def StackInfo.exitStack (info : StackInfo) (values : SymbolRef → Word) (below : List Word) :
    List Word := info.generates.reverse.map values ++ below.drop info.arguments.toNat

namespace LiftedStack

/-- At the entry of a block, constants have their values and the symbols of entries hold the
entries. -/
structure Entry (s : LiftedStack) (t : SymbolTable) (m : Machine σ) (entry : List Word) : Prop where
  constant : ∀ {ref w}, t.IsConstant ref w → m.values ref = w
  argument : ∀ {k ref w}, s.argumentAt? k = some ref → entry[k]? = some w → m.values ref = w

/-- Lifted code of the instructions exists, with a summary that adds up, and takes any machine that
is entered with the given stack to where flat code takes it: flat code ends with the stack that the
summary describes, and the environment has been asked for the same. -/
def AgreesWithFlat (I : Environment σ) (t u : SymbolTable) (scope : Scope) (node : NodeId)
    (code : List Located) (entry : List Word) : Prop :=
  ∃ lifted info, liftAll u node code = .ok lifted ∧ lifted.summary = .ok info ∧
    ∀ {t' u' : SymbolTable} {m : Machine (StackArray × σ)} {n : Machine σ},
      (FlatStack.lowerAll t scope code).2.symbols.Grows t' → t'.Consistent →
      lifted.symbols.Grows u' → u'.Consistent →
      Represents t' m ⟨entry, n.env, n.trace⟩ → lifted.Entry u' n entry →
      let flatEnd := m.run I.withStack t' (FlatStack.lowerAll t scope code).2.out.toList
      let liftedEnd := n.run I u' lifted.out.toList
      Represents t' flatEnd
        ⟨info.exitStack liftedEnd.values (lifted.view liftedEnd.values entry), liftedEnd.env,
          liftedEnd.trace⟩

theorem view_append (s : LiftedStack) (values : SymbolRef → Word) {entry below : List Word}
    (h : 2 ^ 32 ≤ entry.length ∨ below = []) :
    s.view values (entry ++ below) = s.view values entry ++ below := by
  rcases h with h | rfl
  · have hbelow : below.mapIdx (fun k w => ((s.argumentAt? (k + entry.length)).map values).getD w) =
        below := by
      refine List.ext_getElem? fun k => ?_
      have hnone : s.argumentAt? (k + entry.length) = none := if_neg (by omega)
      simp [hnone]
    rw [view, List.mapIdx_append, hbelow]
    rfl
  · simp

end LiftedStack

theorem LiftedRun.Agrees.stack_eq {r : LiftedRun σ} {s : LiftedStack} {e : Evm.State σ}
    {m : Machine σ} (ha : r.Agrees s e m) :
    e.stack = s.stack.map m.values ++ (s.view m.values r.entry).drop s.borrows := by
  refine List.ext_getElem? fun i => ?_
  rw [ha.stack]
  cases hi : s.stack[i]? with
  | some ref =>
    have hlt := (List.getElem?_eq_some_iff.mp hi).1
    rw [entryAt_local hi, List.getElem?_append_left (by rw [List.length_map]; exact hlt),
      List.getElem?_map, hi, Option.map_some]
  | none =>
    have hle := List.getElem?_eq_none_iff.mp hi
    rw [entryAt_entry hle, List.getElem?_append_right (by rw [List.length_map]; exact hle),
      List.length_map, List.getElem?_drop, LiftedStack.view, List.getElem?_mapIdx, wordAt,
      Nat.add_comm]

namespace LiftedStack

theorem rel_start (r : LiftedRun σ) {u : SymbolTable} (hu : u.Consistent) (node : NodeId) :
    r.Rel { symbols := u, node } ⟨r.entry, r.start.env, r.start.trace⟩ where
  wellFormed := ⟨hu, fun ha => (by cases ha), fun _ hx => (by cases hx)⟩
  detached _ hx := by cases hx
  agrees hl := by
    refine ⟨r.constant, fun _ => rfl, fun i => ?_, rfl, rfl, Nat.zero_le _⟩
    have hnone : argumentAt? { symbols := u, node } i = none := by simp [argumentAt?]
    rw [LiftedRun.entryAt_entry (Nat.zero_le i)]
    simp [LiftedRun.wordAt, hnone]

/-- Lifted code follows the machine on a stack of at most `2 ^ 32` words. -/
theorem follows_of_length_le (I : Environment σ) {u u' : SymbolTable} (hu : u.Consistent)
    {node : NodeId} {code : List Located} {entry : List Word} {lifted : LiftedStack}
    {n : Machine σ} {e' : Evm.State σ} (hdepth : entry.length ≤ 2 ^ 32)
    (hlift : liftAll u node code = .ok lifted)
    (hrun : Evm.run I code ⟨entry, n.env, n.trace⟩ = some e')
    (hlater : lifted.symbols.Grows u') (hu' : u'.Consistent) (hn : lifted.Entry u' n entry) :
    let liftedEnd := n.run I u' lifted.out.toList
    e' = ⟨lifted.stack.map liftedEnd.values ++
        (lifted.view liftedEnd.values entry).drop lifted.borrows, liftedEnd.env,
        liftedEnd.trace⟩ ∧ lifted.borrows ≤ entry.length := by
  let r : LiftedRun σ :=
    ⟨I, u', lifted.argumentAt?, n, entry, hu', hdepth, hn.constant, hn.argument⟩
  obtain ⟨s, hyields, hrel⟩ := (r.simulation (entry.length + code.length)).lowerCode
    (rel_start r hu node) (Nat.le_refl _) hrun
  have hs : lifted = s := by
    have := liftAll_eq_ok.mpr ⟨_, hyields⟩
    rw [hlift] at this
    exact Except.ok.inj this
  subst hs
  have ha := hrel.agrees ⟨hlater, id⟩
  refine ⟨?_, ha.borrows⟩
  obtain ⟨stack, env, trace⟩ := e'
  have hstack : stack = _ := ha.stack_eq
  have henv : _ = env := ha.env
  have htrace : _ = trace := ha.trace
  rw [hstack, ← henv, ← htrace]
  rfl

theorem Entry.of_append {s : LiftedStack} {t : SymbolTable} {m : Machine σ}
    {entry below : List Word} (h : s.Entry t m (entry ++ below)) : s.Entry t m entry where
  constant := h.constant
  argument hk hw := by
    have hlt := (List.getElem?_eq_some_iff.mp hw).1
    exact h.argument hk (by rw [List.getElem?_append_left hlt, hw])

/-- The stack that the summary describes is the local stack on top of the entries not taken. -/
theorem exitStack_info {s : LiftedStack} (values : SymbolRef → Word) {entry below : List Word}
    (hb : s.borrows ≤ entry.length) (h : 2 ^ 32 ≤ entry.length ∨ below = []) :
    s.info.exitStack values (s.view values (entry ++ below)) =
      s.stack.map values ++ (s.view values entry).drop s.borrows ++ below := by
  have hlen : s.borrows ≤ (s.view values entry).length := by
    rw [view, List.length_mapIdx]
    exact hb
  rw [view_append s values h, StackInfo.exitStack, info, List.reverse_reverse, Int.toNat_natCast,
    List.drop_append_of_le_length hlen, List.append_assoc]

/-! ## The agreement -/

/-- **Lifted code agrees with flat code** on every entry stack that is deep enough for the
instructions, if they reach no more than `2 ^ 32` of its entries. -/
theorem agreesWithFlat (I : Environment σ) {t u : SymbolTable} (ht : t.Consistent)
    (hu : u.Consistent) (scope : Scope) (node : NodeId) {code : List Located} {entry : List Word}
    (hneed : Evm.required code ≤ entry.length) (hslots : Evm.required code ≤ 2 ^ 32)
    (hlen : entry.length + code.length < 2 ^ 256) :
    AgreesWithFlat I t u scope node code entry := by
  obtain ⟨lifted, hlift, -, -⟩ := exists_liftAll hu node code
  refine ⟨lifted, lifted.info, hlift, (summary_of_liftAll hlift).1, ?_⟩
  intro t' u' m n hlater ht' hlater' hu' hm hn
  -- No slot symbol stands for an entry below the first `2 ^ 32`.
  obtain ⟨top, below, hentry, hshort, htop, hbelow⟩ : ∃ top below, entry = top ++ below ∧
      Evm.required code ≤ top.length ∧ top.length ≤ 2 ^ 32 ∧
      (2 ^ 32 ≤ top.length ∨ below = []) := by
    refine ⟨entry.take (2 ^ 32), entry.drop (2 ^ 32), (List.take_append_drop _ _).symm, ?_, ?_, ?_⟩
    · rw [List.length_take]
      omega
    · rw [List.length_take]
      omega
    · rw [List.length_take, List.drop_eq_nil_iff]
      omega
  subst hentry
  obtain ⟨e', hrun⟩ := Evm.exists_run I (e := ⟨top, n.env, n.trace⟩) hshort
  have hrun' := Evm.run_append_stack I hrun below
  obtain ⟨he', hborrows⟩ := follows_of_length_le I hu htop hlift hrun hlater' hu' hn.of_append
  obtain ⟨-, hrep⟩ := FlatStack.represents_lowerAll I ht scope hrun' hlen hlater ht' hm
  dsimp only
  rw [exitStack_info _ hborrows hbelow]
  rw [he'] at hrep
  exact hrep

/-- Code that exchanges two entries, computes with a constant and jumps, on a stack of four. -/
theorem agreesWithFlat_swap_jump :
    let code := locate 0 [⟨.swap 1, []⟩, ⟨.dup 0, []⟩, ⟨.push 1, [4]⟩, ⟨.add, []⟩, ⟨.jump, []⟩]
    Evm.required code ≤ 4 ∧ Evm.required code ≤ 2 ^ 32 ∧
      AgreesWithFlat (fun _ _ n => (0, n + 1) : Environment Nat) {} {} .program 4 code
        [5, 6, 7, 8] := by
  have hbound : 9 < 2 ^ 256 := by omega
  have hsmall : 4 ≤ 2 ^ 32 := by omega
  intro code
  have hneed : Evm.required code ≤ 4 := by decide
  exact ⟨hneed, Nat.le_trans hneed hsmall, agreesWithFlat _ SymbolTable.consistent_empty
    SymbolTable.consistent_empty .program 4 hneed (Nat.le_trans hneed hsmall)
      hbound⟩

/-! ## Beyond `2 ^ 32` entries -/

/-- A run of instructions that all log four topics takes six words for each of them. -/
theorem trace_run_logs (I : Environment σ) {code : List Located}
    (hcode : ∀ i ∈ code, i.instr.op = .log 4) {stack : List Word} (env : σ) (trace : List Event)
    (hlen : 6 * code.length ≤ stack.length) :
    ∃ e', Evm.run I code ⟨stack, env, trace⟩ = some e' ∧
      e'.trace = trace ++ (List.range code.length).map fun j =>
        ⟨.procedure .log, (stack.drop (6 * j)).take 6⟩ := by
  induction code generalizing stack env trace with
  | nil => exact ⟨_, rfl, (List.append_nil _).symm⟩
  | cons i rest ih =>
    have hop := hcode i List.mem_cons_self
    have hin : i.instr.op.inputs = 6 := by rw [hop]; rfl
    have heffect : ∀ args, Evm.effect I i args env =
        ⟨[], (I (.procedure .log) args env).2, [⟨.procedure .log, args⟩]⟩ := fun args => by
      simp only [Evm.effect, hop]
      rfl
    have hle : i.instr.op.inputs ≤ stack.length := by
      rw [hin]
      rw [List.length_cons] at hlen
      omega
    have hstep := Evm.step_of_le I (e := ⟨stack, env, trace⟩) hle
    rw [hin, heffect] at hstep
    have hrest : 6 * rest.length ≤ (stack.drop 6).length := by
      rw [List.length_drop]
      rw [List.length_cons] at hlen
      omega
    obtain ⟨e', hrun, htrace⟩ := ih (fun j hj => hcode j (List.mem_cons_of_mem _ hj))
      (I (.procedure .log) (stack.take 6) env).2 (trace ++ [⟨.procedure .log, stack.take 6⟩]) hrest
    refine ⟨e', by rw [Evm.run, hstep]; exact hrun, ?_⟩
    rw [htrace, List.length_cons, List.range_succ_eq_map, List.append_assoc, List.singleton_append,
      List.map_cons, List.map_map, Nat.mul_zero, List.drop_zero]
    congr 2
    refine List.map_congr_left fun j _ => ?_
    simp only [Function.comp_apply, List.drop_drop]
    congr 3
    omega

/-- Every stack is the entry stack of some machine. -/
theorem WellFormed.exists_entry {s : LiftedStack} (h : s.WellFormed) (entry : List Word) (env : σ) :
    ∃ n : Machine σ, n.env = env ∧ n.trace = [] ∧ s.Entry s.symbols n entry := by
  have hvalue : ∀ ref, ∃ v, (∀ w, s.symbols.IsConstant ref w → v = w) ∧
      ∀ k w, s.argumentAt? k = some ref → entry[k]? = some w → v = w := fun ref => by
    by_cases hk : ∃ k, s.argumentAt? k = some ref
    · obtain ⟨k, hk⟩ := hk
      refine ⟨entry[k]?.getD 0, fun w hc => absurd hc (h.isSlot hk).not_isConstant,
        fun k' w hk' hw => ?_⟩
      rw [h.depth_unique hk hk', hw, Option.getD_some]
    · by_cases hc : ∃ v, s.symbols.IsConstant ref v
      · obtain ⟨v, hc⟩ := hc
        exact ⟨v, fun w hw => hc.value_unique hw, fun k w ha => absurd ⟨k, ha⟩ hk⟩
      · exact ⟨0, fun w hw => absurd ⟨w, hw⟩ hc, fun k w ha => absurd ⟨k, ha⟩ hk⟩
  choose values hconst hentry using hvalue
  exact ⟨⟨values, env, []⟩, rfl, rfl, fun hc => hconst _ _ hc, fun hk hw => hentry _ _ _ hk hw⟩

/-- Where lifted code agrees with flat code, it asks the environment for what the machine asks. -/
theorem AgreesWithFlat.trace_eq {I : Environment σ} {code : List Located} {entry : List Word}
    {scope : Scope} {node : NodeId} {lifted : LiftedStack} {n : Machine σ} {e' : Evm.State σ}
    (h : AgreesWithFlat I {} {} scope node code entry) (hlift : liftAll {} node code = .ok lifted)
    (hu : lifted.symbols.Consistent) (hn : lifted.Entry lifted.symbols n entry)
    (hstart : n.trace = []) (hsize : entry.length + code.length < 2 ^ 256)
    (hrun : Evm.run I code ⟨entry, n.env, n.trace⟩ = some e') :
    (n.run I lifted.symbols lifted.out.toList).trace = e'.trace := by
  obtain ⟨lifted', info, hlift', -, hagrees⟩ := h
  rw [hlift] at hlift'
  cases hlift'
  have ht := (FlatStack.lowerAll_leads SymbolTable.consistent_empty scope code).consistent
  have hm := represents_entry ht (e := ⟨entry, n.env, n.trace⟩)
    (Nat.lt_of_le_of_lt (Nat.le_add_right _ _) hsize) hstart
  have hflat := (hagrees (.refl _) ht (.refl _) hu hm hn).trace
  have hmachine := (FlatStack.represents_lowerAll I SymbolTable.consistent_empty scope hrun hsize
    (.refl _) ht hm).2.trace
  exact hflat.symm.trans hmachine

/-- What lifted code does depends on the entries in the first `2 ^ 32` slots only. Two entry stacks
that differ at a deeper entry that is logged cannot both be treated as flat code treats them. -/
theorem not_agreesWithFlat_of_logs {code : List Located} (hcode : ∀ i ∈ code, i.instr.op = .log 4)
    {entry entry' : List Word} {j k : Nat} (hj : j < code.length) (hk : k < 6)
    (hsame : ∀ i < 2 ^ 32, entry[i]? = entry'[i]?) (hdiff : entry[6 * j + k]? ≠ entry'[6 * j + k]?)
    (hlen : 6 * code.length ≤ entry.length) (hlen' : 6 * code.length ≤ entry'.length)
    (hsize : entry.length + code.length < 2 ^ 256)
    (hsize' : entry'.length + code.length < 2 ^ 256) (scope : Scope) (node : NodeId)
    (I : Environment σ) (env : σ) :
    ¬ (AgreesWithFlat I {} {} scope node code entry ∧
      AgreesWithFlat I {} {} scope node code entry') := by
  rintro ⟨h, h'⟩
  obtain ⟨lifted, hlift, hw, -⟩ := exists_liftAll SymbolTable.consistent_empty node code
  obtain ⟨n, -, hstart, hn⟩ := hw.exists_entry entry env
  have hn' : lifted.Entry lifted.symbols n entry' := ⟨hn.constant, fun hk hw => hn.argument hk (by
    rw [hsame _ (argumentAt?_eq_some hk).1, hw])⟩
  obtain ⟨e, hrun, htrace⟩ := trace_run_logs I hcode n.env n.trace hlen
  obtain ⟨e', hrun', htrace'⟩ := trace_run_logs I hcode n.env n.trace hlen'
  have heq := (h.trace_eq hlift hw.consistent hn hstart hsize hrun).symm.trans
    (h'.trace_eq hlift hw.consistent hn' hstart hsize' hrun')
  rw [htrace, htrace', List.append_right_inj] at heq
  have hevent := congrArg (·[j]?) heq
  simp only [List.getElem?_map, List.getElem?_range hj, Option.map_some, Option.some.injEq,
    Event.mk.injEq, true_and] at hevent
  have hword := congrArg (·[k]?) hevent
  simp only [List.getElem?_take_of_lt hk, List.getElem?_drop] at hword
  exact hdiff hword

theorem op_of_mem_logs {count : Nat} :
    ∀ i ∈ locate 0 (List.replicate count ⟨.log 4, []⟩), i.instr.op = .log 4 := fun i hi => by
  rw [List.eq_of_mem_replicate (instr_mem_of_mem_locate hi)]

theorem required_logs_le (count : Nat) :
    Evm.required (locate 0 (List.replicate count ⟨.log 4, []⟩)) ≤ 6 * count := by
  have hlen : 6 * (locate 0 (List.replicate count ⟨.log 4, []⟩)).length ≤
      (List.replicate (6 * count) (0 : Word)).length := by
    simp only [length_locate, List.length_replicate, Nat.le_refl]
  obtain ⟨e', hrun, -⟩ := trace_run_logs (fun _ _ env => (0, env)) op_of_mem_logs () [] hlen
  have hsome := (Evm.run_isSome_iff _ _ _).mp (Option.isSome_iff_exists.mpr ⟨e', hrun⟩)
  rwa [List.length_replicate] at hsome

/-- Enough logs tell stacks apart that differ below the first `2 ^ 32` entries only. -/
theorem not_agreesWithFlat_zeros (count size : Nat) (hdeep : 2 ^ 32 < 6 * count)
    (hcount : 6 * count ≤ size) (hsize : size + count < 2 ^ 256) :
    ¬ (AgreesWithFlat (fun _ _ env => (0, env) : Environment Unit) {} {} .program 4
        (locate 0 (List.replicate count ⟨.log 4, []⟩)) (List.replicate size 0) ∧
      AgreesWithFlat (fun _ _ env => (0, env) : Environment Unit) {} {} .program 4
        (locate 0 (List.replicate count ⟨.log 4, []⟩))
        ((List.replicate size 0).set (2 ^ 32) 1)) := by
  have hcode : (locate 0 (List.replicate count ⟨.log 4, []⟩)).length = count := by
    rw [length_locate, List.length_replicate]
  refine not_agreesWithFlat_of_logs (j := 715827882) (k := 4) op_of_mem_logs ?_ (by omega)
    (fun i hi => ?_) ?_ ?_ ?_ ?_ ?_ .program 4 _ ()
  · rw [hcode]
    omega
  · rw [List.getElem?_set_ne (by omega)]
  · rw [show 6 * 715827882 + 4 = 2 ^ 32 by omega, List.getElem?_replicate_of_lt (by omega),
      List.getElem?_set_self (by rw [List.length_replicate]; omega)]
    exact fun h => absurd (Option.some.inj h) (by decide)
  · rw [hcode, List.length_replicate]
    exact hcount
  · rw [hcode, List.length_set, List.length_replicate]
    exact hcount
  · rw [hcode, List.length_replicate]
    exact hsize
  · rw [hcode, List.length_set, List.length_replicate]
    exact hsize

/-- **Beyond `2 ^ 32` entries there is no agreement**: the instructions are fewer than `2 ^ 31 - 32`
and none of them jumps, but they reach an entry whose slot is that of another entry. -/
theorem not_agreesWithFlat_of_many_logs :
    let code := locate 0 (List.replicate 715827883 ⟨.log 4, []⟩)
    let zeros : List Word := List.replicate 4294967298 0
    let I : Environment Unit := fun _ _ env => (0, env)
    code.length < 2 ^ 31 - 32 ∧ Evm.required code ≤ zeros.length ∧
      zeros.length + code.length < 2 ^ 256 ∧
      ¬ (AgreesWithFlat I {} {} .program 4 code zeros ∧
        AgreesWithFlat I {} {} .program 4 code (zeros.set (2 ^ 32) 1)) := by
  have hlength := (length_locate 0 (List.replicate 715827883 ⟨.log 4, []⟩)).trans
    List.length_replicate
  have hzeros : (List.replicate 4294967298 (0 : Word)).length = 4294967298 := List.length_replicate
  have hrequired := required_logs_le 715827883
  have hnot := not_agreesWithFlat_zeros 715827883 4294967298 (by omega) (by omega) (by omega)
  refine ⟨?_, ?_, ?_, hnot⟩
  · rw [hlength]
    omega
  · rw [hzeros]
    omega
  · rw [hzeros, hlength]
    omega

end LiftedStack

end EvmFlow
