import EvmFlow.Optimize
import EvmFlow.Proofs.DeadCodeFixpoint
import EvmFlow.Proofs.JumpPlacement
import EvmFlow.Proofs.ProgramFrame

/-!
# Passes are idempotent

After a pass there is nothing left for it to do. Lifting leaves no block to lift and no jump to
resolve: the targets of resolved jumps could be reached before, through the jump table. Dead code
elimination after it brings no such work back, as it neither makes blocks reachable nor brings a
branch to the end of a block.

* `Tally.Has`: passes that have been counted;
* `Program.Settled`: there is nothing to lift (`Program.Settled.lift`), which holds after lifting
  (`Program.LiftsTo.settled`) and is kept by dead code elimination
  (`Program.Settled.eliminateDeadCode`);
* **`Program.passes_idempotent`**: each pass, and the optimisation, done twice is done once.
-/

namespace EvmFlow

/-! ## Counts -/

theorem Signed64.wrap_wrap (i : Int) : Signed64.wrap (Signed64.wrap i) = Signed64.wrap i :=
  Int.bmod_bmod

namespace Tally

variable {t : Tally} {pass : String}

/-- The pass has a count, to which no changes add nothing. -/
def Has (t : Tally) (pass : String) : Prop := t.add pass 0 = t

theorem has_add (t : Tally) (pass : String) (changes : Int) : (t.add pass changes).Has pass := by
  unfold Has
  induction t with
  | nil => simp [add, Signed64.wrap_wrap]
  | cons entry rest ih =>
    obtain ⟨name, count⟩ := entry
    by_cases hname : name = pass
    · simp [add, hname, Signed64.wrap_wrap]
    · simp [add, hname, ih]

theorem Has.add (h : t.Has pass) (other : String) (changes : Int) :
    (t.add other changes).Has pass := by
  by_cases hother : other = pass
  · subst hother
    exact has_add t other changes
  · unfold Has at h ⊢
    induction t with
    | nil => cases h
    | cons entry rest ih =>
      obtain ⟨name, count⟩ := entry
      by_cases hname : name = pass
      · have hne : name ≠ other := fun heq => hother (heq ▸ hname)
        simp only [Tally.add, hname, if_true, Int.add_zero, List.cons.injEq, Prod.mk.injEq,
          true_and, and_true] at h
        simp [Tally.add, hname, hname ▸ hne, h]
      · simp only [Tally.add, hname, if_false, List.cons.injEq, true_and] at h
        by_cases hname' : name = other
        · simp [Tally.add, hname', hother, h]
        · simp [Tally.add, hname, hname', ih h]

end Tally

namespace Program

variable {p q : Program}

/-! ## Nothing to lift -/

/-- All reachable blocks are lifted, and all their jumps to constants are resolved. -/
def Settled (p : Program) : Prop :=
  ∃ found, p.reachable = .ok found ∧ ∀ n ∈ found, p.isSentinel n = false →
    (∀ b, p.graph.label? n = some b → b.lifted = true) ∧ ∀ e t, ¬ p.Jump e n t

theorem liftAt_of_done {nodes : List NodeId} (hnodes : ∀ n ∈ nodes, p.graph.contains n = true)
    (hdone : ∀ n ∈ nodes, p.isSentinel n = false →
      ∀ b, p.graph.label? n = some b → b.lifted = true) : p.liftAt nodes = .ok ([], p) := by
  induction nodes with
  | nil => rfl
  | cons n rest ih =>
    obtain ⟨hn, hrest⟩ := List.forall_mem_cons.mp hnodes
    obtain ⟨hlifted, hall⟩ := List.forall_mem_cons.mp hdone
    obtain ⟨b, hb⟩ := Graph.contains_iff_label?.mp hn
    have hblock : p.liftBlock n = .ok (false, p) := by
      refine liftBlock_of_done hb ?_
      cases hreal : p.isSentinel n with
      | true => exact .inl rfl
      | false => exact .inr (hlifted hreal b hb)
    exact bind_eq_ok.mpr ⟨_, hblock, bind_eq_ok.mpr ⟨_, ih hrest hall, rfl⟩⟩

/-- Where there is nothing to lift, lifting changes nothing. -/
theorem Settled.lift (h : p.Settled) (hp : p.Sound) : p.lift = .ok (0, p) := by
  obtain ⟨found, hfound, hdone⟩ := h
  have hlive : ∀ n ∈ found, p.graph.contains n = true :=
    fun n hn => hp.contains_of_reachable hfound hn
  have hlift : p.liftBlocks = .ok ([], p) := bind_eq_ok.mpr
    ⟨found, hfound, liftAt_of_done hlive fun n hn hreal => (hdone n hn hreal).1⟩
  have hresolve : p.resolveJumps = .ok (0, p) := by
    obtain ⟨jumps, hjumps, hof⟩ := hp.exists_allJumps (Graph.nodup_dfs hfound) hlive
    have hnil : jumps.flatten = [] := by
      apply List.eq_nil_iff_forall_not_mem.mpr
      intro j hj
      obtain ⟨hjump, hn⟩ := hof.jump j hj
      exact (hdone _ hn hjump.real).2 _ _ hjump
    refine bind_eq_ok.mpr ⟨found, hfound, bind_eq_ok.mpr ⟨jumps, hjumps, ?_⟩⟩
    rw [hnil]
    rfl
  have hnarrow : p.narrowTypes [] = .ok p := by
    refine bind_eq_ok.mpr ⟨found, hfound, ?_⟩
    have hnone : found.filter (Std.TreeSet.ofList ([] : List NodeId) : NodeSet).contains = [] := by
      simp
    rw [hnone]
    rfl
  exact bind_eq_ok.mpr ⟨_, hlift, bind_eq_ok.mpr ⟨_, hresolve, bind_eq_ok.mpr ⟨_, hnarrow, rfl⟩⟩⟩

/-! ## After lifting -/

/-- The node that a word leads to is one that the jump table leads to. -/
theorem Framed.links_jumpTo (h : p.Framed) (hp : p.graph.WellFormed) (w : Word) :
    p.graph.Links p.sentinels.jumpTable (p.jumpTo w) .dynamic := by
  have hmem : ⟨p.sentinels.jumpTable, p.jumpTo w, .dynamic⟩ ∈
      p.graph.edgesFrom p.sentinels.jumpTable := by
    rw [h.table]
    rcases p.jumpTo_cases w with heq | ⟨k, hk⟩
    · exact .inl (by rw [heq])
    · exact .inr ⟨k, _, hk, rfl⟩
  exact hp.links_iff.mpr (hp.mem_edgesFrom.mp hmem).2

section Resolves

variable {jumps : List (EdgeId × NodeId × NodeId)} {found found' : List NodeId}

/-- Resolving jumps makes no node reachable. -/
theorem Resolves.reachable_subset (h : Resolves p q jumps) (hp : p.Sound) (hframed : p.Framed)
    (hfound : p.reachable = .ok found) (hjumps : JumpsOf p found jumps)
    (hfound' : q.reachable = .ok found') : ∀ n ∈ found', n ∈ found := by
  have hq := (h.steps.sound hp).graph.forward
  obtain ⟨-, hclosed⟩ := hp.graph.forward.dfs_closed hfound
  refine reachable_subset_of_closed hq hp.graph.forward h.steps.sentinels.symm hfound' hfound
    fun n hn _ m branch hlink => ?_
  obtain ⟨e, he⟩ := hq.links_iff.mp hlink
  rcases h.edge? e _ he with ⟨hold, -⟩ | ⟨j, hj, hnew⟩
  · exact hclosed n hn (hp.graph.forward.links_iff.mpr ⟨e, hold⟩)
  · -- The old edge leads to the jump table, and on to the target from there.
    cases hnew
    obtain ⟨hjump, -⟩ := hjumps.jump j hj
    obtain ⟨b, w, -, -, htarget⟩ := hjump.target
    have htable := hclosed _ hn (hp.graph.forward.links_iff.mpr ⟨_, hjump.edge?⟩)
    rw [← htarget]
    exact hclosed _ htable (hframed.links_jumpTo hp.graph.forward w)

/-- An edge that a jump still takes was there before, and has been replaced. -/
theorem Resolves.not_jump (h : Resolves p q jumps) (hjumps : JumpsOf p found jumps) {n : NodeId}
    (hn : n ∈ found) (e : EdgeId) (t : NodeId) : ¬ q.Jump e n t := by
  intro hjump
  rcases h.edge? e _ hjump.edge? with ⟨hold, hkept⟩ | ⟨j, -, hnew⟩
  · obtain ⟨b, w, hb, hw, -⟩ := hjump.target
    refine hkept (hjumps.all n hn ⟨?_, ?_, b, w, ?_, ?_, rfl⟩)
    · exact (h.steps.isSentinel n).symm.trans hjump.real
    · rw [← h.steps.sentinels]
      exact hold
    · exact (h.label? n).symm.trans hb
    · rw [h.others] at hw
      exact hw
  · injection hnew with _ _ hbranch
    cases hbranch

end Resolves

/-- Types make no jumps. -/
theorem Jump.of_retypes {t : SymbolTable} (ht : p.symbols.Retypes t) {e : EdgeId} {n m : NodeId}
    (h : Jump { p with symbols := t } e n m) : p.Jump e n m := by
  obtain ⟨b, w, hb, hw, htarget⟩ := h.target
  refine ⟨h.real, h.edge?, b, w, hb, ?_, htarget⟩
  rw [constantTarget?_eq_some] at hw ⊢
  obtain ⟨i, target, hi, hbranch, a, sc, hid⟩ := hw
  exact ⟨i, target, hi, hbranch, a, sc, (ht.identity? target).symm.trans hid⟩

/-- **Lifting leaves nothing to lift.** -/
theorem LiftsTo.settled {changes : Int} (h : LiftsTo p changes q) (hp : p.Sound)
    (hframed : p.Framed) : q.Settled := by
  obtain @⟨r, r', found, lifted, found', jumps, t, hfound, hlifts, hfound', hjumps, hresolves,
    hretypes, -, -⟩ := h
  have hr : r.Sound := hlifts.steps.sound hp
  obtain ⟨found'', hfound''⟩ := (hresolves.steps.sound hr).exists_reachable
  have hlinks : ∀ n ∈ found', ∀ {m branch},
      r.graph.Links n m branch → p.graph.Links n m branch := by
    intro n _ m branch hlink
    obtain ⟨e, he⟩ := hr.graph.forward.links_iff.mp hlink
    exact hp.graph.forward.links_iff.mpr ⟨e, (hlifts.edge? e).symm.trans he⟩
  refine ⟨found'', hfound'', fun n hn hreal => ?_⟩
  have hn' := hresolves.reachable_subset hr (hlifts.steps.framed hp hframed) hfound' hjumps
    hfound'' n hn
  have hn'' := reachable_subset hr.graph.forward hp.graph.forward hlifts.steps.sentinels.symm
    hfound' hfound hlinks n hn'
  refine ⟨fun b hb => hlifts.done n hn'' ?_ b ((hresolves.label? n).symm.trans hb),
    fun e m hjump => hresolves.not_jump hjumps hn' e m (hjump.of_retypes hretypes)⟩
  have hsteps : Steps p r' := hlifts.steps.trans hresolves.steps
  exact (hsteps.isSentinel n).symm.trans hreal

/-! ## Dead code elimination after lifting -/

/-- What is settled stays so where no edges and no jumps are new. -/
theorem Settled.mono (h : p.Settled) (hp : p.Sound) (hq : q.Sound)
    (hsentinels : q.sentinels = p.sentinels)
    (hlinks : ∀ {n m branch}, q.graph.Links n m branch → p.graph.Links n m branch)
    (hlifted : ∀ n b', q.graph.label? n = some b' → p.isSentinel n = false →
      ∃ b, p.graph.label? n = some b ∧ b'.lifted = b.lifted)
    (hjump : ∀ {e n t}, q.Jump e n t →
      (∀ b, p.graph.label? n = some b → b.lifted = true) → ∃ t', p.Jump e n t') : q.Settled := by
  obtain ⟨found, hfound, hdone⟩ := h
  obtain ⟨found', hfound'⟩ := hq.exists_reachable
  refine ⟨found', hfound', fun n hn hreal => ?_⟩
  have hn' := reachable_subset hq.graph.forward hp.graph.forward hsentinels.symm hfound' hfound
    (fun n _ _ _ hlink => hlinks hlink) n hn
  rw [isSentinel_congr hsentinels] at hreal
  obtain ⟨hblock, hnone⟩ := hdone n hn' hreal
  refine ⟨fun b' hb' => ?_, fun e t hj => ?_⟩
  · obtain ⟨b, hb, heq⟩ := hlifted n b' hb' hreal
    rw [heq]
    exact hblock b hb
  · obtain ⟨t', hj'⟩ := hjump hj hblock
    exact hnone e t' hj'

theorem Settled.retained (h : p.Settled) (hp : p.Sound) {found : List NodeId}
    (hfound : p.reachable = .ok found) (hr : Retained p q found) : q.Settled := by
  have hq : q.Sound := Step.sound (.drop hfound hr) hp
  have hsymbols : q.symbols = p.symbols := by rw [hr.others]
  refine h.mono hp hq hr.sentinels (hr.links_of_links hp.graph) ?_ ?_
  · intro n b' hb' hreal
    exact ⟨b', (hr.mem_of_label? hb' hreal).2, rfl⟩
  · intro e n t hj _
    have hreal : p.isSentinel n = false := (hr.isSentinel n).symm.trans hj.real
    have hedge := hj.edge?
    rw [hr.graph, hp.graph.edge?_retain, hr.sentinels] at hedge
    obtain ⟨b, w, hb, hw, -⟩ := hj.target
    rw [constantTarget?_eq_some, hsymbols, ← constantTarget?_eq_some] at hw
    exact ⟨_, hreal, (Option.filter_eq_some_iff.mp hedge).1, b, w, (hr.mem_of_label? hb hreal).2,
      hw, rfl⟩

theorem Settled.trimmed (h : p.Settled) (hp : p.Sound) (hlast : p.JumpsLast)
    (ht : p.Trimmed q) : q.Settled := by
  have hq : q.Sound := Step.sound (.trim ht) hp
  refine h.mono hp hq ht.sentinels (ht.links hp.graph.forward hq.graph.forward).mp ?_ ?_
  · intro n b' hb' _
    obtain ⟨b, kept, hb, rfl, -⟩ := ht.label? hb'
    exact ⟨b, hb, rfl⟩
  · intro e n t hj hlifted
    have hedge := hj.edge?
    rw [ht.edge?, ht.sentinels] at hedge
    obtain ⟨b', w, hb', hw, -⟩ := hj.target
    obtain ⟨b, kept, hb, rfl, hkept⟩ := ht.label? hb'
    rw [constantTarget?_eq_some, ht.symbols, ← constantTarget?_eq_some] at hw
    exact ⟨_, (isSentinel_congr ht.sentinels n).symm.trans hj.real, hedge, b, w, hb,
      constantTarget?_of_sublist (hlast.code n b hb (hlifted b hb)) hkept.sublist hw, rfl⟩

/-- **Dead code elimination leaves nothing to lift where there was nothing to lift.** -/
theorem Settled.eliminateDeadCode (h : p.Settled) (hp : p.Sound) (hlast : p.JumpsLast)
    {changes : Int} (hq : p.eliminateDeadCode = .ok (changes, q)) : q.Settled := by
  obtain ⟨_, _, r, found, -, -, hfound, hretained, htrimmed⟩ :=
    exists_of_eliminateDeadCode hp.graph.forward hq
  have hstep : Step p r := .drop hfound hretained
  exact (h.retained hp hfound hretained).trimmed (hstep.sound hp) (hlast.step hstep) htrimmed

/-! ## Passes -/

/-- What holds of the programs that passes make. -/
structure Regular (p : Program) : Prop where
  sound : p.Sound
  framed : p.Framed
  jumpsLast : p.JumpsLast

theorem regular_ofInstrs (instrs : List Instr) : (ofInstrs instrs).Regular :=
  ⟨sound_ofInstrs instrs, framed_ofInstrs instrs, jumpsLast_ofInstrs instrs⟩

theorem Steps.regular (h : Steps p q) (hp : p.Regular) : q.Regular := by
  refine ⟨h.sound hp.sound, h.framed hp.sound hp.framed, ?_⟩
  exact (h.induct hp.sound hp.jumpsLast fun hstep _ hlast => hlast.step hstep).2

/-- A pass that does nothing and has a count leaves a program as it is. -/
theorem run_eq_self {pass : Pass} (happly : pass.apply p = .ok (0, p)) (hp : p.Sound)
    (htally : p.tally.Has pass.name) : p.run pass = .ok p := by
  have htally : p.tally.add pass.name 0 = p.tally := htally
  rw [run_eq_ok happly hp, htally]

theorem Clean.run (h : p.Clean) (hp : p.Sound) (htally : p.tally.Has Pass.deadCode.name) :
    p.run .deadCode = .ok p :=
  run_eq_self (mapError_eq_ok.mpr (h.eliminateDeadCode hp)) hp htally

theorem Settled.run (h : p.Settled) (hp : p.Sound) (htally : p.tally.Has Pass.lift.name) :
    p.run .lift = .ok p :=
  run_eq_self (mapError_eq_ok.mpr (h.lift hp)) hp htally

theorem Settled.count (h : p.Settled) (tally : Tally) : Settled { p with tally } := by
  obtain ⟨found, hfound, hdone⟩ := h
  refine ⟨found, hfound, fun n hn hreal => ⟨(hdone n hn hreal).1, fun e t hj => ?_⟩⟩
  exact (hdone n hn hreal).2 e t ⟨hj.real, hj.edge?, hj.target⟩

theorem tally_eliminateDeadCode (hp : p.Sound) {changes : Int}
    (h : p.eliminateDeadCode = .ok (changes, q)) : q.tally = p.tally := by
  obtain ⟨_, _, r, found, -, -, -, hretained, htrimmed⟩ :=
    exists_of_eliminateDeadCode hp.graph.forward h
  rw [htrimmed.others, hretained.others]

/-- Dead code elimination has nothing to do afterwards, and makes no work for lifting. -/
theorem Regular.exists_run_deadCode (hp : p.Regular) : ∃ q, p.run .deadCode = .ok q ∧ q.Regular ∧
    q.run .deadCode = .ok q ∧ (p.Settled → p.tally.Has Pass.lift.name → q.run .lift = .ok q) := by
  obtain ⟨changes, r, hr, hsteps⟩ := hp.sound.exists_eliminateDeadCode
  have hclean := clean_of_eliminateDeadCode hp.sound hr
  have hcount : Steps p { r with tally := r.tally.add Pass.deadCode.name changes } :=
    hsteps.tail (.count _)
  have hq := hcount.regular hp
  refine ⟨_, run_eq_ok (mapError_eq_ok.mpr hr) (hsteps.sound hp.sound), hq, ?_, ?_⟩
  · exact Clean.run ⟨hclean.connected, hclean.swept⟩ hq.sound (Tally.has_add _ _ _)
  · intro hsettled htally
    rw [← tally_eliminateDeadCode hp.sound hr] at htally
    exact ((hsettled.eliminateDeadCode hp.sound hp.jumpsLast hr).count _).run hq.sound
      (htally.add _ _)

/-- Lifting has nothing to do afterwards. -/
theorem Regular.exists_run_lift (hp : p.Regular) : ∃ q, p.run .lift = .ok q ∧ q.Regular ∧
    q.Settled ∧ q.tally.Has Pass.lift.name := by
  obtain ⟨changes, r, hr, hlifts⟩ := hp.sound.exists_lift
  have hcount : Steps p { r with tally := r.tally.add Pass.lift.name changes } :=
    hlifts.steps.tail (.count _)
  exact ⟨_, run_eq_ok (mapError_eq_ok.mpr hr) (hlifts.steps.sound hp.sound), hcount.regular hp,
    (hlifts.settled hp.sound hp.framed).count _, Tally.has_add _ _ _⟩

/-- **Passes are idempotent.** On the program of a code, and on all that built-in passes make of it,
each built-in pass and the optimisation, run a second time, change nothing at all. -/
theorem passes_idempotent (instrs : List Instr) : ∃ p₀, build instrs = .ok p₀ ∧
    ∀ passes : List Pass, (∀ pass ∈ passes, pass = .deadCode ∨ pass = .lift) →
      ∃ p, p₀.runAll passes = (p, .ok ()) ∧
        (∃ q, p.run .deadCode = .ok q ∧ q.run .deadCode = .ok q) ∧
        (∃ q, p.run .lift = .ok q ∧ q.run .lift = .ok q) ∧
        ∃ q, p.optimize = (q, .ok ()) ∧ q.optimize = (q, .ok ()) := by
  obtain ⟨p₀, hp₀, hruns⟩ := exists_steps_runAll instrs
  refine ⟨p₀, hp₀, fun passes hpasses => ?_⟩
  obtain ⟨p, hp, hsteps⟩ := hruns passes hpasses
  have hregular := hsteps.regular (regular_ofInstrs instrs)
  refine ⟨p, hp, ?_, ?_, ?_⟩
  · obtain ⟨q, hq, -, hidle, -⟩ := hregular.exists_run_deadCode
    exact ⟨q, hq, hidle⟩
  · obtain ⟨q, hq, hregular', hsettled, htally⟩ := hregular.exists_run_lift
    exact ⟨q, hq, hsettled.run hregular'.sound htally⟩
  · obtain ⟨p₁, h₁, hregular₁, -, -⟩ := hregular.exists_run_deadCode
    obtain ⟨p₂, h₂, hregular₂, hsettled, htally⟩ := hregular₁.exists_run_lift
    obtain ⟨q, hq, -, hidle, hlift⟩ := hregular₂.exists_run_deadCode
    refine ⟨q, ?_, ?_⟩
    · exact (runAll_cons h₁ _).trans ((runAll_cons h₂ _).trans (runAll_cons hq []))
    · exact (runAll_cons hidle _).trans ((runAll_cons (hlift hsettled htally) _).trans
        (runAll_cons hidle []))

/-- A jump to a sum of constants, over a block that is not reached. -/
def detour : List Instr := decode [0x60, 4, 0x60, 4, 0x01, 0x56, 0x00, 0x5b, 0x5b]

theorem passes_idempotent_detour :
    (∀ pass ∈ [Pass.lift], pass = .deadCode ∨ pass = .lift) ∧
      ∃ p₀ p q, build detour = .ok p₀ ∧ p₀.runAll [.lift] = (p, .ok ()) ∧
        p.blocks = [4, 5, 6, 7] ∧ p.optimize = (q, .ok ()) ∧ q.blocks = [4, 7] ∧
        q.optimize = (q, .ok ()) ∧ q.tally = [("lift", 4), ("dce", 2)] := by
  have hpasses : ∀ pass ∈ [Pass.lift], pass = .deadCode ∨ pass = .lift := by simp
  have hfacts : (build detour).toOption.map (fun p₀ =>
      let p := (p₀.runAll [.lift]).1
      (p.blocks, p.optimize.1.blocks, p.optimize.1.tally)) =
      some ([4, 5, 6, 7], [4, 7], [("lift", 4), ("dce", 2)]) := by decide +kernel
  obtain ⟨p₀, hp₀, hall⟩ := passes_idempotent detour
  obtain ⟨p, hp, -, -, q, hq, hidle⟩ := hall _ hpasses
  rw [hp₀] at hfacts
  have hfacts := Option.some.inj hfacts
  dsimp only at hfacts
  rw [hp] at hfacts
  dsimp only at hfacts
  rw [hq] at hfacts
  obtain ⟨hbefore, hafter⟩ := Prod.mk.inj hfacts
  obtain ⟨hblocks, htally⟩ := Prod.mk.inj hafter
  exact ⟨hpasses, p₀, p, q, hp₀, hp, hbefore, hq, hblocks, hidle, htally⟩

end Program

end EvmFlow
