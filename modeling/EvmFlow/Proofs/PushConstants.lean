import EvmFlow.Proofs.BasicBlocks
import EvmFlow.Proofs.ConstantSources

/-!
# The constants of push instructions

The symbols of push instructions, from the building of a program through all passes on it. A symbol
is given out while a block is lowered or lifted, with the table of that moment; from then on the
pool keeps it.

* `Program.Lowers`, `Program.Lifts`: the blocks that building lowers and that passes lift, each with
  the table of symbols at that moment;
* `Program.Filled`, `Program.Lowers.filled`, `Program.Lifts.lifted`: what is in the pool then is in
  it later;
* **`Program.exists_lifts`**: every block that is lifted in the end was lifted by one of the passes;
* `Program.Stands`: which symbol stands for a source in any of these blocks;
* `Program.KeepsPushes`, **`Program.pushConstants_runAll`**: the constants of push instructions are
  never conflated and never change.
-/

namespace EvmFlow

theorem Tiles.exists_contains {a z i : Nat} {spans : List Span} (h : Tiles a z spans) (ha : a ≤ i)
    (hz : i < z) : ∃ s ∈ spans, s.contains i = true := by
  induction h with
  | @last a z _ => exact ⟨⟨a, z⟩, List.mem_singleton_self _, Program.contains_span.mpr ⟨ha, hz⟩⟩
  | @cons a m z spans _ _ ih =>
    by_cases hm : i < m
    · exact ⟨⟨a, m⟩, List.mem_cons_self, Program.contains_span.mpr ⟨ha, hm⟩⟩
    · obtain ⟨s, hs, hi⟩ := ih (by omega) hz
      exact ⟨s, List.mem_cons_of_mem _ hs, hi⟩

namespace Program

variable {p q : Program} {instrs : List Instr} {passes : List Pass} {t : SymbolTable} {n : NodeId}
  {ops : List Located}

/-! ## Successful runs -/

theorem steps_of_build (hp : build instrs = .ok p) : Steps (ofInstrs instrs) p := by
  obtain ⟨p', hp', hsteps⟩ := exists_steps_build instrs
  rwa [Except.ok.inj (hp.symm.trans hp')]

theorem sound_of_build (hp : build instrs = .ok p) : p.Sound :=
  (steps_of_build hp).sound (sound_ofInstrs instrs)

theorem Sound.steps_of_runAll (hp : p.Sound)
    (hpasses : ∀ pass ∈ passes, pass = .deadCode ∨ pass = .lift)
    (hq : p.runAll passes = (q, .ok ())) : Steps p q := by
  obtain ⟨q', hq', hsteps⟩ := hp.exists_runAll hpasses
  cases hq.symm.trans hq'
  exact hsteps

theorem Sound.steps_of_liftAt (hp : p.Sound) {nodes lifted : List NodeId}
    (hnodes : ∀ n ∈ nodes, p.graph.contains n = true) (h : p.liftAt nodes = .ok (lifted, q)) :
    Steps p q := by
  obtain ⟨lifted', q', hq', hlifts⟩ := hp.exists_liftAt hnodes
  cases h.symm.trans hq'
  exact hlifts.steps

theorem runAll_append {done : List Pass} (h : p.runAll done = (q, .ok ())) (rest : List Pass) :
    p.runAll (done ++ rest) = q.runAll rest := by
  induction done generalizing p with
  | nil =>
    cases h
    rfl
  | cons pass done ih =>
    rw [runAll] at h
    rw [List.cons_append, runAll]
    split at h
    · exact ih h
    · cases h

theorem Steps.exists_label (h : Steps p q) {b : BasicBlock} (hb : q.graph.label? n = some b) :
    ∃ b₀, p.graph.label? n = some b₀ ∧ b.opcodes = b₀.opcodes := by
  induction h generalizing b with
  | refl => exact ⟨b, hb, rfl⟩
  | tail _ hlast ih =>
    obtain ⟨b₁, hb₁, hrecoded⟩ := hlast.label? hb
    obtain ⟨b₀, hb₀, hopcodes⟩ := ih hb₁
    exact ⟨b₀, hb₀, hrecoded.opcodes.trans hopcodes⟩

/-- The instructions of a block stay the same as long as there is the block. -/
theorem Steps.opcodes (h : Steps p q) {b : BasicBlock} (hb : q.graph.label? n = some b)
    (hops : p.opcodes n = .ok ops) : q.opcodes n = .ok ops := by
  obtain ⟨b₀, hb₀, hopcodes⟩ := h.exists_label hb
  exact opcodes_congr hb₀ hb hopcodes h.code hops

/-! ## Blocks that get code -/

/-- Building lowers the instructions `ops` of the block at a node, on the table `t`. -/
inductive Lowers (instrs : List Instr) : SymbolTable → NodeId → List Located → Prop
  | intro {p : Program} {before after : List NodeId} {n : NodeId} {ops : List Located}
      (hblocks : (ofInstrs instrs).blocks = before ++ n :: after)
      (hbefore : before.foldlM lowerBlock (ofInstrs instrs) = .ok p)
      (hops : p.opcodes n = .ok ops) : Lowers instrs p.symbols n ops

/-- One of the passes on the new program lifts the block at a node, with the instructions `ops`, on
the table `t`. -/
inductive Lifts (instrs : List Instr) (passes : List Pass) :
    SymbolTable → NodeId → List Located → Prop
  | intro {p q r : Program} {done rest : List Pass} {before after lifted : List NodeId} {n : NodeId}
      {b : BasicBlock} {ops : List Located} (hbuild : build instrs = .ok p)
      (hpasses : passes = done ++ .lift :: rest) (hdone : p.runAll done = (q, .ok ()))
      (hfound : q.reachable = .ok (before ++ n :: after))
      (hbefore : q.liftAt before = .ok (lifted, r)) (hb : r.block n = .ok b)
      (hflat : (r.isSentinel n || b.lifted) = false) (hops : r.opcodes n = .ok ops) :
      Lifts instrs passes r.symbols n ops

theorem mem_of_mem_opcodes (h : p.opcodes n = .ok ops) {x : Located} (hx : x ∈ ops) :
    x ∈ p.code := by
  obtain ⟨b, hb, -⟩ := bind_eq_ok.mp h
  obtain ⟨-, rfl⟩ := (opcodes_eq_ok (Graph.label_eq_ok.mp hb)).mp h
  unfold slice at hx
  rw [Array.toList_extract] at hx
  exact Array.mem_toList_iff.mp (List.mem_of_mem_drop (List.mem_of_mem_take hx))

theorem instr_mem_of_mem_opcodes (hcode : p.code = (ofInstrs instrs).code)
    (h : p.opcodes n = .ok ops) {x : Located} (hx : x ∈ ops) : x.instr ∈ instrs := by
  have hmem := mem_of_mem_opcodes h hx
  rw [hcode] at hmem
  exact instr_mem_of_mem_locate (List.mem_toArray.mp hmem)

/-! ## Building -/

/-- `q` is `p` with flat code in some blocks. -/
structure Filled (p q : Program) : Prop where
  code : q.code = p.code
  label? : ∀ n, (q.graph.label? n).map (fun b => (b.opcodes, b.lifted)) =
    (p.graph.label? n).map fun b => (b.opcodes, b.lifted)
  consistent : q.symbols.Consistent
  enlarges : p.symbols.Enlarges q.symbols

theorem Filled.trans {r : Program} (h : Filled p q) (h' : Filled q r) : Filled p r :=
  ⟨h'.code.trans h.code, fun n => (h'.label? n).trans (h.label? n), h'.consistent,
    h.enlarges.trans h'.enlarges⟩

theorem Filled.opcodes (h : Filled p q) (hops : p.opcodes n = .ok ops) :
    q.opcodes n = .ok ops := by
  obtain ⟨b, hb, -⟩ := bind_eq_ok.mp hops
  have hb := Graph.label_eq_ok.mp hb
  have hlabel := h.label? n
  rw [hb] at hlabel
  obtain ⟨b', hb', heq⟩ := Option.map_eq_some_iff.mp hlabel
  injection heq with hopcodes _
  exact opcodes_congr hb hb' hopcodes h.code hops

theorem lowerBlock_eq_ok :
    p.lowerBlock n = .ok q ↔ ∃ ops, p.opcodes n = .ok ops ∧ q = p.lowered n ops := by
  unfold lowerBlock
  rw [bind_eq_ok]
  refine exists_congr fun ops => and_congr_right fun _ => ?_
  exact ⟨fun h => (Except.ok.inj h).symm, fun h => congrArg Except.ok h.symm⟩

theorem filled_lowered (hp : p.symbols.Consistent) (n : NodeId) (ops : List Located) :
    Filled p (p.lowered n ops) where
  code := rfl
  label? m := by
    rw [graph_lowered, Graph.label?_modifyLabel]
    split
    · rw [Option.map_map]
      rfl
    · rfl
  consistent := (FlatStack.lowerAll_leads hp _ _).consistent
  enlarges := (FlatStack.lowerAll_leads hp _ _).enlarges

theorem filled_of_foldlM (hp : p.symbols.Consistent) {nodes : List NodeId}
    (h : nodes.foldlM lowerBlock p = .ok q) : Filled p q := by
  refine foldlM_ok (P := Filled p) (fun n _ r r' hr hr' => ?_) ⟨rfl, fun _ => rfl, hp, .refl⟩ h
  obtain ⟨ops, -, rfl⟩ := lowerBlock_eq_ok.mp hr'
  exact hr.trans (filled_lowered hr.consistent n ops)

theorem filled_of_build (h : build instrs = .ok p) : Filled (ofInstrs instrs) p :=
  filled_of_foldlM (sound_ofInstrs instrs).symbols h

theorem Filled.lifted_eq_false (h : Filled (ofInstrs instrs) p) {n : NodeId} {b : BasicBlock}
    (hb : p.graph.label? n = some b) : b.lifted = false := by
  -- Filling in code leaves the flag as it is.
  have hlabel := h.label? n
  rw [hb] at hlabel
  obtain ⟨b', hb', heq⟩ := Option.map_eq_some_iff.mp hlabel.symm
  injection heq with _ hlifted
  rw [← hlifted, label?_ofInstrs hb']

/-- What is in the pool when a block is lowered is in it when the program is built. -/
theorem Lowers.filled (h : Lowers instrs t n ops) (hp : build instrs = .ok p) :
    t.Consistent ∧ (FlatStack.lowerAll t (.block n) ops).2.symbols.Retains p.symbols ∧
      ∀ x ∈ ops, x.instr ∈ instrs := by
  obtain @⟨r, before, after, _, _, hblocks, hbefore, hops⟩ := h
  have hfirst := filled_of_foldlM (sound_ofInstrs instrs).symbols hbefore
  refine ⟨hfirst.consistent, ?_, fun x hx => instr_mem_of_mem_opcodes hfirst.code hops hx⟩
  have hbuild : (ofInstrs instrs).blocks.foldlM lowerBlock (ofInstrs instrs) = .ok p := hp
  rw [hblocks, List.foldlM_append, hbefore] at hbuild
  have hlast : (n :: after).foldlM lowerBlock r = .ok p := hbuild
  obtain ⟨r', hr', hrest⟩ := bind_eq_ok.mp hlast
  obtain ⟨ops', hops', rfl⟩ := lowerBlock_eq_ok.mp hr'
  obtain rfl := Except.ok.inj (hops.symm.trans hops')
  have hlast := filled_of_foldlM (filled_lowered hfirst.consistent n ops).consistent hrest
  exact hlast.enlarges.retains

/-- Every instruction of the code lies in a block. -/
theorem exists_mem_opcodes {x : Located} (hx : x ∈ locate 0 instrs) :
    ∃ n ∈ (ofInstrs instrs).blocks, ∃ ops, (ofInstrs instrs).opcodes n = .ok ops ∧ x ∈ ops := by
  obtain ⟨i, hi, hget⟩ := List.mem_iff_getElem.mp hx
  rw [length_locate] at hi
  obtain ⟨spans, hspans, hsplits⟩ := splits_ofInstrs instrs
  obtain ⟨s, hs, hcontains⟩ := hsplits.tiles.exists_contains (Nat.zero_le i) hi
  obtain ⟨n, hn, hspan⟩ := exists_of_mem_mapM hspans hs
  obtain ⟨b, hb, rfl⟩ := span_eq_ok.mp hspan
  have htracks := tracks_ofInstrs instrs
  obtain ⟨a, z, hflows⟩ := htracks.block n b hb (mem_blocks.mp hn).2
  refine ⟨n, hn, _, htracks.opcodes_eq hb hflows, ?_⟩
  rw [hflows.span] at hcontains
  obtain ⟨ha, hz⟩ := contains_span.mp hcontains
  refine List.mem_iff_getElem?.mpr ⟨i - a, ?_⟩
  rw [List.extract_eq_take_drop, List.getElem?_take_of_lt (by omega), List.getElem?_drop,
    Nat.add_sub_cancel' ha]
  exact List.getElem?_eq_some_iff.mpr ⟨_, hget⟩

/-- Building lowers every instruction of the code. -/
theorem exists_lowers {x : Located} (hx : x ∈ locate 0 instrs) :
    ∃ t n ops, Lowers instrs t n ops ∧ x ∈ ops := by
  obtain ⟨n, hn, ops, hops, hmem⟩ := exists_mem_opcodes hx
  obtain ⟨before, after, hblocks⟩ := List.append_of_mem hn
  obtain ⟨p, hp, -⟩ := exists_steps_build instrs
  have hbuild : (ofInstrs instrs).blocks.foldlM lowerBlock (ofInstrs instrs) = .ok p := hp
  rw [hblocks, List.foldlM_append] at hbuild
  obtain ⟨r, hr, -⟩ := bind_eq_ok.mp hbuild
  have hfilled := filled_of_foldlM (sound_ofInstrs instrs).symbols hr
  exact ⟨r.symbols, n, ops, .intro hblocks hr (hfilled.opcodes hops), hmem⟩

/-! ## Passes -/

/-- Nodes are lifted one after the other. -/
theorem liftAt_append {before after lifted₁ lifted₂ : List NodeId} {r : Program}
    (h₁ : p.liftAt before = .ok (lifted₁, r)) (h₂ : p.liftAt (before ++ after) = .ok (lifted₂, q)) :
    ∃ lifted, r.liftAt after = .ok (lifted, q) := by
  induction before generalizing p lifted₁ lifted₂ with
  | nil =>
    cases h₁
    exact ⟨lifted₂, h₂⟩
  | cons n before ih =>
    obtain ⟨⟨_, p₁⟩, hn, h₁⟩ := bind_eq_ok.mp h₁
    obtain ⟨⟨_, r'⟩, hbefore, h₁⟩ := bind_eq_ok.mp h₁
    cases h₁
    obtain ⟨⟨_, p₂⟩, hn', h₂⟩ := bind_eq_ok.mp h₂
    obtain ⟨⟨_, q'⟩, hrest, h₂⟩ := bind_eq_ok.mp h₂
    cases h₂
    obtain rfl := congrArg Prod.snd (Except.ok.inj (hn.symm.trans hn'))
    exact ih hbefore hrest

/-- A block is left alone if there is nothing to lift, and else has lifted code. -/
theorem exists_of_liftBlock {changed : Bool} (h : p.liftBlock n = .ok (changed, q)) :
    ∃ b, p.block n = .ok b ∧ changed = !(p.isSentinel n || b.lifted) ∧ (changed = false ∧ q = p ∨
      changed = true ∧ ∃ ops s, p.opcodes n = .ok ops ∧
        LiftedStack.liftAll p.symbols n ops = .ok s ∧ q = p.lifted n s) := by
  obtain ⟨b, hb, h⟩ := bind_eq_ok.mp h
  refine ⟨b, hb, ?_⟩
  split at h
  · next hdone =>
    cases h
    exact ⟨by rw [hdone]; rfl, .inl ⟨rfl, rfl⟩⟩
  · next hflat =>
    obtain ⟨ops, hops, h⟩ := bind_eq_ok.mp h
    obtain ⟨s, hs, h⟩ := bind_eq_ok.mp h
    rw [(LiftedStack.summary_of_liftAll hs).1] at h
    cases h
    rw [Bool.not_eq_true] at hflat
    exact ⟨by rw [hflat]; rfl, .inr ⟨rfl, ops, s, hops, hs, rfl⟩⟩

/-- Lifting only creates symbols. -/
theorem enlarges_of_liftAt {nodes lifted : List NodeId} (h : p.liftAt nodes = .ok (lifted, q)) :
    p.symbols.Enlarges q.symbols := by
  induction nodes generalizing p lifted with
  | nil =>
    cases h
    exact .refl
  | cons n rest ih =>
    obtain ⟨⟨changed, r⟩, hn, h⟩ := bind_eq_ok.mp h
    obtain ⟨⟨lifted', r'⟩, hrest, h⟩ := bind_eq_ok.mp h
    cases h
    refine Relation.ReflTransGen.trans ?_ (ih hrest)
    obtain ⟨b, -, -, ⟨-, rfl⟩ | ⟨-, ops, s, -, hs, rfl⟩⟩ := exists_of_liftBlock hn
    · exact .refl
    · exact LiftedStack.enlarges_liftAll hs

/-- A block that is lifted in the end had its turn. -/
theorem exists_turn {nodes lifted : List NodeId} (h : p.liftAt nodes = .ok (lifted, q))
    {b : BasicBlock} (hb : q.graph.label? n = some b) (hlifted : b.lifted = true)
    (hflat : ∀ b', p.graph.label? n = some b' → b'.lifted = false) :
    ∃ before after done r b', nodes = before ++ n :: after ∧ p.liftAt before = .ok (done, r) ∧
      r.block n = .ok b' ∧ (r.isSentinel n || b'.lifted) = false := by
  induction nodes generalizing p lifted with
  | nil =>
    cases h
    rw [hflat b hb] at hlifted
    cases hlifted
  | cons m rest ih =>
    obtain ⟨⟨changed, r⟩, hm, h⟩ := bind_eq_ok.mp h
    obtain ⟨⟨lifted', r'⟩, hrest, h⟩ := bind_eq_ok.mp h
    cases h
    have hlater : (∀ b', r.graph.label? n = some b' → b'.lifted = false) →
        ∃ before after done r b', m :: rest = before ++ n :: after ∧
          p.liftAt before = .ok (done, r) ∧ r.block n = .ok b' ∧
            (r.isSentinel n || b'.lifted) = false := by
      intro hr
      obtain ⟨before, after, done, r₁, b', rfl, hbefore, hturn⟩ := ih hrest hr
      exact ⟨m :: before, after, _, r₁, b', rfl,
        bind_eq_ok.mpr ⟨_, hm, bind_eq_ok.mpr ⟨_, hbefore, rfl⟩⟩, hturn⟩
    obtain ⟨b', hb', hchanged, ⟨-, rfl⟩ | ⟨rfl, ops, s, -, -, rfl⟩⟩ := exists_of_liftBlock hm
    · exact hlater hflat
    · by_cases hnm : n = m
      · subst hnm
        exact ⟨[], rest, [], p, b', rfl, rfl, hb', Bool.not_eq_true' _ ▸ hchanged.symm⟩
      · refine hlater fun b'' hb'' => hflat b'' ?_
        rwa [graph_lifted, Graph.label?_modifyLabel, if_neg hnm] at hb''

/-- Lifting as a pass lifts the blocks that it finds; what it does then leaves the blocks alone. -/
theorem Sound.exists_liftAt_of_lift (hp : p.Sound) {changes : Int} (h : p.lift = .ok (changes, q)) :
    ∃ found lifted r, p.reachable = .ok found ∧ p.liftAt found = .ok (lifted, r) ∧ Steps p r ∧
      Steps r q ∧ ∀ n, q.graph.label? n = r.graph.label? n := by
  obtain ⟨⟨lifted, r⟩, hlift, h⟩ := bind_eq_ok.mp h
  obtain ⟨⟨jumps, r₁⟩, hresolve, h⟩ := bind_eq_ok.mp h
  obtain ⟨r₂, hnarrow, h⟩ := bind_eq_ok.mp h
  cases h
  obtain ⟨found, hfound, hlift⟩ := bind_eq_ok.mp hlift
  obtain ⟨_, _, hlift', hlifts⟩ :=
    hp.exists_liftAt fun n hn => hp.contains_of_reachable hfound hn
  cases hlift.symm.trans hlift'
  have hr := hlifts.steps.sound hp
  obtain ⟨_, _, _, -, -, hresolve', hresolves⟩ := hr.exists_resolveJumps
  cases hresolve.symm.trans hresolve'
  have hsteps : Steps p r₁ := hlifts.steps.trans hresolves.steps
  obtain ⟨t, hnarrow', ht⟩ := (hsteps.sound hp).exists_narrowTypes fun n hn =>
    (hsteps.isSentinel n).trans (hlifts.real n hn)
  cases hnarrow.symm.trans hnarrow'
  exact ⟨found, lifted, r, hfound, hlift, hlifts.steps, hresolves.steps.tail (.retype ht),
    hresolves.label?⟩

theorem Sound.exists_run_of_lift (hp : p.Sound) : ∃ changes q, p.lift = .ok (changes, q) ∧ q.Sound ∧
    p.run .lift = .ok { q with tally := q.tally.add Pass.lift.name changes } := by
  obtain ⟨changes, q, hlift, hlifts⟩ := hp.exists_lift
  have hq := hlifts.steps.sound hp
  exact ⟨changes, q, hlift, hq, run_eq_ok (mapError_eq_ok.mpr hlift) hq⟩

/-- What is in the pool when a block is lifted is in it at the end of the pass. -/
theorem Sound.exists_of_lift (hp : p.Sound) {r : Program} {before after lifted : List NodeId}
    {b : BasicBlock} {changes : Int} (h : p.lift = .ok (changes, q))
    (hfound : p.reachable = .ok (before ++ n :: after))
    (hbefore : p.liftAt before = .ok (lifted, r)) (hb : r.block n = .ok b)
    (hflat : (r.isSentinel n || b.lifted) = false) (hops : r.opcodes n = .ok ops) :
    ∃ s, LiftedStack.liftAll r.symbols n ops = .ok s ∧ s.symbols.Retains q.symbols := by
  obtain ⟨found, lifted', r₁, hfound', hlift, hsteps, hrest, -⟩ := hp.exists_liftAt_of_lift h
  obtain rfl := Except.ok.inj (hfound.symm.trans hfound')
  obtain ⟨lifted'', hafter⟩ := liftAt_append hbefore hlift
  obtain ⟨⟨changed, r'⟩, hn, hafter⟩ := bind_eq_ok.mp hafter
  obtain ⟨⟨_, r''⟩, hlater, hafter⟩ := bind_eq_ok.mp hafter
  cases hafter
  obtain ⟨b', hb', hchanged, ⟨rfl, -⟩ | ⟨-, ops', s, hops', hs, rfl⟩⟩ := exists_of_liftBlock hn
  · obtain rfl := Except.ok.inj (hb.symm.trans hb')
    rw [hflat] at hchanged
    cases hchanged
  · obtain rfl := Except.ok.inj (hops.symm.trans hops')
    exact ⟨s, hs, (enlarges_of_liftAt hlater).retains.trans (hrest.retains (hsteps.sound hp))⟩

/-- What is in the pool when a block is lifted is in it after all passes. -/
theorem Lifts.lifted (h : Lifts instrs passes t n ops)
    (hpasses : ∀ pass ∈ passes, pass = .deadCode ∨ pass = .lift) (hp : build instrs = .ok p)
    (hq : p.runAll passes = (q, .ok ())) :
    t.Consistent ∧ (∃ s, LiftedStack.liftAll t n ops = .ok s ∧ s.symbols.Retains q.symbols) ∧
      ∀ x ∈ ops, x.instr ∈ instrs := by
  obtain @⟨p', q₁, r, done, rest, before, after, lifted, _, b, _, hbuild, rfl, hdone, hfound,
    hbefore, hb, hflat, hops⟩ := h
  obtain rfl := Except.ok.inj (hp.symm.trans hbuild)
  obtain ⟨hfirst, hlast⟩ := List.forall_mem_append.mp hpasses
  -- The program before the pass is sound, and so is the one that the block is lifted in.
  have hsteps₁ := (sound_of_build hp).steps_of_runAll hfirst hdone
  have hsound₁ := hsteps₁.sound (sound_of_build hp)
  have hsteps := hsound₁.steps_of_liftAt (fun m hm =>
    hsound₁.contains_of_reachable hfound (List.mem_append_left _ hm)) hbefore
  -- What the rest of the pass and the later passes do to the pool.
  obtain ⟨changes, q₂, hlift, hsound₂, hrun⟩ := hsound₁.exists_run_of_lift
  have hsound₃ := (Step.count (q₂.tally.add Pass.lift.name changes)).sound hsound₂
  rw [runAll_append hdone, runAll_cons hrun] at hq
  have hlater := hsound₃.steps_of_runAll (List.forall_mem_cons.mp hlast).2 hq
  obtain ⟨s, hs, hretains⟩ := hsound₁.exists_of_lift hlift hfound hbefore hb hflat hops
  refine ⟨(hsteps.sound hsound₁).symbols, ⟨s, hs, hretains.trans (hlater.retains hsound₃)⟩,
    fun x hx => ?_⟩
  exact instr_mem_of_mem_opcodes (Steps.code (((steps_of_build hp).trans hsteps₁).trans hsteps))
    hops hx

/-! ### Lifted blocks -/

theorem Lifts.mono (h : Lifts instrs passes t n ops) (later : List Pass) :
    Lifts instrs (passes ++ later) t n ops := by
  obtain ⟨hbuild, rfl, hdone, hfound, hbefore, hb, hflat, hops⟩ := h
  exact .intro hbuild (by rw [List.append_assoc, List.cons_append]) hdone hfound hbefore hb hflat
    hops

/-- The elimination of dead code lifts nothing. -/
theorem Sound.exists_label_of_deadCode (hp : p.Sound) (h : p.run .deadCode = .ok q) {b : BasicBlock}
    (hb : q.graph.label? n = some b) : ∃ b₀, p.graph.label? n = some b₀ ∧ b₀.lifted = b.lifted := by
  obtain ⟨changes, r, hr, hsteps⟩ := hp.exists_eliminateDeadCode
  have hrun : p.run .deadCode = _ := run_eq_ok (mapError_eq_ok.mpr hr) (hsteps.sound hp)
  obtain rfl := Except.ok.inj (h.symm.trans hrun)
  obtain ⟨_, _, r₁, found, -, -, -, hretained, htrimmed⟩ :=
    exists_of_eliminateDeadCode hp.graph.forward hr
  obtain ⟨b₁, kept, hb₁, rfl, -⟩ := htrimmed.label? hb
  rw [hretained.graph, Graph.label?_retain] at hb₁
  split at hb₁
  · exact ⟨b₁, hb₁, rfl⟩
  · cases hb₁

/-- The block that a pass lifts has its turn in that pass. -/
theorem exists_lifts_of_run {done : List Pass} {r : Program} {b : BasicBlock}
    (hp : build instrs = .ok p) (hdone : ∀ pass ∈ done, pass = .deadCode ∨ pass = .lift)
    (hq : p.runAll done = (q, .ok ())) (hr : q.run .lift = .ok r)
    (hb : r.graph.label? n = some b) (hlifted : b.lifted = true)
    (hflat : ∀ b', q.graph.label? n = some b' → b'.lifted = false) :
    ∃ t ops, Lifts instrs (done ++ [.lift]) t n ops ∧ q.opcodes n = .ok ops := by
  have hsound := ((sound_of_build hp).steps_of_runAll hdone hq).sound (sound_of_build hp)
  obtain ⟨changes, r', hlift, -, hrun⟩ := hsound.exists_run_of_lift
  obtain rfl := Except.ok.inj (hr.symm.trans hrun)
  obtain ⟨found, lifted, r₁, hfound, hliftAt, -, -, hlabel⟩ := hsound.exists_liftAt_of_lift hlift
  obtain ⟨before, after, _, r₂, b', rfl, hbefore, hb', hturn⟩ :=
    exists_turn hliftAt ((hlabel n).symm.trans hb) hlifted hflat
  have hsteps := hsound.steps_of_liftAt (fun m hm =>
    hsound.contains_of_reachable hfound (List.mem_append_left _ hm)) hbefore
  -- The block is in the program before the pass, with the same instructions.
  have hn := hsound.contains_of_reachable hfound (List.mem_append_right _ List.mem_cons_self)
  obtain ⟨b₀, hb₀⟩ := Graph.contains_iff_label?.mp hn
  have hreal : q.isSentinel n = false := by
    rw [← hsteps.isSentinel]
    exact (Bool.or_eq_false_iff.mp hturn).1
  have hops := (opcodes_eq_ok hb₀).mpr ⟨(hsound.verified.block n b₀ hb₀ hreal).span, rfl⟩
  exact ⟨_, _, .intro hp rfl hq hfound hbefore hb' hturn
    (hsteps.opcodes (Graph.label_eq_ok.mp hb') hops), hops⟩

/-- **Every block that is lifted in the end was lifted by one of the passes.** -/
theorem exists_lifts (hp : build instrs = .ok p)
    (hpasses : ∀ pass ∈ passes, pass = .deadCode ∨ pass = .lift)
    (hq : p.runAll passes = (q, .ok ())) {b : BasicBlock} (hb : q.graph.label? n = some b)
    (hlifted : b.lifted = true) : ∃ t ops, Lifts instrs passes t n ops ∧ q.opcodes n = .ok ops := by
  induction passes using List.reverseRecOn generalizing q b with
  | nil =>
    cases hq
    cases ((filled_of_build hp).lifted_eq_false hb).symm.trans hlifted
  | append_singleton done pass ih =>
    obtain ⟨hdone, hpass⟩ := List.forall_mem_append.mp hpasses
    have hpass := hpass pass (List.mem_singleton_self pass)
    obtain ⟨r, hr, hsteps⟩ := (sound_of_build hp).exists_runAll hdone
    have hsound := hsteps.sound (sound_of_build hp)
    obtain ⟨q', hrun, hlast⟩ := hsound.exists_run hpass
    rw [runAll_append hr, runAll_cons hrun] at hq
    cases hq
    -- The block was lifted before the last pass, or it is lifted by it.
    by_cases hbefore : ∃ b', r.graph.label? n = some b' ∧ b'.lifted = true
    · obtain ⟨b', hb', hlifted'⟩ := hbefore
      obtain ⟨t, ops, hlifts, hops⟩ := ih hdone hr hb' hlifted'
      exact ⟨t, ops, hlifts.mono _, hlast.opcodes hb hops⟩
    · have hflat : ∀ b', r.graph.label? n = some b' → b'.lifted = false := fun b' hb' =>
        Bool.eq_false_of_not_eq_true fun h => hbefore ⟨b', hb', h⟩
      rcases hpass with rfl | rfl
      · obtain ⟨b₀, hb₀, heq⟩ := hsound.exists_label_of_deadCode hrun hb
        rw [← heq, hflat b₀ hb₀] at hlifted
        cases hlifted
      · obtain ⟨t, ops, hlifts, hops⟩ := exists_lifts_of_run hp hdone hr hrun hb hlifted hflat
        exact ⟨t, ops, hlifts, hlast.opcodes hb hops⟩

/-! ## Symbols of push instructions -/

/-- Which symbol stands for a source, in the flat code that building makes or in the lifted code
that passes make. -/
inductive Stands (instrs : List Instr) (passes : List Pass) (source : Source) (ref : SymbolRef) :
    Prop
  | flat {t : SymbolTable} {n : NodeId} {ops : List Located} (hlowers : Lowers instrs t n ops)
      (h : FlatStack.Stands t (.block n) ops source ref)
  | lifted {t : SymbolTable} {n : NodeId} {ops : List Located}
      (hlifts : Lifts instrs passes t n ops) (h : LiftedStack.Stands t n ops source ref)

section Stands

variable {source : Source} {ref : SymbolRef}
  (hpasses : ∀ pass ∈ passes, pass = .deadCode ∨ pass = .lift) (hp : build instrs = .ok p)
  (hq : p.runAll passes = (q, .ok ()))

include hpasses hp hq

/-- **The pool has the constants of all code** that was ever made. -/
theorem Stands.shared (h : Stands instrs passes source ref) : source.Shared q.symbols ref := by
  cases h with
  | flat hlowers h =>
    obtain ⟨ht, hretains, -⟩ := hlowers.filled hp
    have hsteps := (sound_of_build hp).steps_of_runAll hpasses hq
    exact (h.shared ht).retains (hretains.trans (hsteps.retains (sound_of_build hp)))
  | lifted hlifts h =>
    obtain ⟨-, ⟨s, hs, hretains⟩, -⟩ := hlifts.lifted hpasses hp hq
    exact (h.shared hs).retains hretains

theorem Stands.mem {x : Located} (h : Stands instrs passes (.push x) ref) :
    x.instr ∈ instrs ∧ x.instr.op.isPush = true := by
  cases h with
  | flat hlowers h => exact ⟨(hlowers.filled hp).2.2 x h.mem.1, h.mem.2⟩
  | lifted hlifts h => exact ⟨(hlifts.lifted hpasses hp hq).2.2 x h.mem.1, h.mem.2⟩

end Stands

/-- The constants of push instructions in the program `q` that passes make of a code. -/
structure KeepsPushes (instrs : List Instr) (passes : List Pass) (q : Program) : Prop where
  /-- Each push instruction has a symbol in flat code. -/
  flat : ∀ x ∈ locate 0 instrs, x.instr.op.isPush = true →
    ∃ t n ops ref, Lowers instrs t n ops ∧ FlatStack.Stands t (.block n) ops (.push x) ref
  /-- Each push instruction in a block that is lifted has a symbol in lifted code. -/
  lifted : ∀ {n b}, q.graph.label? n = some b → b.lifted = true → ∃ t ops,
    Lifts instrs passes t n ops ∧ q.opcodes n = .ok ops ∧
      ∀ x ∈ ops, x.instr.op.isPush = true → ∃ ref, LiftedStack.Stands t n ops (.push x) ref
  /-- The symbol of a push has the type and the value of its data bytes, whatever passes follow. -/
  symbol : ∀ {x ref}, Stands instrs passes (.push x) ref →
    ∀ later : List Pass, (∀ pass ∈ later, pass = .deadCode ∨ pass = .lift) →
      ∃ r w, q.runAll later = (r, .ok ()) ∧ r.symbols.symbol ref =
          .ok ⟨.temporary, .bytes x.instr.immediate.length, .constant w⟩ ∧
        w.toNat = Nat.ofDigits 256 (x.instr.immediate.reverse.map UInt8.toNat)
  /-- Push instructions have the same symbol if and only if they push the same bytes. -/
  same : ∀ {x y ref ref'}, Stands instrs passes (.push x) ref →
    Stands instrs passes (.push y) ref' → (ref = ref' ↔ x.instr.immediate = y.instr.immediate)
  /-- No push instruction shares its symbol with anything else. -/
  apart : ∀ {x ref source ref'}, Stands instrs passes (.push x) ref →
    Stands instrs passes source ref' → (∀ y, source ≠ .push y) → ref ≠ ref'

/-- **The constants of push instructions are never conflated and never change.** Whatever built-in
passes run on the program of a code whose pushes have at most 32 bytes, they succeed, and the
symbols that stand for push instructions in flat or lifted code are equal if and only if the data
bytes are; each of them has the length of the bytes for a type and their number for a value, then
and after any further passes, and none of them is the symbol of an offset, of a stack index or of a
result that was computed in advance. -/
theorem pushConstants_runAll (instrs : List Instr)
    (hshort : ∀ x ∈ instrs, x.op.isPush = true → x.immediate.length ≤ 32) :
    ∃ p, build instrs = .ok p ∧
      ∀ passes : List Pass, (∀ pass ∈ passes, pass = .deadCode ∨ pass = .lift) →
        ∃ q, p.runAll passes = (q, .ok ()) ∧ KeepsPushes instrs passes q := by
  obtain ⟨p, hp, hruns⟩ := exists_steps_runAll instrs
  refine ⟨p, hp, fun passes hpasses => ?_⟩
  obtain ⟨q, hq, hsteps⟩ := hruns passes hpasses
  have hsound := hsteps.sound (sound_ofInstrs instrs)
  have hbound : ∀ {x ref}, Stands instrs passes (.push x) ref → x.instr.immediate.length ≤ 32 := by
    intro x ref h
    obtain ⟨hmem, hpush⟩ := h.mem hpasses hp hq
    exact hshort x.instr hmem hpush
  refine ⟨q, hq, fun x hx hpush => ?_, fun hb hlifted => ?_, fun {x ref} h later hlater => ?_,
    fun hx hy => ?_, fun hx h hsource => ?_⟩
  · obtain ⟨t, n, ops, hlowers, hmem⟩ := exists_lowers hx
    obtain ⟨ref, h⟩ := FlatStack.exists_stands_push hmem hpush
    exact ⟨t, n, ops, ref, hlowers, h⟩
  · obtain ⟨t, ops, hlifts, hops⟩ := exists_lifts hp hpasses hq hb hlifted
    have ht := (hlifts.lifted hpasses hp hq).1
    exact ⟨t, ops, hlifts, hops, fun x hx hpush => LiftedStack.exists_stands_push ht hx hpush⟩
  · obtain ⟨r, hr, hmore⟩ := hsound.exists_runAll hlater
    have hshared := (h.shared hpasses hp hq).retains (hmore.retains hsound)
    refine ⟨r, x.instr.value, hr, hshared.symbol_push (hmore.sound hsound).symbols, ?_⟩
    rw [Instr.value, Word.toNat_ofBytes (hbound h), bytesToNat_eq_ofDigits]
  · exact (hx.shared hpasses hp hq).eq_iff hsound.symbols (hy.shared hpasses hp hq) (hbound hx)
  · exact (hx.shared hpasses hp hq).ne hsound.symbols (h.shared hpasses hp hq) hsource

/-- The number one, as an offset, as one byte, as two bytes and as a sum. -/
def ones : List Instr := decode [0x5f, 0x58, 0x60, 1, 0x61, 0, 1, 0x5f, 0x60, 1, 0x01]

/-- The types and values of the constants, in the order in which they were put in. -/
def constants (p : Program) : List (TypeHint × Word) :=
  p.symbols.entries.toList.filterMap fun e => e.symbol.value?.map (e.symbol.type, ·)

theorem pushConstants_runAll_ones :
    (∀ x ∈ ones, x.op.isPush = true → x.immediate.length ≤ 32) ∧
      (∀ pass ∈ [Pass.lift, .deadCode], pass = .deadCode ∨ pass = .lift) ∧
      ∃ p q, build ones = .ok p ∧ p.runAll [.lift, .deadCode] = (q, .ok ()) ∧
        KeepsPushes ones [.lift, .deadCode] q ∧
        (q.graph.label? 4).map BasicBlock.lifted = some true ∧ q.constants =
          [(.bytes 0, 0), (.pointer, 1), (.bytes 1, 1), (.bytes 2, 1), (.word, 1)] := by
  have hshort : ∀ x ∈ ones, x.op.isPush = true → x.immediate.length ≤ 32 := by decide
  have hpasses : ∀ pass ∈ [Pass.lift, .deadCode], pass = .deadCode ∨ pass = .lift := by simp
  obtain ⟨p, hp, hruns⟩ := pushConstants_runAll ones hshort
  obtain ⟨q, hq, hkeeps⟩ := hruns _ hpasses
  have hleft : (build ones).toOption.map (fun p =>
      let q := (p.runAll [.lift, .deadCode]).1
      ((q.graph.label? 4).map BasicBlock.lifted, q.constants)) = some (some true,
        [(.bytes 0, 0), (.pointer, 1), (.bytes 1, 1), (.bytes 2, 1), (.word, 1)]) := by
    decide +kernel
  rw [hp, Except.toOption, Option.map_some, hq] at hleft
  injection hleft with hleft
  injection hleft with hlifted hconstants
  exact ⟨hshort, hpasses, p, q, hp, hq, hkeeps, hlifted, hconstants⟩

end Program

end EvmFlow
