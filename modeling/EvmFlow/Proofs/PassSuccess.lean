import EvmFlow.Proofs.BlockLayout
import EvmFlow.Proofs.ProgramSteps

/-!
# The built-in passes succeed

On a sound program no part of a built-in pass can fail, and all that it does is made of steps. So
the result is sound, and passes the check that it is committed with.

* `Program.Sound.exists_eliminateDeadCode`: dead code;
* `Program.LiftsAt`, `Program.Sound.exists_liftAt`: lifted blocks;
* `Program.Jump`, `Program.Sound.exists_resolve`, `Program.Sound.exists_resolveJumps`: resolved
  jumps. The edges to be replaced differ, so that each is still there when its turn comes;
* `Program.Sound.exists_narrowTypes`: types;
* `Program.LiftsTo`: all of lifting;
* `Program.Sound.exists_run`, `Program.Sound.exists_runAll`: passes and sequences of passes;
* `Program.exists_steps_build`: building, too, is made of steps;
* **`Program.passes_succeed`**: every code has a program that passes the check, and no program that
  passes it makes a built-in pass fail.
-/

namespace EvmFlow.Program

variable {p q : Program}

/-! ## Steps in a row -/

theorem Steps.sound (h : Steps p q) (hp : p.Sound) : q.Sound :=
  (h.induct (P := fun _ => True) hp trivial fun _ _ _ => trivial).1

theorem Steps.retains (h : Steps p q) (hp : p.Sound) : p.symbols.Retains q.symbols :=
  (h.induct (P := fun r => p.symbols.Retains r.symbols) hp (.refl _)
    fun hstep hr hret => hret.trans (hstep.retains hr.symbols)).2

theorem Steps.code (h : Steps p q) : q.code = p.code := by
  induction h with
  | refl => rfl
  | tail _ hlast ih => exact hlast.code.trans ih

theorem Steps.sentinels (h : Steps p q) : q.sentinels = p.sentinels := by
  induction h with
  | refl => rfl
  | tail _ hlast ih => exact hlast.sentinels.trans ih

theorem Steps.isSentinel (h : Steps p q) (n : NodeId) : q.isSentinel n = p.isSentinel n :=
  isSentinel_congr h.sentinels n

/-! ## Dead code -/

namespace Sound

theorem exists_reachable (hp : p.Sound) : ∃ found, p.reachable = .ok found :=
  ⟨_, Graph.dfs_eq_ok.mpr ⟨hp.verified.sentinel _ List.mem_cons_self, rfl⟩⟩

theorem contains_of_reachable (hp : p.Sound) {found : List NodeId}
    (h : p.reachable = .ok found) {n : NodeId} (hn : n ∈ found) : p.graph.contains n = true :=
  hp.graph.forward.contains_of_dfs h n hn

theorem exists_removeUnreachable (hp : p.Sound) :
    ∃ removed q, p.removeUnreachable = .ok (removed, q) ∧ Step p q := by
  obtain ⟨found, hfound⟩ := hp.exists_reachable
  obtain ⟨q, hq, hretained⟩ := Program.exists_removeUnreachable hp.graph.forward hfound
  exact ⟨_, q, hq, .drop hfound hretained⟩

theorem knowsDefinitions (hp : p.Sound) : p.KnowsDefinitions := by
  intro n hn v hv i hi x hx
  refine (hp.verified.block n v.label ?_ (mem_blocks.mp hn).2).known i hi x ?_
  · exact Graph.label?_of_node? hv
  · exact List.mem_append_left _ (Option.mem_toList.mpr hx)

theorem exists_eliminateDeadCode (hp : p.Sound) :
    ∃ changes q, p.eliminateDeadCode = .ok (changes, q) ∧ Steps p q := by
  obtain ⟨removed, r, hr, hstep⟩ := hp.exists_removeUnreachable
  obtain ⟨k, q, hq⟩ := exists_removeDead (hstep.sound hp).knowsDefinitions
  refine ⟨_, q, bind_eq_ok.mpr ⟨_, hr, bind_eq_ok.mpr ⟨_, hq, rfl⟩⟩, ?_⟩
  exact .tail (.single hstep) (.trim (trimmed_of_removeDead hq))

end Sound

/-! ## Lifted blocks -/

/-- `q` comes from `p` by lifting the blocks at the given nodes, of which `lifted` were not lifted
before. -/
structure LiftsAt (p q : Program) (nodes lifted : List NodeId) : Prop where
  steps : Steps p q
  edge? : ∀ e, q.graph.edge? e = p.graph.edge? e
  contains : ∀ n, q.graph.contains n = p.graph.contains n
  done : ∀ n ∈ nodes, p.isSentinel n = false → ∀ b, q.graph.label? n = some b → b.lifted = true
  real : ∀ n ∈ lifted, p.isSentinel n = false

theorem Recoded.lifted {n : NodeId} {b b' : BasicBlock} (h : Recoded p q n b b')
    (hb : b.lifted = true) : b'.lifted = true := by
  cases h with
  | same => exact hb
  | trim => exact hb
  | lower _ flat => rw [hb] at flat; cases flat
  | lift => rfl

/-- What is lifted stays so. -/
theorem Steps.lifted (h : Steps p q) {n : NodeId}
    (hp : ∀ b, p.graph.label? n = some b → b.lifted = true) :
    ∀ b, q.graph.label? n = some b → b.lifted = true := by
  induction h with
  | refl => exact hp
  | tail _ hlast ih =>
    intro b' hb'
    obtain ⟨b, hb, hrecoded⟩ := hlast.label? hb'
    exact hrecoded.lifted (ih b hb)

/-- A block that is lifted, or synthetic, is left alone. -/
theorem liftBlock_of_done {n : NodeId} {b : BasicBlock} (hb : p.graph.label? n = some b)
    (hdone : p.isSentinel n = true ∨ b.lifted = true) : p.liftBlock n = .ok (false, p) := by
  refine bind_eq_ok.mpr ⟨b, Graph.label_eq_ok.mpr hb, ?_⟩
  rw [if_pos (Bool.or_eq_true_iff.mpr hdone)]
  rfl

theorem Sound.exists_liftBlock (hp : p.Sound) {n : NodeId} {b : BasicBlock}
    (hb : p.graph.label? n = some b) (hreal : p.isSentinel n = false) (hflat : b.lifted = false) :
    ∃ s, p.liftBlock n = .ok (true, p.lifted n s) ∧ Step p (p.lifted n s) := by
  have hops := (opcodes_eq_ok hb).mpr ⟨(hp.verified.block n b hb hreal).span, rfl⟩
  obtain ⟨s, hs, -⟩ := LiftedStack.exists_inOrder hp.symbols n (p.slice b.opcodes)
  refine ⟨s, bind_eq_ok.mpr ⟨b, Graph.label_eq_ok.mpr hb, ?_⟩, .lift hb hreal hflat hops hs⟩
  rw [if_neg (by simp [hreal, hflat])]
  exact bind_eq_ok.mpr ⟨_, hops, bind_eq_ok.mpr ⟨s, hs, bind_eq_ok.mpr
    ⟨s.info, (LiftedStack.summary_of_liftAll hs).1, rfl⟩⟩⟩

theorem Sound.exists_liftAt (hp : p.Sound) {nodes : List NodeId}
    (hnodes : ∀ n ∈ nodes, p.graph.contains n = true) :
    ∃ lifted q, p.liftAt nodes = .ok (lifted, q) ∧ LiftsAt p q nodes lifted := by
  induction nodes generalizing p with
  | nil =>
    exact ⟨[], p, rfl, .refl, fun _ => rfl, fun _ => rfl, fun _ hn => (by cases hn),
      fun _ hn => (by cases hn)⟩
  | cons n rest ih =>
    obtain ⟨b, hb⟩ := Graph.contains_iff_label?.mp (hnodes n List.mem_cons_self)
    have hrest : ∀ m ∈ rest, p.graph.contains m = true :=
      fun m hm => hnodes m (List.mem_cons_of_mem _ hm)
    by_cases hdone : p.isSentinel n = true ∨ b.lifted = true
    · obtain ⟨lifted, q, hq, hlifts⟩ := ih hp hrest
      refine ⟨lifted, q, bind_eq_ok.mpr ⟨_, liftBlock_of_done hb hdone, bind_eq_ok.mpr
        ⟨_, hq, rfl⟩⟩, hlifts.steps, hlifts.edge?, hlifts.contains, fun m hm hreal => ?_,
        hlifts.real⟩
      rcases List.mem_cons.mp hm with rfl | hm
      · refine hlifts.steps.lifted fun b' hb' => ?_
        obtain rfl := Option.some.inj (hb.symm.trans hb')
        exact hdone.resolve_left (by simp [hreal])
      · exact hlifts.done m hm hreal
    · obtain ⟨hreal, hflat⟩ := not_or.mp hdone
      rw [Bool.not_eq_true] at hreal hflat
      obtain ⟨s, hs, hstep⟩ := hp.exists_liftBlock hb hreal hflat
      have hcontains : ∀ m, (p.lifted n s).graph.contains m = p.graph.contains m :=
        fun m => Graph.contains_modifyLabel _ _ _ _
      obtain ⟨lifted, q, hq, hlifts⟩ := ih (hstep.sound hp)
        fun m hm => (hcontains m).trans (hrest m hm)
      refine ⟨n :: lifted, q, bind_eq_ok.mpr ⟨_, hs, bind_eq_ok.mpr ⟨_, hq, rfl⟩⟩,
        .head hstep hlifts.steps, fun e => (hlifts.edge? e).trans (Graph.edge?_modifyLabel _ _ _ _),
        fun m => (hlifts.contains m).trans (hcontains m), fun m hm hm' => ?_, ?_⟩
      · rcases List.mem_cons.mp hm with rfl | hm
        · refine hlifts.steps.lifted fun b' hb' => ?_
          rw [graph_lifted, Graph.label?_modifyLabel, if_pos rfl, hb] at hb'
          cases hb'
          rfl
        · exact hlifts.done m hm hm'
      · exact List.forall_mem_cons.mpr ⟨hreal, hlifts.real⟩

/-! ## Resolved jumps -/

/-- The edge `e` leads from the block at `n` to the jump table, although the block ends in a jump to
a constant, which leads to `t`. -/
structure Jump (p : Program) (e : EdgeId) (n t : NodeId) : Prop where
  real : p.isSentinel n = false
  edge? : p.graph.edge? e = some ⟨n, p.sentinels.jumpTable, .dynamic⟩
  target : ∃ b w, p.graph.label? n = some b ∧ p.constantTarget? b = .ok (some w) ∧ p.jumpTo w = t

/-- `q` is `p` with the edges of the given jumps replaced by static edges to their targets. -/
structure Resolves (p q : Program) (jumps : List (EdgeId × NodeId × NodeId)) : Prop where
  steps : Steps p q
  others : q = { p with graph := q.graph }
  label? : ∀ n, q.graph.label? n = p.graph.label? n
  edge? : ∀ f x, q.graph.edge? f = some x → p.graph.edge? f = some x ∧ f ∉ jumps.map Prod.fst ∨
    ∃ j ∈ jumps, x = ⟨j.2.1, j.2.2, .static⟩
  issued : ∀ i : Nat, i < p.graph.edges.size → q.graph.edge? i =
    if (i : EdgeId) ∈ jumps.map Prod.fst then none else p.graph.edge? i
  fresh : ∀ j ∈ jumps, ∃ i : Nat, p.graph.edges.size ≤ i ∧
    q.graph.edge? i = some ⟨j.2.1, j.2.2, .static⟩

/-- Another replacement leaves a jump as it is. -/
theorem Replaced.jump {e e' : EdgeId} {n n' t t' : NodeId} (h : Replaced p q e n t)
    (hj : p.Jump e' n' t') (hne : e' ≠ e) : q.Jump e' n' t' := by
  have hsize : e' ≠ p.graph.edges.size := by
    rintro rfl
    have hedge := hj.edge?
    rw [Graph.edge?_size] at hedge
    cases hedge
  obtain ⟨b, w, hb, hw, rfl⟩ := hj.target
  refine ⟨(h.isSentinel n').trans hj.real, ?_, b, w, (h.label? n').trans hb, ?_, ?_⟩
  · rw [h.edge?, if_neg hsize, if_neg hne, h.sentinels]
    exact hj.edge?
  · rw [h.others]
    exact hw
  · rw [h.others]
    rfl

/-- A word leads to the invalid jump node or to a jump target. -/
theorem jumpTo_cases (p : Program) (w : Word) : p.jumpTo w = p.sentinels.invalidJump ∨
    ∃ k : Int, p.jumpTargets[k]? = some (p.jumpTo w) := by
  simp only [jumpTo]
  split
  · rw [Std.TreeMap.getD_eq_getD_getElem?]
    cases hk : p.jumpTargets[(w.setWidth 64).toInt]? with
    | none => exact .inl rfl
    | some m => exact .inr ⟨_, hk⟩
  · exact .inl rfl

theorem Sound.contains_jumpTo (hp : p.Sound) (w : Word) :
    p.graph.contains (p.jumpTo w) = true := by
  rcases p.jumpTo_cases w with heq | ⟨k, hk⟩
  · rw [heq]
    exact hp.verified.sentinel _ (by simp [Sentinels.toList])
  · exact hp.verified.target k _ hk

/-- Jumps through different edges can be resolved one after another. -/
theorem Sound.exists_resolve (hp : p.Sound) {jumps : List (EdgeId × NodeId × NodeId)}
    (hdistinct : (jumps.map Prod.fst).Nodup) (hjumps : ∀ j ∈ jumps, p.Jump j.1 j.2.1 j.2.2) :
    ∃ g, jumps.foldlM resolveJump p.graph = .ok g ∧ Resolves p { p with graph := g } jumps := by
  induction jumps generalizing p with
  | nil =>
    exact ⟨p.graph, rfl, .refl, rfl, fun _ => rfl, fun f x hx => .inl ⟨hx, by simp⟩, by simp,
      by simp⟩
  | cons j rest ih =>
    obtain ⟨e, n, t⟩ := j
    obtain ⟨hnew, hrest⟩ := List.nodup_cons.mp hdistinct
    have hj : p.Jump e n t := hjumps _ List.mem_cons_self
    obtain ⟨b, w, hb, hw, ht⟩ := hj.target
    have hlive : p.graph.contains t = true := by
      rw [← ht]
      exact hp.contains_jumpTo w
    obtain ⟨g₁, hg₁⟩ : ∃ g, resolveJump p.graph (e, n, t) = .ok g :=
      ⟨_, resolveJump_eq_ok.mpr ⟨⟨_, hj.edge?⟩, hp.graph.contains_source hj.edge?, hlive, rfl⟩⟩
    have hreplaced := replaced_of_resolveJump hp.graph
      (fun x hx => Option.some.inj (hx.symm.trans hj.edge?)) hg₁
    have hstep : Step p { p with graph := g₁ } := .resolve hb hj.real hw (ht ▸ hreplaced)
    obtain ⟨g, hg, hresolves⟩ := ih (hstep.sound hp) hrest fun i hi => by
      refine hreplaced.jump (hjumps i (List.mem_cons_of_mem _ hi)) ?_
      intro heq
      exact hnew (List.mem_map.mpr ⟨i, hi, heq⟩)
    refine ⟨g, ?_, .head hstep hresolves.steps, rfl,
      fun m => (hresolves.label? m).trans (hreplaced.label? m), fun f x hx => ?_, fun i hi => ?_,
      List.forall_mem_cons.mpr ⟨⟨p.graph.edges.size, Nat.le_refl _, ?_⟩, fun i hi => ?_⟩⟩
    · rw [List.foldlM_cons, hg₁]
      exact hg
    · rcases hresolves.edge? f x hx with ⟨hx, hf⟩ | ⟨i, hi, hx⟩
      · rw [hreplaced.edge?] at hx
        split at hx
        · cases hx
          exact .inr ⟨_, List.mem_cons_self, rfl⟩
        · split at hx
          · cases hx
          · next hfe => exact .inl ⟨hx, by simp [hfe, hf]⟩
      · exact .inr ⟨i, List.mem_cons_of_mem _ hi, hx⟩
    · have hsize : (i : EdgeId) ≠ p.graph.edges.size := fun heq => by
        have := Int.ofNat.inj heq
        omega
      rw [hresolves.issued i (by rw [hreplaced.size]; omega), hreplaced.edge?, if_neg hsize,
        List.map_cons]
      by_cases hie : (i : EdgeId) = e
      · rw [if_pos hie, ite_self, if_pos (List.mem_cons.mpr (.inl hie))]
      · simp only [List.mem_cons, hie, false_or, if_false]
    · -- The other jumps take edges that were there before this one.
      have hother : ((p.graph.edges.size : Nat) : EdgeId) ∉ rest.map Prod.fst := by
        intro hmem
        obtain ⟨i, hi, heq⟩ := List.mem_map.mp hmem
        have hedge := (hjumps i (List.mem_cons_of_mem _ hi)).edge?
        rw [heq, Graph.edge?_size] at hedge
        cases hedge
      rw [hresolves.issued _ (by rw [hreplaced.size]; omega), if_neg hother, hreplaced.edge?,
        if_pos rfl]
    · obtain ⟨k, hk, hedge⟩ := hresolves.fresh i hi
      rw [hreplaced.size] at hk
      exact ⟨k, Nat.le_of_succ_le hk, hedge⟩

/-- The jumps of the blocks at the given nodes: all their edges through the jump table whose target
is a constant, none of them twice. -/
structure JumpsOf (p : Program) (nodes : List NodeId) (jumps : List (EdgeId × NodeId × NodeId)) :
    Prop where
  jump : ∀ j ∈ jumps, p.Jump j.1 j.2.1 j.2.2 ∧ j.2.1 ∈ nodes
  distinct : (jumps.map Prod.fst).Nodup
  all : ∀ n ∈ nodes, ∀ {e t}, p.Jump e n t → e ∈ jumps.map Prod.fst

theorem JumpsOf.cons {n : NodeId} {nodes : List NodeId} {js js' : List (EdgeId × NodeId × NodeId)}
    (h : JumpsOf p [n] js) (h' : JumpsOf p nodes js') (hn : n ∉ nodes) :
    JumpsOf p (n :: nodes) (js ++ js') where
  jump j hj := by
    rcases List.mem_append.mp hj with hj | hj
    · obtain ⟨hjump, hsource⟩ := h.jump j hj
      exact ⟨hjump, List.mem_cons.mpr (.inl (List.mem_singleton.mp hsource))⟩
    · obtain ⟨hjump, hsource⟩ := h'.jump j hj
      exact ⟨hjump, List.mem_cons_of_mem _ hsource⟩
  distinct := by
    rw [List.map_append, List.nodup_append]
    refine ⟨h.distinct, h'.distinct, fun e he e' he' heq => ?_⟩
    -- The same edge would leave two nodes.
    subst heq
    obtain ⟨j, hj, rfl⟩ := List.mem_map.mp he
    obtain ⟨j', hj', heq⟩ := List.mem_map.mp he'
    obtain ⟨hjump, hsource⟩ := h.jump j hj
    obtain ⟨hjump', hsource'⟩ := h'.jump j' hj'
    have hedge := hjump.edge?
    rw [← heq, hjump'.edge?] at hedge
    injection hedge with hedge
    injection hedge with hedge
    rw [hedge, List.mem_singleton.mp hsource] at hsource'
    exact hn hsource'
  all m hm {e t} hjump := by
    rw [List.map_append, List.mem_append]
    rcases List.mem_cons.mp hm with rfl | hm
    · exact .inl (h.all m List.mem_cons_self hjump)
    · exact .inr (h'.all m hm hjump)

theorem Sound.exists_constantTarget? (hp : p.Sound) {n : NodeId} {b : BasicBlock}
    (hb : p.graph.label? n = some b) (hreal : p.isSentinel n = false) :
    ∃ w?, p.constantTarget? b = .ok w? := by
  unfold constantTarget?
  split
  · next x hx =>
    obtain ⟨i, hi, hx⟩ := Option.bind_eq_some_iff.mp hx
    obtain ⟨id, hid⟩ := (hp.verified.block n b hb hreal).known i (List.mem_of_getLast? hi) x
      (List.mem_append_right _ (Instruction.mem_uses_of_branchTarget? hx))
    obtain ⟨s, hs, -⟩ := SymbolTable.exists_symbol_of_identity? hid
    exact ⟨s.value?, by rw [hs]; rfl⟩
  · exact ⟨none, rfl⟩

theorem Sound.exists_tableEdges (hp : p.Sound) {n : NodeId} (hn : p.graph.contains n = true) :
    ∃ edges, p.tableEdges n = .ok edges ∧ edges.Nodup ∧
      ∀ e, p.graph.edge? e = some ⟨n, p.sentinels.jumpTable, .dynamic⟩ → e ∈ edges := by
  obtain ⟨v, hv⟩ := Graph.contains_iff.mp hn
  have hleaving := Graph.leaving_of_node? hv
  refine ⟨_, bind_eq_ok.mpr ⟨v.outgoing, bind_eq_ok.mpr ⟨v, Graph.node_eq_ok.mpr hv, rfl⟩, rfl⟩,
    ?_, fun e he => ?_⟩
  · have hnodup := hp.graph.forward.nodup n
    rw [hleaving] at hnodup
    exact (List.nodup_reverse.mpr hnodup).filter _
  · have hmem := hp.graph.forward.source he
    rw [hleaving] at hmem
    simp [he, Graph.Node.outgoing, hmem]

theorem Sound.exists_constantJumps (hp : p.Sound) {n : NodeId} (hn : p.graph.contains n = true) :
    ∃ jumps, p.constantJumps n = .ok jumps ∧ JumpsOf p [n] jumps := by
  obtain ⟨b, hb⟩ := Graph.contains_iff_label?.mp hn
  unfold constantJumps
  cases hreal : p.isSentinel n with
  | true =>
    refine ⟨[], rfl, fun j hj => (by cases hj), List.nodup_nil, fun m hm e t hjump => ?_⟩
    rw [List.mem_singleton.mp hm] at hjump
    rw [hjump.real] at hreal
    cases hreal
  | false =>
    obtain ⟨w?, hw⟩ := hp.exists_constantTarget? hb hreal
    have hblock : p.block n = .ok b := Graph.label_eq_ok.mpr hb
    rw [if_neg (by simp)]
    cases w? with
    | none =>
      refine ⟨[], bind_eq_ok.mpr ⟨b, hblock, bind_eq_ok.mpr ⟨none, hw, rfl⟩⟩,
        fun j hj => (by cases hj), List.nodup_nil, fun m hm e t hjump => ?_⟩
      obtain ⟨b', w, hb', hw', -⟩ := hjump.target
      rw [List.mem_singleton.mp hm, hb] at hb'
      cases hb'
      rw [hw] at hw'
      cases hw'
    | some w =>
      obtain ⟨edges, hedges, hnodup, hall⟩ := hp.exists_tableEdges hn
      refine ⟨_, bind_eq_ok.mpr ⟨b, hblock, bind_eq_ok.mpr ⟨some w, hw, bind_eq_ok.mpr
        ⟨edges, hedges, rfl⟩⟩⟩, fun j hj => ?_, ?_, fun m hm e t hjump => ?_⟩
      · obtain ⟨e, he, rfl⟩ := List.mem_map.mp hj
        exact ⟨⟨hreal, edge?_of_mem_tableEdges hp.graph.forward hedges he, b, w, hb, hw, rfl⟩,
          List.mem_cons_self⟩
      · simpa [List.map_map, Function.comp_def] using hnodup
      · have hedge := hjump.edge?
        rw [List.mem_singleton.mp hm] at hedge
        simpa [List.map_map, Function.comp_def] using hall e hedge

theorem Sound.exists_allJumps (hp : p.Sound) {nodes : List NodeId} (hnodup : nodes.Nodup)
    (hnodes : ∀ n ∈ nodes, p.graph.contains n = true) :
    ∃ jumps, nodes.mapM p.constantJumps = .ok jumps ∧ JumpsOf p nodes jumps.flatten := by
  induction nodes with
  | nil => exact ⟨[], rfl, fun j hj => (by cases hj), List.nodup_nil, fun _ hn => (by cases hn)⟩
  | cons n nodes ih =>
    obtain ⟨hn, hnodup⟩ := List.nodup_cons.mp hnodup
    obtain ⟨hlive, hnodes⟩ := List.forall_mem_cons.mp hnodes
    obtain ⟨js, hjs, hfirst⟩ := hp.exists_constantJumps hlive
    obtain ⟨jumps, hjumps, hrest⟩ := ih hnodup hnodes
    refine ⟨js :: jumps, ?_, ?_⟩
    · rw [List.mapM_cons]
      exact bind_eq_ok.mpr ⟨js, hjs, bind_eq_ok.mpr ⟨jumps, hjumps, rfl⟩⟩
    · rw [List.flatten_cons]
      exact hfirst.cons hrest hn

theorem Sound.exists_resolveJumps (hp : p.Sound) :
    ∃ found jumps q, p.reachable = .ok found ∧ JumpsOf p found jumps ∧
      p.resolveJumps = .ok (jumps.length, q) ∧ Resolves p q jumps := by
  obtain ⟨found, hfound⟩ := hp.exists_reachable
  obtain ⟨jumps, hjumps, hof⟩ := hp.exists_allJumps (Graph.nodup_dfs hfound)
    fun n hn => hp.contains_of_reachable hfound hn
  obtain ⟨g, hg, hresolves⟩ := hp.exists_resolve hof.distinct fun j hj => (hof.jump j hj).1
  exact ⟨found, jumps.flatten, _, hfound, hof, bind_eq_ok.mpr ⟨found, hfound, bind_eq_ok.mpr
    ⟨jumps, hjumps, bind_eq_ok.mpr ⟨g, hg, rfl⟩⟩⟩, hresolves⟩

/-! ## Types -/

section Narrow

variable {t : SymbolTable} {x y : SymbolRef}

theorem exists_retype (hx : t.Knows x) (type : TypeHint) : ∃ t', t.retype x type = .ok t' := by
  obtain ⟨id, hid⟩ := hx
  obtain ⟨e, he, -⟩ := SymbolTable.exists_entry_of_identity? hid
  obtain ⟨t', ht'⟩ := SymbolTable.exists_replaceType he type
  unfold SymbolTable.retype
  rw [SymbolTable.symbol_of_entry he, ht']
  by_cases hfixed : (e.symbol.isConstant || e.symbol.isGlobal) = true
  · exact ⟨t, if_pos hfixed⟩
  · exact ⟨t', if_neg hfixed⟩

theorem exists_retypeLike (hx : t.Knows x) (hy : t.Knows y) : ∃ t', t.retypeLike x y = .ok t' := by
  obtain ⟨id, hid⟩ := hy
  obtain ⟨s, hs, -⟩ := SymbolTable.exists_symbol_of_identity? hid
  unfold SymbolTable.retypeLike
  rw [hs]
  exact exists_retype hx s.type

/-- The types of known symbols can be narrowed. -/
theorem exists_narrow {i : Instruction} (hi : ∀ x ∈ i.symbols, t.Knows x) :
    ∃ t', t.narrow i = .ok t' := by
  have hdef : ∀ x, i.definition? = some x → t.Knows x :=
    fun x hx => hi x (List.mem_append_left _ (Option.mem_toList.mpr hx))
  have huses : ∀ x ∈ i.uses, t.Knows x := fun x hx => hi x (List.mem_append_right _ hx)
  cases i with
  | nop | procedure | function => exact ⟨t, rfl⟩
  | branch target => exact exists_retype (huses target (by simp [Instruction.uses])) _
  | indexedCopy x y index => exact exists_retype (huses index (by simp [Instruction.uses])) _
  | indexedAssign x index y => exact exists_retype (huses index (by simp [Instruction.uses])) _
  | copy x y => exact exists_retypeLike (hdef x rfl) (huses y (by simp [Instruction.uses]))
  | condBranch condition target =>
    obtain ⟨t₁, h₁⟩ := exists_retype (huses condition (by simp [Instruction.uses])) .bool
    have htarget := huses target (by simp [Instruction.uses])
    obtain ⟨t₂, h₂⟩ := exists_retype ((retypes_of_retype h₁).knows.mpr htarget) .pointer
    exact ⟨t₂, bind_eq_ok.mpr ⟨t₁, h₁, h₂⟩⟩
  | unary x op y =>
    rw [SymbolTable.narrow]
    split
    · exact exists_retype (hdef x rfl) _
    · exact exists_retypeLike (hdef x rfl) (huses y (by simp [Instruction.uses]))
  | binary x op y z =>
    have hx := hdef x rfl
    have hy := huses y (by simp [Instruction.uses])
    have hz := huses z (by simp [Instruction.uses])
    rw [SymbolTable.narrow]
    split
    · exact exists_retype hx _
    · obtain ⟨t₁, h₁⟩ := exists_retypeLike hy hx
      have hretypes := retypes_of_retypeLike h₁
      obtain ⟨t₂, h₂⟩ := exists_retypeLike (hretypes.knows.mpr hz) (hretypes.knows.mpr hx)
      exact ⟨t₂, bind_eq_ok.mpr ⟨t₁, h₁, h₂⟩⟩

theorem exists_foldlM_narrow {code : List Instruction}
    (hcode : ∀ i ∈ code, ∀ x ∈ i.symbols, t.Knows x) :
    ∃ t', code.foldlM SymbolTable.narrow t = .ok t' ∧ t.Retypes t' := by
  refine exists_foldlM (P := t.Retypes) (fun i hi t₁ h₁ => ?_) (.refl t)
  obtain ⟨t₂, h₂⟩ := exists_narrow fun x hx => h₁.knows.mpr (hcode i hi x hx)
  exact ⟨t₂, h₂, h₁.trans (retypes_of_narrow h₂)⟩

end Narrow

/-- The types in blocks can be narrowed. -/
theorem Sound.exists_narrowTypes (hp : p.Sound) {nodes : List NodeId}
    (hreal : ∀ n ∈ nodes, p.isSentinel n = false) :
    ∃ t, p.narrowTypes nodes = .ok { p with symbols := t } ∧ p.symbols.Retypes t := by
  obtain ⟨found, hfound⟩ := hp.exists_reachable
  have hstep : ∀ n ∈ found.filter (Std.TreeSet.ofList nodes : NodeSet).contains, ∀ r : Program,
      (∃ t, r = { p with symbols := t } ∧ p.symbols.Retypes t) →
        ∃ r', r.narrowBlock n = .ok r' ∧
          ∃ t, r' = { p with symbols := t } ∧ p.symbols.Retypes t := by
    rintro n hn r ⟨t, rfl, ht⟩
    obtain ⟨hn, hchosen⟩ := List.mem_filter.mp hn
    have hmem : n ∈ nodes := by simpa [Std.TreeSet.contains_ofList] using hchosen
    obtain ⟨b, hb⟩ := Graph.contains_iff_label?.mp (hp.contains_of_reachable hfound hn)
    have hfits := hp.verified.block n b hb (hreal n hmem)
    have hknown : ∀ i ∈ b.instructions, ∀ x ∈ i.symbols, t.Knows x :=
      fun i hi x hx => ht.knows.mpr (hfits.known i hi x hx)
    obtain ⟨t', ht', hretypes⟩ := exists_foldlM_narrow hknown
    refine ⟨_, bind_eq_ok.mpr ⟨b, Graph.label_eq_ok.mpr hb, bind_eq_ok.mpr ⟨t', ht', rfl⟩⟩, t', rfl,
      ht.trans hretypes⟩
  obtain ⟨q, hq, t, rfl, ht⟩ := exists_foldlM hstep ⟨p.symbols, rfl, .refl _⟩
  exact ⟨t, bind_eq_ok.mpr ⟨found, hfound, hq⟩, ht⟩

/-! ## Passes -/

/-- What lifting makes of `p`: the blocks at the nodes `found` are lifted, which gives `r`, then the
jumps of the nodes `found'` are resolved, which gives `r'`, and then symbols get other types. -/
inductive LiftsTo (p : Program) : (changes : Int) → Program → Prop
  | intro {r r' : Program} {found lifted found' : List NodeId}
      {jumps : List (EdgeId × NodeId × NodeId)} {t : SymbolTable} (hfound : p.reachable = .ok found)
      (hlifts : LiftsAt p r found lifted) (hfound' : r.reachable = .ok found')
      (hjumps : JumpsOf r found' jumps) (hresolves : Resolves r r' jumps)
      (hretypes : r'.symbols.Retypes t) (hlift : p.liftAt found = .ok (lifted, r))
      (hnarrow : r'.narrowTypes lifted = .ok { r' with symbols := t }) :
      LiftsTo p (lifted.length + jumps.length) { r' with symbols := t }

theorem LiftsTo.steps {changes : Int} (h : LiftsTo p changes q) : Steps p q := by
  obtain ⟨-, hlifts, -, -, hresolves, hretypes, -, -⟩ := h
  have hsteps := hlifts.steps.trans hresolves.steps
  exact hsteps.tail (.retype hretypes)

theorem Sound.exists_lift (hp : p.Sound) :
    ∃ changes q, p.lift = .ok (changes, q) ∧ LiftsTo p changes q := by
  obtain ⟨found, hfound⟩ := hp.exists_reachable
  obtain ⟨lifted, r₁, h₁, hlifts⟩ :=
    hp.exists_liftAt fun n hn => hp.contains_of_reachable hfound hn
  have hr₁ := hlifts.steps.sound hp
  obtain ⟨found₁, jumps, r₂, hfound₁, hjumps, h₂, hresolves⟩ := hr₁.exists_resolveJumps
  have hr₂ := hresolves.steps.sound hr₁
  have hsteps : Steps p r₂ := hlifts.steps.trans hresolves.steps
  obtain ⟨t, h₃, ht⟩ := hr₂.exists_narrowTypes fun n hn =>
    (hsteps.isSentinel n).trans (hlifts.real n hn)
  refine ⟨_, _, bind_eq_ok.mpr ⟨(lifted, r₁), bind_eq_ok.mpr ⟨found, hfound, h₁⟩, bind_eq_ok.mpr
    ⟨_, h₂, bind_eq_ok.mpr ⟨_, h₃, rfl⟩⟩⟩, .intro hfound hlifts hfound₁ hjumps hresolves ht h₁ h₃⟩

/-- A pass that does not fail, with a sound result, is counted. -/
theorem run_eq_ok {pass : Pass} {changes : Int} (happly : pass.apply p = .ok (changes, q))
    (hq : q.Sound) : p.run pass = .ok { q with tally := q.tally.add pass.name changes } := by
  unfold run
  rw [happly]
  dsimp only
  rw [verify_eq_ok.mpr hq.verified]

theorem Sound.exists_run (hp : p.Sound) {pass : Pass} (hpass : pass = .deadCode ∨ pass = .lift) :
    ∃ q, p.run pass = .ok q ∧ Steps p q := by
  obtain ⟨changes, r, happly, hsteps⟩ :
      ∃ changes r, pass.apply p = .ok (changes, r) ∧ Steps p r := by
    rcases hpass with rfl | rfl
    · obtain ⟨changes, r, hr, hsteps⟩ := hp.exists_eliminateDeadCode
      exact ⟨changes, r, mapError_eq_ok.mpr hr, hsteps⟩
    · obtain ⟨changes, r, hr, hlifts⟩ := hp.exists_lift
      exact ⟨changes, r, mapError_eq_ok.mpr hr, hlifts.steps⟩
  exact ⟨_, run_eq_ok happly (hsteps.sound hp), hsteps.tail (.count _)⟩

theorem runAll_cons {pass : Pass} (h : p.run pass = .ok q) (rest : List Pass) :
    p.runAll (pass :: rest) = q.runAll rest := by
  rw [runAll, h]

theorem Sound.exists_runAll (hp : p.Sound) {passes : List Pass}
    (hpasses : ∀ pass ∈ passes, pass = .deadCode ∨ pass = .lift) :
    ∃ q, p.runAll passes = (q, .ok ()) ∧ Steps p q := by
  induction passes generalizing p with
  | nil => exact ⟨p, rfl, .refl⟩
  | cons pass rest ih =>
    obtain ⟨hpass, hrest⟩ := List.forall_mem_cons.mp hpasses
    obtain ⟨r, hr, hsteps⟩ := hp.exists_run hpass
    obtain ⟨q, hq, hsteps'⟩ := ih (hsteps.sound hp) hrest
    exact ⟨q, (runAll_cons hr rest).trans hq, hsteps.trans hsteps'⟩

/-! ## New programs -/

theorem label?_ofInstrs {instrs : List Instr} {n : NodeId} {b : BasicBlock}
    (hb : (ofInstrs instrs).graph.label? n = some b) : b = { opcodes := b.opcodes } := by
  obtain ⟨c, a, h, heq⟩ := exists_laid instrs
  rw [heq] at hb
  exact h.empty n b hb

theorem sound_ofInstrs (instrs : List Instr) : (ofInstrs instrs).Sound := by
  obtain ⟨c, a, h, heq⟩ := exists_laid instrs
  have htracks := tracks_ofInstrs instrs
  refine ⟨by rw [heq]; exact h.graph, htracks.symbols, ?_, fun k n hk => ?_, fun n b hb hreal => ?_⟩
  · rw [heq]
    exact h.sentinels
  · rw [heq] at hk ⊢
    obtain ⟨j, x, -, -, -, -, hstart⟩ := h.exists_startsAt hk
    exact hstart.contains
  · obtain ⟨s, z, hflows⟩ := htracks.block n b hb hreal
    have hspan := ((opcodes_eq_ok hb).mp (htracks.opcodes_eq hb hflows)).1
    refine ⟨hspan, fun i hi => ?_, ?_⟩
    · rw [label?_ofInstrs hb] at hi
      cases hi
    · rw [label?_ofInstrs hb]
      exact (by decide : ({} : StackInfo).balanced = true)

theorem Sound.exists_lowerBlock (hp : p.Sound) {n : NodeId} {b : BasicBlock}
    (hb : p.graph.label? n = some b) (hreal : p.isSentinel n = false) (hflat : b.lifted = false) :
    ∃ ops, p.lowerBlock n = .ok (p.lowered n ops) ∧ Step p (p.lowered n ops) := by
  have hops := (opcodes_eq_ok hb).mpr ⟨(hp.verified.block n b hb hreal).span, rfl⟩
  exact ⟨_, bind_eq_ok.mpr ⟨_, hops, rfl⟩, .lower hb hreal hflat hops⟩

/-- **Every code has a program**, which building makes step by step. -/
theorem exists_steps_build (instrs : List Instr) :
    ∃ p, build instrs = .ok p ∧ Steps (ofInstrs instrs) p := by
  have hstep : ∀ n ∈ (ofInstrs instrs).blocks, ∀ q : Program,
      (Steps (ofInstrs instrs) q ∧
        (∀ m, q.graph.contains m = (ofInstrs instrs).graph.contains m) ∧
        ∀ m b, q.graph.label? m = some b → b.lifted = false) →
      ∃ r, q.lowerBlock n = .ok r ∧ Steps (ofInstrs instrs) r ∧
        (∀ m, r.graph.contains m = (ofInstrs instrs).graph.contains m) ∧
        ∀ m b, r.graph.label? m = some b → b.lifted = false := by
    rintro n hn q ⟨hsteps, hlive, hflat⟩
    obtain ⟨hn, hreal⟩ := mem_blocks.mp hn
    obtain ⟨b, hb⟩ := Graph.contains_iff_label?.mp ((hlive n).trans hn)
    obtain ⟨ops, hr, hstep⟩ := (hsteps.sound (sound_ofInstrs instrs)).exists_lowerBlock hb
      ((hsteps.isSentinel n).trans hreal) (hflat n b hb)
    refine ⟨_, hr, hsteps.tail hstep, fun m => ?_, fun m b' hb' => ?_⟩
    · exact (Graph.contains_modifyLabel _ _ _ _).trans (hlive m)
    · rw [graph_lowered, Graph.label?_modifyLabel] at hb'
      split at hb'
      · next hmn =>
        rw [hmn, hb] at hb'
        cases hb'
        exact hflat n b hb
      · exact hflat m b' hb'
  obtain ⟨p, hp, hsteps, -⟩ := exists_foldlM hstep ⟨.refl, fun _ => rfl, fun m b hb => by
    rw [label?_ofInstrs hb]⟩
  exact ⟨p, hp, hsteps⟩

/-- All that passes make of the program of a code comes about step by step. -/
theorem exists_steps_runAll (instrs : List Instr) : ∃ p, build instrs = .ok p ∧
    ∀ passes : List Pass, (∀ pass ∈ passes, pass = .deadCode ∨ pass = .lift) →
      ∃ q, p.runAll passes = (q, .ok ()) ∧ Steps (ofInstrs instrs) q := by
  obtain ⟨p, hp, hbuild⟩ := exists_steps_build instrs
  refine ⟨p, hp, fun passes hpasses => ?_⟩
  obtain ⟨q, hq, hruns⟩ := (hbuild.sound (sound_ofInstrs instrs)).exists_runAll hpasses
  exact ⟨q, hq, hbuild.trans hruns⟩

/-- Five nodes without edges. -/
def loose : Graph BasicBlock :=
  (List.replicate 5 { opcodes := ⟨0, 2⟩ }).foldl (fun g b => (g.addNode b).2) {}

/-- A block with two edges to the jump table, from which no edge leads on: the node of its jump
destination was removed. Two of the synthetic nodes are the same. -/
def patched : Program where
  code := (locate 0 (decode [0x60, 3, 0x56, 0x5b])).toArray
  graph := (((loose.link 0 3 .static).2.link 3 1 .dynamic).2.link 3 1 .dynamic).2.discard 4
  sentinels := ⟨0, 1, 2, 2⟩

end EvmFlow.Program
