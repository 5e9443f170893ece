import EvmFlow.Proofs.Incidence
import EvmFlow.Proofs.Tracking

/-!
# Resolved jumps lead where the machine goes

A jump is resolved if the code of its block ends in a branch to a constant. Every run of the block
then jumps to that word, and as the block used the jump table until now, the table still has every
jump destination of the code.

* `Program.Tracks.leadsTo_jumpTo`: the node that a word is resolved to;
* `Program.Resolvable`: an edge that may be replaced, which no other replacement changes;
* `Program.Replaced`, `Program.Tracks.resolveJump`: one replacement;
* `Program.Tracks.resolveJumps`, **`Program.Tracks.lift`**: all replacements, and all of lifting.
-/

namespace EvmFlow.Program

variable {p q : Program} {code : List Located}

/-! ## Targets -/

/-- The offset that a word is read as. -/
theorem toInt_setWidth_eq {w : Word} {k : Nat} (hk : k < 2 ^ 63) (hw : w.toNat < 2 ^ 64) :
    (w.setWidth 64).toInt = k ↔ w.toNat = k := by
  have hnat : (w.setWidth 64).toNat = w.toNat := by
    rw [BitVec.toNat_setWidth, Nat.mod_eq_of_lt hw]
  rw [BitVec.toInt_eq_toNat_cond, hnat]
  split <;> omega

/-- As long as a block uses the jump table, words are resolved to where jumps to them lead. -/
theorem Tracks.leadsTo_jumpTo (h : p.Tracks code) (hcode : ∀ x ∈ code, x.offset < 2 ^ 63)
    {n : NodeId} (hreal : p.isSentinel n = false)
    (hlink : p.graph.Links n p.sentinels.jumpTable .dynamic) (w : Word) :
    p.LeadsTo code w (p.jumpTo w) := by
  unfold LeadsTo jumpTo
  dsimp only
  split
  · next j hj =>
    obtain ⟨x, hx, hop, hoffset⟩ := Evm.exists_of_destination? hj
    have hlt := hcode x (List.mem_of_getElem? hx)
    obtain ⟨m, hm, -, hget⟩ := h.table n hreal hlink j x hx hop
    have hw : w.toNat < Signed64.modulus := by
      unfold Signed64.modulus
      omega
    rw [if_pos hw, (toInt_setWidth_eq hlt hw).mpr hoffset.symm, Std.TreeMap.getD_eq_getD_getElem?,
      hget]
    exact hm
  · next hnone =>
    split
    · next hw =>
      rw [Std.TreeMap.getD_eq_getD_getElem?]
      cases hget : p.jumpTargets[(w.setWidth 64).toInt]? with
      | none => rfl
      | some m =>
        obtain ⟨x, hx, hop, hoffset⟩ := h.targets _ m hget
        have hw' := (toInt_setWidth_eq (hcode x hx) hw).mp hoffset.symm
        exact absurd hnone (Evm.destination?_ne_none hx hop hw'.symm)
    · rfl

/-- The target of a block is a constant if its last instruction is a branch to one. -/
theorem constantTarget?_eq_some {b : BasicBlock} {w : Word} :
    p.constantTarget? b = .ok (some w) ↔ ∃ i target, b.instructions.getLast? = some i ∧
      i.branchTarget? = some target ∧ p.symbols.IsConstant target w := by
  unfold constantTarget?
  constructor
  · intro h
    split at h
    · next target htarget =>
      obtain ⟨i, hi, htarget⟩ := Option.bind_eq_some_iff.mp htarget
      obtain ⟨s, hs, hw⟩ := bind_eq_ok.mp h
      exact ⟨i, target, hi, htarget, SymbolTable.isConstant_of_symbol hs (Except.ok.inj hw)⟩
    · cases h
  · rintro ⟨i, target, hi, htarget, a, sc, hid⟩
    obtain ⟨s, hs, -, hkind⟩ := SymbolTable.exists_symbol_of_identity? hid
    rw [hi, Option.bind_some, htarget]
    dsimp only
    rw [hs]
    exact congrArg Except.ok (by rw [Symbol.value?, hkind]; rfl)

theorem edge?_of_mem_tableEdges (hg : p.graph.WellFormed) {n : NodeId} {edges : List EdgeId}
    (h : p.tableEdges n = .ok edges) {e : EdgeId} (he : e ∈ edges) :
    p.graph.edge? e = some ⟨n, p.sentinels.jumpTable, .dynamic⟩ := by
  obtain ⟨out, hout, h⟩ := bind_eq_ok.mp h
  obtain ⟨v, hv, hout⟩ := bind_eq_ok.mp hout
  cases h
  cases hout
  obtain ⟨hmem, hany⟩ := List.mem_filter.mp he
  have hleaving : e ∈ p.graph.leaving n := by
    rw [Graph.leaving_of_node? (Graph.node_eq_ok.mp hv)]
    exact List.mem_reverse.mp hmem
  obtain ⟨x, hx, rfl⟩ := hg.leaving hleaving
  rw [hx, Option.any_some, Bool.and_eq_true, beq_iff_eq, beq_iff_eq] at hany
  rw [hx, ← hany.1, ← hany.2]

/-! ## One replacement -/

/-- The edge `e` from the block at `n` to the jump table, if it is still there, may be replaced by a
static edge to `t`: that is where every run of the block jumps to. -/
structure Resolvable (p : Program) (code : List Located) (e : EdgeId) (n t : NodeId) : Prop where
  real : p.isSentinel n = false
  issued : ∃ i : Nat, e = i ∧ i < p.graph.edges.size
  edge? : ∀ x, p.graph.edge? e = some x → x = ⟨n, p.sentinels.jumpTable, .dynamic⟩
  forced : ∃ (b : BasicBlock) (a z : Nat) (w : Word), p.graph.label? n = some b ∧
    b.opcodes = ⟨a, z⟩ ∧ Evm.Forces (code.extract a z) w ∧ p.LeadsTo code w t

theorem Tracks.resolvable (h : p.Tracks code) (hcode : ∀ x ∈ code, x.offset < 2 ^ 63)
    {node : NodeId} {jumps : List (EdgeId × NodeId × NodeId)}
    (hjumps : p.constantJumps node = .ok jumps) {e : EdgeId} {n t : NodeId}
    (hmem : (e, n, t) ∈ jumps) : p.Resolvable code e n t := by
  unfold constantJumps at hjumps
  split at hjumps
  · cases hjumps
    cases hmem
  · next hreal =>
    have hreal : p.isSentinel node = false := Bool.eq_false_iff.mpr hreal
    obtain ⟨b, hb, hjumps⟩ := bind_eq_ok.mp hjumps
    obtain ⟨target, htarget, hjumps⟩ := bind_eq_ok.mp hjumps
    split at hjumps
    · next w =>
      obtain ⟨edges, hedges, hjumps⟩ := bind_eq_ok.mp hjumps
      cases hjumps
      obtain ⟨f, hf, heq⟩ := List.mem_map.mp hmem
      cases heq
      have hedge := edge?_of_mem_tableEdges h.graph.forward hedges hf
      have hb := Graph.label_eq_ok.mp hb
      obtain ⟨a, z, hflows⟩ := h.block node b hb hreal
      obtain ⟨i, x, hi, hx, hw⟩ := constantTarget?_eq_some.mp htarget
      obtain ⟨k, rfl, hk⟩ := Graph.exists_of_edge? hedge
      refine ⟨hreal, ⟨k, rfl, (Array.getElem?_eq_some_iff.mp hk).1⟩, fun y hy => ?_,
        b, a, z, w, hb, hflows.span, (hflows.branch i (List.mem_of_getLast? hi) x hx).2 w hw, ?_⟩
      · exact Option.some.inj (hy.symm.trans hedge)
      · exact h.leadsTo_jumpTo hcode hreal (h.graph.forward.links_iff.mpr ⟨_, hedge⟩) w
    · cases hjumps
      cases hmem

/-- `q` is `p` with the edge `e` from `n` to the jump table replaced by a static edge to `t`. -/
structure Replaced (p q : Program) (e : EdgeId) (n t : NodeId) : Prop where
  others : q = { p with graph := q.graph }
  graph : q.graph = ((p.graph.unlink e).link n t .static).2
  old : p.graph.edge? e = some ⟨n, p.sentinels.jumpTable, .dynamic⟩
  incident : q.graph.Incident
  label? : ∀ m, q.graph.label? m = p.graph.label? m
  leaving : ∀ {m}, m ≠ n → q.graph.leaving m = p.graph.leaving m
  edge? : ∀ f, q.graph.edge? f = if f = p.graph.edges.size then some ⟨n, t, .static⟩
    else if f = e then none else p.graph.edge? f
  size : q.graph.edges.size = p.graph.edges.size + 1

theorem resolveJump_eq_ok {g g' : Graph BasicBlock} {e : EdgeId} {n t : NodeId} :
    resolveJump g (e, n, t) = .ok g' ↔ (∃ x, g.edge? e = some x) ∧ g.contains n = true ∧
      g.contains t = true ∧ ((g.unlink e).link n t .static).2 = g' := by
  have hlive : ∀ m, (g.unlink e).contains m = g.contains m := fun m => g.contains_unlink m e
  constructor
  · intro h
    obtain ⟨⟨_, g₁⟩, hremove, h⟩ := bind_eq_ok.mp h
    obtain ⟨⟨f, g₂⟩, hadd, h⟩ := bind_eq_ok.mp h
    cases h
    obtain ⟨hx, rfl⟩ := Graph.removeEdge_eq_ok.mp hremove
    obtain ⟨hn, ht, hlink⟩ := Graph.addEdge_eq_ok.mp hadd
    exact ⟨hx, (hlive n).symm.trans hn, (hlive t).symm.trans ht, congrArg Prod.snd hlink⟩
  · rintro ⟨hx, hn, ht, rfl⟩
    exact bind_eq_ok.mpr ⟨((), g.unlink e), Graph.removeEdge_eq_ok.mpr ⟨hx, rfl⟩,
      bind_eq_ok.mpr ⟨(g.unlink e).link n t .static,
        Graph.addEdge_eq_ok.mpr ⟨(hlive n).trans hn, (hlive t).trans ht, rfl⟩, rfl⟩⟩

theorem replaced_of_resolveJump (hp : p.graph.Incident) {e : EdgeId} {n t : NodeId}
    (he : ∀ x, p.graph.edge? e = some x → x = ⟨n, p.sentinels.jumpTable, .dynamic⟩)
    {g : Graph BasicBlock} (hg : resolveJump p.graph (e, n, t) = .ok g) :
    Replaced p { p with graph := g } e n t := by
  obtain ⟨⟨x, hx⟩, hn, ht, rfl⟩ := resolveJump_eq_ok.mp hg
  have hold : p.graph.edge? e = some ⟨n, p.sentinels.jumpTable, .dynamic⟩ := by rw [hx, he x hx]
  have hlive : ∀ {m}, p.graph.contains m = true → (p.graph.unlink e).contains m = true := by
    intro m hm
    rw [Graph.contains_unlink, hm]
  refine ⟨rfl, rfl, hold, (hp.unlink e).link (hlive hn) (hlive ht) _, fun m => ?_,
    fun {m} hm => ?_, fun f => ?_, ?_⟩
  · exact (Graph.label?_link _ _ _ _ _).trans (Graph.label?_unlink _ _ _)
  · exact (Graph.leaving_link _ _ _ _ _ (hlive hn)).trans
      ((if_neg hm).trans ((Graph.leaving_unlink _ _ _ hold).trans (if_neg hm)))
  · dsimp only
    rw [Graph.edge?_link, Graph.edge?_unlink, Graph.size_edges_unlink]
  · dsimp only
    rw [Graph.size_edges_link, Graph.size_edges_unlink]

namespace Replaced

variable {e : EdgeId} {n t : NodeId}

theorem sentinels (h : Replaced p q e n t) : q.sentinels = p.sentinels := by rw [h.others]

theorem isSentinel (h : Replaced p q e n t) (m : NodeId) : q.isSentinel m = p.isSentinel m :=
  isSentinel_congr h.sentinels m

theorem startsAt (h : Replaced p q e n t) {m : NodeId} {i : Nat} :
    q.StartsAt m i ↔ p.StartsAt m i := by
  unfold StartsAt
  simp only [h.label?, h.isSentinel]

theorem covers (h : Replaced p q e n t) {m : NodeId} {i : Nat} : q.Covers m i ↔ p.Covers m i := by
  unfold Covers
  simp only [h.label?, h.isSentinel]

/-- All other edges are kept. -/
theorem links (h : Replaced p q e n t) (hg : p.graph.WellFormed) {s m : NodeId} {branch : Branch}
    (hlink : p.graph.Links s m branch) (hne : branch = .static ∨ s ≠ n) :
    q.graph.Links s m branch := by
  obtain ⟨f, hf⟩ := hg.links_iff.mp hlink
  have hsize : f ≠ p.graph.edges.size := by
    rintro rfl
    rw [Graph.edge?_size] at hf
    cases hf
  have hfe : f ≠ e := by
    rintro rfl
    rw [h.old] at hf
    cases hf
    rcases hne with hne | hne
    · cases hne
    · exact hne rfl
  exact h.incident.forward.links_iff.mpr ⟨f, by rw [h.edge?, if_neg hsize, if_neg hfe, hf]⟩

theorem links_new (h : Replaced p q e n t) : q.graph.Links n t .static :=
  h.incident.forward.links_iff.mpr ⟨p.graph.edges.size, by rw [h.edge?, if_pos rfl]⟩

/-- There are no new dynamic edges. -/
theorem links_of_dynamic (h : Replaced p q e n t) (hg : p.graph.WellFormed) {s m : NodeId}
    (hlink : q.graph.Links s m .dynamic) : p.graph.Links s m .dynamic := by
  obtain ⟨f, hf⟩ := h.incident.forward.links_iff.mp hlink
  rw [h.edge?] at hf
  split at hf
  · cases hf
  · split at hf
    · cases hf
    · exact hg.links_iff.mpr ⟨f, hf⟩

theorem leadsTo (h : Replaced p q e n t) {w : Word} {m : NodeId} (hm : p.LeadsTo code w m) :
    q.LeadsTo code w m := hm.mono h.sentinels fun _ => h.startsAt.mpr

/-- What else may be replaced still may. -/
theorem resolvable (h : Replaced p q e n t) {e' : EdgeId} {n' t' : NodeId}
    (hr : p.Resolvable code e' n' t') : q.Resolvable code e' n' t' := by
  obtain ⟨i, rfl, hi⟩ := hr.issued
  obtain ⟨b, a, z, w, hb, hspan, hforces, hleads⟩ := hr.forced
  refine ⟨(h.isSentinel n').trans hr.real, ⟨i, rfl, by rw [h.size]; omega⟩, fun x hx => ?_,
    b, a, z, w, (h.label? n').trans hb, hspan, hforces, h.leadsTo hleads⟩
  rw [h.edge?, if_neg fun heq => Nat.lt_irrefl _ (Int.ofNat.inj heq ▸ hi)] at hx
  rw [h.sentinels]
  split at hx
  · cases hx
  · exact hr.edge? x hx

end Replaced

/-- A replacement keeps a program on the track of its code. -/
theorem Tracks.resolveJump (h : p.Tracks code) {e : EdgeId} {n t : NodeId}
    (hr : p.Resolvable code e n t) (hq : Replaced p q e n t) : q.Tracks code where
  instrs := by rw [hq.others]; exact h.instrs
  graph := hq.incident
  symbols := by rw [hq.others]; exact h.symbols
  entry := by
    obtain ⟨m, hm, hlink⟩ := h.entry
    rw [hq.sentinels]
    exact ⟨m, hq.startsAt.mpr hm, hq.links h.graph.forward hlink (.inl rfl)⟩
  block m b hb hreal := by
    rw [hq.label?] at hb
    rw [hq.isSentinel] at hreal
    obtain ⟨a, z, hflows⟩ := h.block m b hb hreal
    refine ⟨a, z, hflows.mono hq.sentinels rfl (fun k hk => ?_) (fun hlink => ?_) ?_⟩
    · exact ⟨hq.links h.graph.forward hk (.inl rfl), fun i hi => hq.startsAt.mpr hi⟩
    · by_cases hmn : m = n
      · -- The block whose jump is resolved has its new edge instead.
        subst hmn
        obtain ⟨b', a', z', w, hb', hspan, hforces, hleads⟩ := hr.forced
        obtain rfl := Option.some.inj (hb.symm.trans hb')
        obtain ⟨rfl, rfl⟩ := hflows.eq_of_span hspan
        exact .inr ⟨w, t, hforces, hq.leadsTo hleads, hq.links_new⟩
      · rw [hq.sentinels]
        exact .inl (hq.links h.graph.forward hlink (.inr hmn))
    · rw [hq.others]
      exact hflows.branch
  disjoint m k i hm hk := h.disjoint m k i (hq.covers.mp hm) (hq.covers.mp hk)
  table m hreal hlink j x hx hop := by
    rw [hq.isSentinel] at hreal
    rw [hq.sentinels] at hlink ⊢
    have hplink := hq.links_of_dynamic h.graph.forward hlink
    obtain ⟨k, hk, hlink', hget⟩ := h.table m hreal hplink j x hx hop
    have hne : p.sentinels.jumpTable ≠ n := by
      rintro rfl
      have := hr.real
      simp [Program.isSentinel, Sentinels.toList] at this
    refine ⟨k, hq.startsAt.mpr hk, hq.links h.graph.forward hlink' (.inr hne), ?_⟩
    rw [hq.others]
    exact hget
  targets k m hk := by
    rw [hq.others] at hk
    exact h.targets k m hk

/-- **Resolving jumps keeps a program on the track of its code.** -/
theorem Tracks.resolveJumps (h : p.Tracks code) (hcode : ∀ x ∈ code, x.offset < 2 ^ 63) {k : Nat}
    (hq : p.resolveJumps = .ok (k, q)) : q.Tracks code := by
  obtain ⟨found, -, hq⟩ := bind_eq_ok.mp hq
  obtain ⟨jumps, hjumps, hq⟩ := bind_eq_ok.mp hq
  obtain ⟨g, hg, hq⟩ := bind_eq_ok.mp hq
  cases hq
  have hall : ∀ j ∈ jumps.flatten, p.Resolvable code j.1 j.2.1 j.2.2 := by
    intro j hj
    obtain ⟨l, hl, hj⟩ := List.mem_flatten.mp hj
    obtain ⟨n, -, hn⟩ := exists_of_mem_mapM hjumps hl
    exact h.resolvable hcode hn hj
  -- While edges are replaced, those still to be replaced stay as they were found.
  refine (foldlM_ok (P := fun g => Tracks { p with graph := g } code ∧
    ∀ j ∈ jumps.flatten, Resolvable { p with graph := g } code j.1 j.2.1 j.2.2)
    (fun j hj g g' hP hg' => ?_) ⟨h, hall⟩ hg).1
  have hreplaced := replaced_of_resolveJump hP.1.graph (hP.2 j hj).edge? hg'
  exact ⟨hP.1.resolveJump (hP.2 j hj) hreplaced, fun i hi => hreplaced.resolvable (hP.2 i hi)⟩

/-! ## All of lifting -/

theorem Tracks.lift (h : p.Tracks code) (hcode : ∀ x ∈ code, x.offset < 2 ^ 63) {changes : Int}
    (hq : p.lift = .ok (changes, q)) : q.Tracks code := by
  obtain ⟨⟨lifted, r₁⟩, h₁, hq⟩ := bind_eq_ok.mp hq
  obtain ⟨⟨jumps, r₂⟩, h₂, hq⟩ := bind_eq_ok.mp hq
  obtain ⟨r₃, h₃, hq⟩ := bind_eq_ok.mp hq
  cases hq
  obtain ⟨found, -, h₁⟩ := bind_eq_ok.mp h₁
  exact ((h.liftAt h₁).resolveJumps hcode h₂).narrowTypes h₃

end EvmFlow.Program
