import EvmFlow.Proofs.ChangeCounts
import EvmFlow.Proofs.NarrowedTypes

/-!
# Symbols and types after lifting

Lifting as a pass first lifts blocks, which creates symbols, then replaces edges, and at last
narrows the types of the symbols in those of the blocks just lifted that can still be reached.

* `Program.exists_of_mem_lifted`, `Program.label?_of_not_mem_lifted`: the blocks that are lifted,
  and the others;
* `Program.LiftsWith`: the table after the first step, the blocks, and what becomes of types;
* **`Program.Regular.exists_liftsWith`**: lifting succeeds, and does this.
-/

namespace EvmFlow

/-- The symbols of lifted code are the same in all later tables. -/
theorem LiftedStack.InOrder.identity?_of_mem_symbols {n : NodeId} {s : LiftedStack}
    {u t t' : SymbolTable} (hs : s.InOrder u n) (hgrows : s.symbols.Grows t)
    (hretypes : t.Retypes t') {i : Instruction} {x : SymbolRef} (hi : i ∈ s.out.toList)
    (hx : x ∈ i.symbols) : t'.identity? x = s.symbols.identity? x := by
  obtain ⟨id, hid, -⟩ := hs.code.has i hi x hx
  rw [hretypes.identity? x, hgrows.identity hid, hid]

namespace Program

variable {p q : Program} {n : NodeId} {nodes lifted : List NodeId}

/-- What is not lifted stays as it is. -/
theorem label?_of_not_mem_lifted (h : p.liftAt nodes = .ok (lifted, q)) (hn : n ∉ lifted) :
    q.graph.label? n = p.graph.label? n := by
  induction nodes generalizing p lifted with
  | nil =>
    cases h
    rfl
  | cons m rest ih =>
    obtain ⟨⟨changed, r⟩, hm, h⟩ := bind_eq_ok.mp h
    obtain ⟨⟨lifted', r'⟩, hrest, h⟩ := bind_eq_ok.mp h
    cases h
    obtain ⟨b, -, -, ⟨rfl, rfl⟩ | ⟨rfl, -⟩⟩ := exists_of_liftBlock hm
    · exact ih hrest hn
    · obtain ⟨hne, hn⟩ := not_or.mp (mt List.mem_cons.mpr hn)
      rw [ih hrest hn, label?_of_liftBlock hm hne]

/-- What is lifted has the code that lifting makes of its opcodes, over a table that has become the
table at the end since. -/
theorem exists_of_mem_lifted (hnodup : nodes.Nodup) (h : p.liftAt nodes = .ok (lifted, q))
    (hn : n ∈ lifted) : ∃ t ops s, ∃ b : BasicBlock, p.symbols.Enlarges t ∧ p.opcodes n = .ok ops ∧
      LiftedStack.liftAll t n ops = .ok s ∧ s.symbols.Enlarges q.symbols ∧
      q.graph.label? n =
        some { b with instructions := s.out.toList, stackInfo := s.info, lifted := true } := by
  induction nodes generalizing p lifted with
  | nil =>
    cases h
    cases hn
  | cons m rest ih =>
    obtain ⟨⟨changed, r⟩, hm, h⟩ := bind_eq_ok.mp h
    obtain ⟨⟨lifted', r'⟩, hrest, h⟩ := bind_eq_ok.mp h
    cases h
    obtain ⟨hnew, hnodup⟩ := List.nodup_cons.mp hnodup
    have hlater : n ∈ lifted' → n ∈ rest := by
      rw [eq_filter_of_liftAt hnodup hrest]
      exact fun hmem => (List.mem_filter.mp hmem).1
    obtain ⟨b, hb, -, ⟨rfl, rfl⟩ | ⟨rfl, ops, s, hops, hs, rfl⟩⟩ := exists_of_liftBlock hm
    · exact ih hnodup hrest hn
    · by_cases hnm : n = m
      · subst hnm
        refine ⟨p.symbols, ops, s, b, .refl, hops, hs, enlarges_of_liftAt hrest, ?_⟩
        rw [label?_of_liftAt hrest hnew, graph_lifted, Graph.label?_modifyLabel, if_pos rfl,
          Graph.label_eq_ok.mp hb]
        rfl
      · have hn : n ∈ lifted' := (List.mem_cons.mp hn).resolve_left hnm
        obtain ⟨t, ops', s', b', ht, hops', hs', hs'q, hb'⟩ := ih hnodup hrest hn
        refine ⟨t, ops', s', b', (LiftedStack.enlarges_liftAll hs).trans ht, ?_, hs', hs'q, hb'⟩
        obtain ⟨c, hc, -⟩ := bind_eq_ok.mp hops'
        have hlabel := Graph.label_eq_ok.mp hc
        exact opcodes_congr hlabel ((label?_of_liftBlock hm hnm).symm.trans hlabel) rfl rfl hops'

/-- What lifting as a pass does: over the table `u` it has lifted the blocks at the nodes `lifted`.
After that no constant and no global changes, and types are narrowed in those of the blocks that can
be reached then. -/
structure LiftsWith (p q : Program) (u : SymbolTable) (lifted : List NodeId) : Prop where
  steps : Steps p q
  blocks : ∃ r, p.liftBlocks = .ok (lifted, r) ∧ r.symbols = u
  created : p.symbols.Enlarges u
  retypes : u.Retypes q.symbols
  fixed : ∀ x, ¬ u.IsVariable x → q.symbols.entry? x = u.entry? x
  reachable : ∀ {found found'}, p.reachable = .ok found → q.reachable = .ok found' →
    ∀ n ∈ found', n ∈ found
  done : ∀ {found}, p.reachable = .ok found → ∀ n ∈ found, p.isSentinel n = false →
    ∀ b, q.graph.label? n = some b → b.lifted = true
  real : ∀ n ∈ lifted, p.isSentinel n = false
  other : ∀ n, n ∉ lifted → q.graph.label? n = p.graph.label? n ∧
    u.AgreesIn (.block n) q.symbols
  code : ∀ n ∈ lifted, ∃ t ops s, ∃ b : BasicBlock, p.symbols.Enlarges t ∧ p.opcodes n = .ok ops ∧
    LiftedStack.liftAll t n ops = .ok s ∧ s.symbols.Enlarges u ∧ q.graph.label? n =
      some { b with instructions := s.out.toList, stackInfo := s.info, lifted := true }
  narrowed : ∀ {found}, q.reachable = .ok found → ∀ n ∈ lifted, n ∈ found →
    ∀ b, q.graph.label? n = some b → NarrowedAt n b.instructions u q.symbols
  unreached : ∀ {found}, q.reachable = .ok found → ∀ n ∈ lifted, n ∉ found →
    u.AgreesIn (.block n) q.symbols

/-- **Lifting succeeds, and creates symbols before it narrows types.** -/
theorem Regular.exists_liftsWith (hp : p.Regular) (htidy : p.AllTidy) :
    ∃ q u lifted, p.run .lift = .ok q ∧ LiftsWith p q u lifted := by
  obtain ⟨changes, q, hq, hlifts⟩ := hp.sound.exists_lift
  have happly : Pass.lift.apply p = .ok (changes, q) := mapError_eq_ok.mpr hq
  have hrun := run_eq_ok happly (hlifts.steps.sound hp.sound)
  have hsteps := hlifts.steps.tail (.count (q.tally.add Pass.lift.name changes))
  obtain @⟨r, r', found, lifted, found₁, jumps, t, hfound, hlifts, hfound₁, hjumps, hresolves,
    hretypes, hlift, hnarrow⟩ := hlifts
  have hr : r.Sound := hlifts.steps.sound hp.sound
  have hr' : r'.Sound := hresolves.steps.sound hr
  have hsteps' : Steps p r' := hlifts.steps.trans hresolves.steps
  have hsymbols : r'.symbols = r.symbols := by rw [hresolves.others]
  obtain ⟨found₂, hfound₂⟩ := hr'.exists_reachable
  have hsubset := hresolves.reachable_subset hr (hlifts.steps.framed hp.sound hp.framed) hfound₁
    hjumps hfound₂
  have htidy' : r'.AllTidy := (hsteps'.induct hp.sound htidy fun h hs hall => hall.step h hs).2
  have horder : r'.OrderlyAt lifted := fun n hn b hb =>
    (htidy'.block n b hb ((hsteps'.isSentinel n).trans (hlifts.real n hn))).code
  have hcases := narrowTypes_cases horder hfound₂ (Graph.nodup_dfs hfound₂) hnarrow
  refine ⟨_, r.symbols, lifted, hrun, {
    steps := hsteps
    blocks := ⟨r, bind_eq_ok.mpr ⟨found, hfound, hlift⟩, rfl⟩
    created := enlarges_of_liftAt hlift
    retypes := hsymbols ▸ hretypes
    fixed := fun x hx => hsymbols ▸ entry?_of_narrowTypes hnarrow (hsymbols ▸ hx)
    reachable := ?_
    done := ?_
    real := hlifts.real
    other := fun n hn => ⟨?_, hsymbols ▸ (hcases n).2 fun h => hn h.2⟩
    code := fun n hn => ?_
    narrowed := ?_
    unreached := ?_ }⟩
  · intro found' found'' hfound' hfound'' n hn
    cases hfound'.symm.trans hfound
    cases Eq.trans (Eq.symm hfound'') hfound₂
    exact (hlifts.mem_reachable hp.sound hfound hfound₁).mp (hsubset n hn)
  · intro found' hfound' n hn hreal b hb
    cases hfound'.symm.trans hfound
    exact hlifts.done n hn hreal b ((hresolves.label? n).symm.trans hb)
  · exact (hresolves.label? n).trans (label?_of_not_mem_lifted hlift hn)
  · obtain ⟨t, ops, s, b, ht, hops, hs, hsu, hb⟩ :=
      exists_of_mem_lifted (Graph.nodup_dfs hfound) hlift hn
    exact ⟨t, ops, s, b, ht, hops, hs, hsu, (hresolves.label? n).trans hb⟩
  · intro found' hfound' n hn hmem b hb
    cases Eq.trans (Eq.symm hfound') hfound₂
    exact hsymbols ▸ (hcases n).1 ⟨hmem, hn⟩ b hb
  · intro found' hfound' n hn hmem
    cases Eq.trans (Eq.symm hfound') hfound₂
    exact hsymbols ▸ (hcases n).2 fun h => hmem h.1

end Program

end EvmFlow
