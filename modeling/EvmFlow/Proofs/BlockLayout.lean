import EvmFlow.Program.Build
import EvmFlow.Proofs.FlatSimulation
import EvmFlow.Proofs.Incidence
import EvmFlow.Proofs.Tracking
import Mathlib.Tactic.IntervalCases

/-!
# The layout of new programs

The walk over the code splits it into blocks that lie one behind the other. All of them but the
current one have their edges, and every jump destination so far has its edge from the jump table.

* `Builder.Enlarges`: what every change of the graph under construction keeps;
* `Builder.Laid`: what holds in front of each instruction;
* `Builder.Moves`, `Builder.Takes`: what taking in an instruction does, and
  `Builder.Laid.takes_place`, `Builder.Takes.visit`;
* `Builder.Laid.step`, `Builder.Laid.visitAll`: one instruction, and the whole walk;
* `Program.tracks_ofInstrs`, **`Program.exists_build`**: every code has a program, which follows its
  control.
-/

namespace EvmFlow

namespace Builder

variable {b b' b'' : Builder} {code : List Located}

/-! ## Changes of the graph -/

/-- `b'` has all nodes and edges of `b`. -/
structure Enlarges (b b' : Builder) : Prop where
  incident : b'.graph.Incident
  links : ∀ {s t branch}, b.graph.Links s t branch → b'.graph.Links s t branch
  contains : ∀ {n}, b.graph.contains n = true → b'.graph.contains n = true

theorem Enlarges.trans (h : b.Enlarges b') (h' : b'.Enlarges b'') : b.Enlarges b'' :=
  ⟨h'.incident, fun hl => h'.links (h.links hl), fun hc => h'.contains (h.contains hc)⟩

theorem extend_enlarges (h : b.graph.Incident) (stop : Int) : b.Enlarges (b.extend stop) where
  incident := h.modifyLabel b.current fun x => { x with opcodes.stop := stop }
  links := h.forward.links_modifyLabel.mpr
  contains := (b.graph.contains_modifyLabel _ _ _).trans

theorem opening_enlarges (h : b.graph.Incident) (start : Int) : b.Enlarges (b.opening start) := by
  refine ⟨h.addNode _, h.forward.links_addNode.mpr, fun {n} hn => ?_⟩
  obtain ⟨x, hx⟩ := Graph.contains_iff_label?.mp hn
  refine Graph.contains_iff_label?.mpr ?_
  change ∃ y, (b.graph.addNode _).2.label? n = some y
  rw [Graph.label?_addNode]
  split
  · exact ⟨_, rfl⟩
  · exact ⟨x, hx⟩

section Linking

variable {s t : NodeId} (branch : Branch)

theorem linking_enlarges (h : b.graph.Incident) (hs : b.graph.contains s = true)
    (ht : b.graph.contains t = true) : b.Enlarges (b.linking s t branch) := by
  refine ⟨h.link hs ht branch, fun hl => (h.forward.links_link hs ht).mpr (.inl hl),
    fun {n} hn => ?_⟩
  rw [Graph.contains_iff_label?] at hn ⊢
  change ∃ y, (b.graph.link s t branch).2.label? n = some y
  rwa [Graph.label?_link]

theorem links_linking (h : b.graph.Incident) (hs : b.graph.contains s = true)
    (ht : b.graph.contains t = true) : (b.linking s t branch).graph.Links s t branch :=
  (h.forward.links_link hs ht).mpr (.inr ⟨rfl, rfl, rfl⟩)

theorem edgesFrom_linking (h : b.graph.Incident) (hs : b.graph.contains s = true) (n : NodeId) :
    (b.linking s t branch).graph.edgesFrom n =
      b.graph.edgesFrom n ++ if n = s then [⟨s, t, branch⟩] else [] :=
  h.forward.edgesFrom_link hs branch

end Linking

section Labels

variable (b) (n s t : NodeId) (branch : Branch)

theorem label?_extend (stop : Int) : (b.extend stop).graph.label? n =
    if n = b.current then (b.graph.label? n).map fun x => { x with opcodes.stop := stop }
    else b.graph.label? n := Graph.label?_modifyLabel ..

theorem label?_opening (start : Int) : (b.opening start).graph.label? n =
    if n = (b.opening start).current then some (.startingAt start) else b.graph.label? n :=
  Graph.label?_addNode ..

theorem label?_linking : (b.linking s t branch).graph.label? n = b.graph.label? n :=
  Graph.label?_link ..

theorem edgesFrom_extend (stop : Int) : (b.extend stop).graph.edgesFrom n = b.graph.edgesFrom n :=
  Graph.edgesFrom_modifyLabel ..

theorem edgesFrom_opening (start : Int) :
    (b.opening start).graph.edgesFrom n = b.graph.edgesFrom n := Graph.edgesFrom_addNode ..

theorem nodeIds_extend (stop : Int) : (b.extend stop).graph.nodeIds = b.graph.nodeIds :=
  Graph.nodeIds_modifyLabel ..

theorem nodeIds_opening (start : Int) : (b.opening start).graph.nodeIds =
    b.graph.nodeIds ++ [(b.opening start).current] := Graph.nodeIds_addNode ..

theorem nodeIds_linking : (b.linking s t branch).graph.nodeIds = b.graph.nodeIds :=
  Graph.nodeIds_link ..

theorem not_contains_opening (start : Int) :
    b.graph.contains (b.opening start).current = false := b.graph.not_contains_size

theorem contains_opening (start : Int) :
    (b.opening start).graph.contains (b.opening start).current = true := by
  rw [Graph.contains_iff_label?, label?_opening, if_pos rfl]
  exact ⟨_, rfl⟩

end Labels

/-! ## The invariant -/

/-- The program of the blocks so far. -/
def program (b : Builder) (code : List Located) : Program :=
  { code := code.toArray, graph := b.graph, sentinels := .initial, jumpTargets := b.jumpTargets }

theorem isSentinel_program {n : NodeId} :
    (b.program code).isSentinel n = false ↔ n ∉ Sentinels.initial.toList := by
  rw [← List.contains_iff_mem, Bool.not_eq_true]
  rfl

/-- The code up to the instruction `i` is laid out in blocks, and the current block begins at the
instruction `a`. -/
structure Laid (code : List Located) (b : Builder) (a i : Nat) : Prop where
  graph : b.graph.Incident
  sentinels : ∀ n ∈ Sentinels.initial.toList, b.graph.contains n = true
  entry : ∃ m, (b.program code).StartsAt m 0 ∧ b.graph.Links Sentinels.initial.start m .static
  current : b.graph.label? b.current = some { opcodes := ⟨a, i⟩ }
  empty : ∀ n x, b.graph.label? n = some x → x = { opcodes := x.opcodes }
  real : b.current ∉ Sentinels.initial.toList
  le : a ≤ i
  fresh : b.fresh = true ↔ a = i
  straight : ∀ j x, a ≤ j → j < i → code[j]? = some x → x.instr.op.isBlockEnd = false
  settled : ∀ n x, b.graph.label? n = some x → n ∉ Sentinels.initial.toList → n ≠ b.current →
    ∃ s z, (b.program code).Flows code n x s z ∧ z ≤ i
  disjoint : ∀ n m j, (b.program code).Covers n j → (b.program code).Covers m j → n = m
  table : ∀ j x, j < i → code[j]? = some x → x.instr.op = .jumpdest →
    ∃ m, (b.program code).StartsAt m j ∧
      b.graph.Links Sentinels.initial.jumpTable m .dynamic ∧
      b.jumpTargets[(x.offset : Int)]? = some m
  targets : ∀ k m, b.jumpTargets[k]? = some m →
    ∃ j x, j < i ∧ code[j]? = some x ∧ x.instr.op = .jumpdest ∧ (x.offset : Int) = k

/-- What becomes of the block that takes instructions: it stays; or it ends at `z`, in front of a
jump destination or behind a block end, has its edges, and a new one begins there. -/
inductive Moves (b b' : Builder) (op : Opcode) (a i : Nat) : (z a' : Nat) → Prop where
  | stay (same : b'.current = b.current) (inner : op.isBlockEnd = false)
    (nodes : b'.graph.nodeIds = b.graph.nodeIds) : Moves b b' op a i (i + 1) a
  | split (new : b.graph.contains b'.current = false) (lt : a < i) (dest : op = .jumpdest)
    (falls : b'.graph.Links b.current b'.current .static)
    (nodes : b'.graph.nodeIds = b.graph.nodeIds ++ [b'.current]) : Moves b b' op a i i i
  | close (new : b.graph.contains b'.current = false) (last : op.isBlockEnd = true)
    (jumps : op = .jump ∨ op = .jumpi →
      b'.graph.Links b.current Sentinels.initial.jumpTable .dynamic)
    (falls : op = .jumpi → b'.graph.Links b.current b'.current .static)
    (halts : op.isTerminator = true →
      b'.graph.Links b.current Sentinels.initial.terminator .static)
    (nodes : b'.graph.nodeIds = b.graph.nodeIds ++ [b'.current]) :
    Moves b b' op a i (i + 1) (i + 1)

/-- The destination at the current block is entered in the jump table; nothing else is. -/
def Enters (b b' : Builder) (x : Located) (i a' : Nat) : Prop :=
  x.instr.op = .jumpdest ∧ a' = i ∧
      b'.graph.Links Sentinels.initial.jumpTable b'.current .dynamic ∧
      b'.jumpTargets = b.jumpTargets.insert (x.offset : Int) b'.current ∨
    x.instr.op ≠ .jumpdest ∧ b'.jumpTargets = b.jumpTargets

/-- The edges that the current block of `b` gets by an instruction. -/
def exits (b b' : Builder) : (op : Opcode) → List Graph.Edge
  | .jump => [⟨b.current, Sentinels.initial.jumpTable, .dynamic⟩]
  | .jumpi => [⟨b.current, Sentinels.initial.jumpTable, .dynamic⟩,
      ⟨b.current, b'.current, .static⟩]
  | .jumpdest => if b.fresh then [] else [⟨b.current, b'.current, .static⟩]
  | op => if op.isTerminator then [⟨b.current, Sentinels.initial.terminator, .static⟩] else []

/-- The edges that the jump table gets by an instruction. -/
def entries (b' : Builder) (op : Opcode) : List Graph.Edge :=
  if op = .jumpdest then [⟨Sentinels.initial.jumpTable, b'.current, .dynamic⟩] else []

/-- `b'` comes from `b`, whose current block begins at `a`, by taking in the `i`-th instruction. -/
structure Takes (b b' : Builder) (x : Located) (a i z a' : Nat) : Prop where
  enlarges : b.Enlarges b'
  moves : Moves b b' x.instr.op a i z a'
  label? : ∀ n, b'.graph.label? n = if n = b'.current then some { opcodes := ⟨a', i + 1⟩ }
    else if n = b.current then some { opcodes := ⟨a, z⟩ } else b.graph.label? n
  enters : Enters b b' x i a'
  edgesFrom : ∀ n, b'.graph.edgesFrom n = b.graph.edgesFrom n ++
    (if n = b.current then exits b b' x.instr.op else []) ++
    if n = Sentinels.initial.jumpTable then entries b' x.instr.op else []

/-! ## One instruction -/

namespace Takes

variable {x : Located} {a i z a' : Nat}

theorem real (ht : Takes b b' x a i z a') (h : Laid code b a i) :
    b'.current ∉ Sentinels.initial.toList := by
  cases ht.moves with
  | stay same => rw [same]; exact h.real
  | split new | close new =>
    intro hmem
    rw [h.sentinels _ hmem] at new
    cases new

/-- Blocks keep their first instruction. -/
theorem startsAt (ht : Takes b b' x a i z a') (h : Laid code b a i) {m : NodeId} {j : Nat}
    (hm : (b.program code).StartsAt m j) : (b'.program code).StartsAt m j := by
  obtain ⟨y, hy, hreal, hstart⟩ := hm
  suffices hlabel : ∃ y', b'.graph.label? m = some y' ∧ y'.opcodes.start = y.opcodes.start by
    obtain ⟨y', hy', heq⟩ := hlabel
    exact ⟨y', hy', hreal, heq.trans hstart⟩
  have hy : b.graph.label? m = some y := hy
  have hlive := Graph.contains_iff_label?.mpr ⟨y, hy⟩
  rw [ht.label?]
  by_cases hm' : m = b'.current
  · -- A live node that is current now was so before.
    subst hm'
    rw [if_pos rfl]
    cases ht.moves with
    | stay same =>
      rw [same, h.current] at hy
      cases hy
      exact ⟨_, rfl, rfl⟩
    | split new | close new =>
      rw [hlive] at new
      cases new
  · rw [if_neg hm']
    split
    · next hm =>
      rw [hm, h.current] at hy
      cases hy
      exact ⟨_, rfl, rfl⟩
    · exact ⟨y, hy, rfl⟩

theorem startsAt_current (ht : Takes b b' x a i z a') (h : Laid code b a i) :
    (b'.program code).StartsAt b'.current a' := by
  refine ⟨{ opcodes := ⟨a', i + 1⟩ }, ?_, ?_, rfl⟩
  · exact (ht.label? b'.current).trans (if_pos rfl)
  · exact isSentinel_program.mpr (ht.real h)

/-- A block that has its edges keeps them. -/
theorem flows_mono (ht : Takes b b' x a i z a') (h : Laid code b a i) {n : NodeId} {y : BasicBlock}
    {s e : Nat} (hf : (b.program code).Flows code n y s e) :
    (b'.program code).Flows code n y s e :=
  hf.mono rfl rfl (fun _ hl => ⟨ht.enlarges.links hl, fun _ => ht.startsAt h⟩)
    (fun hl => .inl (ht.enlarges.links hl)) hf.branch

/-- A block that has ended has its edges. -/
theorem flows_current (ht : Takes b b' x a i z a') (h : Laid code b a i)
    (hx : code[i]? = some x) (hne : b.current ≠ b'.current) :
    (b'.program code).Flows code b.current { opcodes := ⟨a, z⟩ } a z := by
  have hi : i < code.length := (List.getElem?_eq_some_iff.mp hx).1
  have hle := h.le
  have hstart := ht.startsAt_current h
  cases ht.moves with
  | stay same => exact absurd same.symm hne
  | split new lt dest falls =>
    have hinner : ∀ j y, a ≤ j → j < i → code[j]? = some y → y.instr.op.isBlockEnd ≠ true :=
      fun j y ha hj hy => Bool.eq_false_iff.mp (h.straight j y ha hj hy)
    refine ⟨rfl, hle, Nat.le_of_lt hi, fun _ => lt, fun j y ha hj hy => ?_,
      fun j y ha hj hy hop => ?_, fun j y ha hj hy hop => ⟨b'.current, hstart, falls⟩,
      fun j y ha hj hy hop => ?_, fun _ hmem => by cases hmem⟩
    · exact h.straight j y ha (by omega) hy
    · exact absurd (Evm.isBlockEnd_iff.mpr (.inl hop)) (hinner j y ha (by omega) hy)
    · exact absurd (Evm.isBlockEnd_iff.mpr (.inr hop)) (hinner j y ha (by omega) hy)
  | close new last jumps falls halts =>
    have hlast : ∀ {j y}, j + 1 = i + 1 → code[j]? = some y → y = x := fun hj hy => by
      obtain rfl := Nat.succ.inj hj
      exact Option.some.inj (hy.symm.trans hx)
    refine ⟨rfl, by omega, hi, fun _ => by omega, fun j y ha hj hy => ?_,
      fun j y ha hj hy hop => ?_, fun j y ha hj hy hop => ?_, fun j y ha hj hy hop => ?_,
      fun _ hmem => by cases hmem⟩
    · exact h.straight j y ha (by omega) hy
    · obtain rfl := hlast hj hy
      exact .inl (jumps hop)
    · obtain rfl := hlast hj hy
      rcases hop with hop | ⟨hop, -⟩
      · exact ⟨b'.current, hstart, falls hop⟩
      · rw [last] at hop
        cases hop
    · obtain rfl := hlast hj hy
      exact halts hop

/-- What a block covers now it covered before, except for the new instruction. -/
theorem covers (ht : Takes b b' x a i z a') (h : Laid code b a i) {n : NodeId} {j : Nat}
    (hn : (b'.program code).Covers n j) : j < i ∧ (b.program code).Covers n j ∨
      i ≤ j ∧ (n = b'.current ∧ a' ≤ i ∨ n = b.current ∧ i < z) := by
  obtain ⟨y, hy, hreal, hcontains⟩ := hn
  have hy : b'.graph.label? n = some y := hy
  have hcurrent : ∀ {e : Nat}, Span.contains ⟨a, e⟩ j = true → j < i →
      (b.program code).Covers b.current j := by
    intro e he hj
    refine ⟨_, h.current, isSentinel_program.mpr h.real, ?_⟩
    exact Program.contains_span.mpr ⟨(Program.contains_span.mp he).1, hj⟩
  rw [ht.label?] at hy
  rcases Nat.lt_or_ge j i with hj | hj
  · left
    refine ⟨hj, ?_⟩
    split at hy
    · next hn =>
      cases hy
      cases ht.moves with
      | stay same =>
        rw [hn, same]
        exact hcurrent hcontains hj
      | split | close =>
        have := (Program.contains_span.mp hcontains).1
        omega
    · split at hy
      · next hn =>
        cases hy
        rw [hn]
        exact hcurrent hcontains hj
      · exact ⟨y, hy, hreal, hcontains⟩
  · right
    refine ⟨hj, ?_⟩
    split at hy
    · next hn =>
      cases hy
      have hspan := (Program.contains_span (z := i + 1)).mp hcontains
      exact .inl ⟨hn, by omega⟩
    · split at hy
      · next hn =>
        cases hy
        have hspan := Program.contains_span.mp hcontains
        exact .inr ⟨hn, by omega⟩
      · next hn =>
        -- Blocks that have their edges end in front of the new instruction.
        obtain ⟨s, e, hf, he⟩ := h.settled n y hy (isSentinel_program.mp hreal) hn
        rw [hf.span] at hcontains
        have hspan := Program.contains_span.mp hcontains
        omega

end Takes

theorem offset_lt_of_lt (hcode : code.Pairwise fun x y => x.offset < y.offset) {j i : Nat}
    {x y : Located} (hj : j < i) (hx : code[j]? = some x) (hy : code[i]? = some y) :
    x.offset < y.offset := by
  obtain ⟨hlt, rfl⟩ := List.getElem?_eq_some_iff.mp hx
  obtain ⟨hlt', rfl⟩ := List.getElem?_eq_some_iff.mp hy
  exact List.pairwise_iff_getElem.mp hcode j i hlt hlt' hj

/-- **Taking in an instruction keeps the layout.** -/
theorem Laid.step {x : Located} {a i z a' : Nat} (h : Laid code b a i)
    (hcode : code.Pairwise fun x y => x.offset < y.offset) (hx : code[i]? = some x)
    (ht : Takes b b' x a i z a') (hlast : b'.last = some x.instr.op) :
    Laid code b' a' (i + 1) where
  graph := ht.enlarges.incident
  sentinels n hn := ht.enlarges.contains (h.sentinels n hn)
  entry := by
    obtain ⟨m, hm, hlink⟩ := h.entry
    exact ⟨m, ht.startsAt h hm, ht.enlarges.links hlink⟩
  current := (ht.label? b'.current).trans (if_pos rfl)
  empty n y hy := by
    rw [ht.label?] at hy
    split at hy
    · cases hy
      rfl
    · split at hy
      · cases hy
        rfl
      · exact h.empty n y hy
  real := ht.real h
  le := by
    have hle := h.le
    cases ht.moves <;> omega
  fresh := by
    have hle := h.le
    have hfresh : b'.fresh = x.instr.op.isBlockEnd := by
      rw [Builder.fresh, hlast]
      rfl
    rw [hfresh]
    cases ht.moves with
    | stay _ inner => exact iff_of_false (Bool.eq_false_iff.mp inner) (by omega)
    | split _ _ dest =>
      rw [dest]
      exact iff_of_false Bool.false_ne_true (by omega)
    | close _ last => exact iff_of_true last rfl
  straight j y ha hj hy := by
    rcases Nat.lt_succ_iff_lt_or_eq.mp hj with hj | rfl
    · cases ht.moves with
      | stay => exact h.straight j y ha hj hy
      | split | close => omega
    · obtain rfl := Option.some.inj (hy.symm.trans hx)
      cases ht.moves with
      | stay _ inner => exact inner
      | split _ _ dest =>
        rw [dest]
        rfl
      | close => omega
  settled n y hy hn hne := by
    rw [ht.label?, if_neg hne] at hy
    split at hy
    · next hcur =>
      cases hy
      subst hcur
      refine ⟨a, z, ht.flows_current h hx hne, ?_⟩
      cases ht.moves <;> omega
    · next hcur =>
      obtain ⟨s, e, hf, he⟩ := h.settled n y hy hn hcur
      exact ⟨s, e, ht.flows_mono h hf, Nat.le_succ_of_le he⟩
  disjoint n m j hn hm := by
    rcases ht.covers h hn with ⟨hj, hn⟩ | ⟨hj, hn⟩ <;>
      rcases ht.covers h hm with ⟨hj', hm⟩ | ⟨hj', hm⟩
    · exact h.disjoint n m j hn hm
    · omega
    · omega
    · -- Only one block takes the new instruction.
      rcases hn with ⟨rfl, hn⟩ | ⟨rfl, hn⟩ <;> rcases hm with ⟨rfl, hm⟩ | ⟨rfl, hm⟩
      · rfl
      · cases ht.moves with
        | stay same => exact same
        | split | close => omega
      · cases ht.moves with
        | stay same => exact same.symm
        | split | close => omega
      · rfl
  table j y hj hy hop := by
    rcases Nat.lt_succ_iff_lt_or_eq.mp hj with hj | rfl
    · obtain ⟨m, hm, hlink, hget⟩ := h.table j y hj hy hop
      refine ⟨m, ht.startsAt h hm, ht.enlarges.links hlink, ?_⟩
      rcases ht.enters with ⟨-, -, -, hinsert⟩ | ⟨-, hsame⟩
      · have hlt := offset_lt_of_lt hcode hj hy hx
        rw [hinsert, Std.TreeMap.getElem?_insert, if_neg, hget]
        rw [Std.LawfulEqCmp.compare_eq_iff_eq]
        omega
      · rw [hsame, hget]
    · obtain rfl := Option.some.inj (hy.symm.trans hx)
      rcases ht.enters with ⟨-, rfl, hlink, hinsert⟩ | ⟨hne, -⟩
      · refine ⟨b'.current, ht.startsAt_current h, hlink, ?_⟩
        rw [hinsert, Std.TreeMap.getElem?_insert_self]
      · exact absurd hop hne
  targets k m hk := by
    rcases ht.enters with ⟨hop, -, -, hinsert⟩ | ⟨-, hsame⟩
    · rw [hinsert, Std.TreeMap.getElem?_insert] at hk
      split at hk
      · next heq =>
        rw [Std.LawfulEqCmp.compare_eq_iff_eq] at heq
        exact ⟨i, x, Nat.lt_succ_self i, hx, hop, heq⟩
      · obtain ⟨j, y, hj, hy⟩ := h.targets k m hk
        exact ⟨j, y, Nat.lt_succ_of_lt hj, hy⟩
    · rw [hsame] at hk
      obtain ⟨j, y, hj, hy⟩ := h.targets k m hk
      exact ⟨j, y, Nat.lt_succ_of_lt hj, hy⟩

/-- The target of an offset begins at the jump destination there. -/
theorem Laid.exists_startsAt {a i : Nat} (h : Laid code b a i) {k : Int} {m : NodeId}
    (hk : b.jumpTargets[k]? = some m) :
    ∃ j x, j < i ∧ code[j]? = some x ∧ x.instr.op = .jumpdest ∧ (x.offset : Int) = k ∧
      (b.program code).StartsAt m j := by
  obtain ⟨j, x, hj, hx, hop, rfl⟩ := h.targets k m hk
  obtain ⟨m', hm', -, hget⟩ := h.table j x hj hx hop
  obtain rfl := Option.some.inj (hk.symm.trans hget)
  exact ⟨j, x, hj, hx, hop, rfl, hm'⟩

/-! ## The cases of an instruction -/

section Visit

variable {x : Located} {a i : Nat}

theorem exits_of_inner {op : Opcode} (hop : op ≠ .jumpdest) (hend : op.isBlockEnd = false) :
    exits b b' op = [] := by
  unfold exits
  split
  · cases hend
  · cases hend
  · exact absurd rfl hop
  · refine if_neg fun hhalt => ?_
    rw [Evm.isBlockEnd_iff.mpr (.inr hhalt)] at hend
    cases hend

theorem exits_of_isTerminator {op : Opcode} (hhalt : op.isTerminator = true) :
    exits b b' op = [⟨b.current, Sentinels.initial.terminator, .static⟩] := by
  unfold exits
  split
  · cases hhalt
  · cases hhalt
  · cases hhalt
  · exact if_pos hhalt

theorem entries_of_ne {op : Opcode} (hop : op ≠ .jumpdest) : entries b' op = [] := if_neg hop

theorem Laid.contains_current (h : Laid code b a i) : b.graph.contains b.current = true :=
  Graph.contains_iff_label?.mpr ⟨_, h.current⟩

theorem Laid.label?_extend (h : Laid code b a i) (n : NodeId) :
    (b.extend (i + 1)).graph.label? n =
      if n = b.current then some { opcodes := ⟨a, i + 1⟩ } else b.graph.label? n := by
  rw [Builder.label?_extend]
  split
  · next hn =>
    rw [hn, h.current]
    rfl
  · rfl

theorem label?_opening_extend (b : Builder) (i : Nat) (n : NodeId) :
    ((b.opening i).extend (i + 1)).graph.label? n =
      if n = (b.opening i).current then some { opcodes := ⟨i, i + 1⟩ } else b.graph.label? n := by
  rw [Builder.label?_extend, label?_opening]
  split <;> rfl

theorem Laid.takes_extend (h : Laid code b a i) (hop : x.instr.op ≠ .jumpdest)
    (hend : x.instr.op.isBlockEnd = false) :
    Takes b (b.extend (i + 1)) x a i (i + 1) a where
  enlarges := extend_enlarges h.graph _
  moves := .stay rfl hend (nodeIds_extend ..)
  label? n := by
    rw [h.label?_extend]
    split
    · next hn => exact (if_pos hn).symm
    · next hn => exact (if_neg hn).symm
  enters := .inr ⟨hop, rfl⟩
  edgesFrom n := by
    rw [edgesFrom_extend, exits_of_inner hop hend, entries_of_ne hop]
    simp

theorem Laid.takes_destination (h : Laid code b a i) (hop : x.instr.op = .jumpdest)
    (hfresh : b.fresh = true) :
    Takes b ((b.extend (i + 1)).destination x.offset) x a i (i + 1) a := by
  have hextend := extend_enlarges h.graph (i + 1)
  have htable := hextend.contains (h.sentinels Sentinels.initial.jumpTable (by decide))
  have hcur := hextend.contains h.contains_current
  have hlink := linking_enlarges .dynamic hextend.incident htable hcur
  obtain rfl := h.fresh.mp hfresh
  refine ⟨⟨hlink.incident, (hextend.trans hlink).links, (hextend.trans hlink).contains⟩,
    .stay rfl (by rw [hop]; rfl) ((nodeIds_linking ..).trans (nodeIds_extend ..)), fun n => ?_,
    .inl ⟨hop, rfl, links_linking _ hextend.incident htable hcur, rfl⟩, fun n => ?_⟩
  · refine (label?_linking _ n _ _ _).trans ?_
    rw [h.label?_extend]
    split
    · next hn => exact (if_pos hn).symm
    · next hn => exact (if_neg hn).symm
  · refine (edgesFrom_linking _ hextend.incident htable n).trans ?_
    rw [edgesFrom_extend, hop]
    simp [exits, entries, hfresh, destination, linking, extend]

/-- A block that grows over an instruction and gives it up again is as before. -/
theorem Laid.label?_giveUp (h : Laid code b a i) (n : NodeId) :
    ((b.extend (i + 1)).extend i).graph.label? n = b.graph.label? n := by
  rw [Builder.label?_extend, h.label?_extend]
  change (if n = b.current then _ else _) = _
  split
  · next hn =>
    rw [hn, h.current]
    rfl
  · rfl

theorem Laid.takes_split (h : Laid code b a i) (hop : x.instr.op = .jumpdest)
    (hfresh : b.fresh = false) {d c : Builder} (hd : d = (b.extend (i + 1)).extend i)
    (hc : c = (d.opening i).extend (i + 1)) :
    Takes b ((c.linking b.current c.current .static).destination x.offset) x a i i i := by
  have hgrown := extend_enlarges h.graph (i + 1)
  have hgiven := extend_enlarges hgrown.incident i
  rw [← hd] at hgiven
  have hopening := opening_enlarges hgiven.incident i
  have hextend := extend_enlarges hopening.incident (i + 1)
  have hnew := hextend.contains (d.contains_opening i)
  have hcurrent : c.current = (d.opening i).current := by rw [hc]; rfl
  have hnodes : d.graph.nodeIds = b.graph.nodeIds := by rw [hd, nodeIds_extend, nodeIds_extend]
  rw [← hc] at hextend hnew
  rw [← hcurrent] at hnew
  have hold := (hgrown.trans hgiven).trans (hopening.trans hextend)
  have hfalls := linking_enlarges .static hold.incident (hold.contains h.contains_current) hnew
  have htable := (hold.trans hfalls).contains (h.sentinels Sentinels.initial.jumpTable (by decide))
  have hlink := linking_enlarges .dynamic hfalls.incident htable (hfalls.contains hnew)
  have hall := (hold.trans hfalls).trans hlink
  have hlt : a < i := by
    have hne : a ≠ i := fun heq => by
      rw [h.fresh.mpr heq] at hfresh
      cases hfresh
    have := h.le
    omega
  refine ⟨⟨hall.incident, hall.links, hall.contains⟩, .split ?_ hlt hop ?_ ?_,
    fun n => ?_, .inl ⟨hop, rfl, ?_, ?_⟩, fun n => ?_⟩
  · refine Bool.eq_false_iff.mpr fun hmem => ?_
    have hstale := d.not_contains_opening i
    rw [← hcurrent] at hstale
    cases hstale.symm.trans ((hgrown.trans hgiven).contains hmem)
  · exact hlink.links (links_linking _ hold.incident (hold.contains h.contains_current) hnew)
  · refine (nodeIds_linking ..).trans ((nodeIds_linking ..).trans ?_)
    rw [hc, nodeIds_extend, nodeIds_opening, hnodes]
    rfl
  · refine (label?_linking _ n _ _ _).trans ((label?_linking _ n _ _ _).trans ?_)
    change c.graph.label? n = if n = c.current then _ else _
    rw [hcurrent, hc, label?_opening_extend, hd, h.label?_giveUp]
    split
    · rfl
    · split
      · next hn => rw [hn, h.current]
      · rfl
  · exact links_linking _ hfalls.incident htable (hfalls.contains hnew)
  · rw [hc, hd]
    rfl
  · refine (edgesFrom_linking _ hfalls.incident htable n).trans ?_
    rw [edgesFrom_linking _ hold.incident (hold.contains h.contains_current)]
    have hc' : c.graph.edgesFrom n = b.graph.edgesFrom n := by
      rw [hc, edgesFrom_extend, edgesFrom_opening, hd, edgesFrom_extend, edgesFrom_extend]
    rw [hc', hop]
    simp [exits, entries, hfresh, destination, linking]

/-- A block that ends behind an instruction, with an edge to a synthetic node. -/
theorem Laid.closes (h : Laid code b a i) {t : NodeId} (branch : Branch)
    (ht : t ∈ Sentinels.initial.toList) {c : Builder}
    (hc : c = ((b.extend (i + 1)).linking b.current t branch).opening (i + 1)) :
    b.Enlarges c ∧ c.graph.Links b.current t branch ∧ b.graph.contains c.current = false ∧
      (∀ n, c.graph.label? n = if n = c.current then some { opcodes := ⟨i + 1, i + 1⟩ }
        else if n = b.current then some { opcodes := ⟨a, i + 1⟩ } else b.graph.label? n) ∧
      c.graph.nodeIds = b.graph.nodeIds ++ [c.current] ∧
      ∀ n, c.graph.edgesFrom n =
        b.graph.edgesFrom n ++ if n = b.current then [⟨b.current, t, branch⟩] else [] := by
  have hextend := extend_enlarges h.graph (i + 1)
  have hs := hextend.contains h.contains_current
  have ht := hextend.contains (h.sentinels t ht)
  have hlink := linking_enlarges branch hextend.incident hs ht
  have hopening := opening_enlarges hlink.incident (i + 1)
  have hnew := ((b.extend (i + 1)).linking b.current t branch).not_contains_opening (i + 1)
  rw [← hc] at hopening hnew
  refine ⟨(hextend.trans hlink).trans hopening, ?_, ?_, fun n => ?_, ?_, fun n => ?_⟩
  · exact hopening.links (links_linking _ hextend.incident hs ht)
  · refine Bool.eq_false_iff.mpr fun hmem => ?_
    rw [(hextend.trans hlink).contains hmem] at hnew
    cases hnew
  · rw [hc, label?_opening, label?_linking, h.label?_extend]
    rfl
  · rw [hc, nodeIds_opening, nodeIds_linking, nodeIds_extend]
  · rw [hc, edgesFrom_opening, edgesFrom_linking _ hextend.incident hs, edgesFrom_extend]

theorem Laid.takes_close (h : Laid code b a i) {t : NodeId} {branch : Branch}
    (ht : t ∈ Sentinels.initial.toList) (hend : x.instr.op.isBlockEnd = true)
    (hop : x.instr.op = .jump ∧ t = Sentinels.initial.jumpTable ∧ branch = .dynamic ∨
      x.instr.op.isTerminator = true ∧ t = Sentinels.initial.terminator ∧ branch = .static) :
    Takes b (((b.extend (i + 1)).linking b.current t branch).opening (i + 1)) x a i
      (i + 1) (i + 1) := by
  obtain ⟨henlarges, hlink, hnew, hlabel, hnodes, hedges⟩ := h.closes branch ht rfl
  have hdest : x.instr.op ≠ .jumpdest := by
    intro hdest
    rw [hdest] at hend
    cases hend
  refine ⟨henlarges, .close hnew hend (fun hjump => ?_) (fun hjumpi => ?_) (fun hhalt => ?_) hnodes,
    hlabel, .inr ⟨hdest, rfl⟩, fun n => ?_⟩
  · rcases hop with ⟨-, rfl, rfl⟩ | ⟨hhalt, -⟩
    · exact hlink
    · rcases hjump with hjump | hjump <;> rw [hjump] at hhalt <;> cases hhalt
  · rcases hop with ⟨hop, -⟩ | ⟨hhalt, -⟩
    · rw [hjumpi] at hop
      cases hop
    · rw [hjumpi] at hhalt
      cases hhalt
  · rcases hop with ⟨hop, -⟩ | ⟨-, rfl, rfl⟩
    · rw [hop] at hhalt
      cases hhalt
    · exact hlink
  · rw [hedges, entries_of_ne hdest]
    rcases hop with ⟨hop, rfl, rfl⟩ | ⟨hhalt, rfl, rfl⟩
    · rw [hop]
      simp [exits]
    · rw [exits_of_isTerminator hhalt]
      simp

theorem Laid.takes_jumpi (h : Laid code b a i) (hop : x.instr.op = .jumpi) {c : Builder}
    (hc : c = ((b.extend (i + 1)).linking b.current Sentinels.initial.jumpTable .dynamic).opening
      (i + 1)) :
    Takes b (c.linking b.current c.current .static) x a i (i + 1) (i + 1) := by
  obtain ⟨henlarges, hlink, hnew, hlabel, hnodes, hedges⟩ := h.closes .dynamic (by decide) hc
  have hs := henlarges.contains h.contains_current
  have ht : c.graph.contains c.current = true := by rw [hc]; exact contains_opening _ _
  have hfalls := linking_enlarges .static henlarges.incident hs ht
  refine ⟨henlarges.trans hfalls, .close hnew (by rw [hop]; rfl) (fun _ => hfalls.links hlink)
    (fun _ => links_linking _ henlarges.incident hs ht) (fun hhalt => ?_)
    ((nodeIds_linking ..).trans hnodes), fun n => ?_,
    .inr ⟨fun hdest => ?_, by rw [hc]; rfl⟩, fun n => ?_⟩
  · rw [hop] at hhalt
    cases hhalt
  · exact (label?_linking _ n _ _ _).trans (hlabel n)
  · rw [hop] at hdest
    cases hdest
  · rw [edgesFrom_linking _ henlarges.incident hs, hedges, hop]
    by_cases hn : n = b.current <;> simp [hn, exits, entries, linking]

theorem Laid.takes_place (h : Laid code b a i) (x : Located) :
    ∃ z a', Takes b (b.place i x) x a i z a' := by
  unfold place
  dsimp only
  split
  · next hop =>
    split
    · next hfresh => exact ⟨_, _, h.takes_destination hop hfresh⟩
    · next hfresh => exact ⟨_, _, h.takes_split hop (Bool.eq_false_iff.mpr hfresh) rfl rfl⟩
  · next hop =>
    exact ⟨_, _, h.takes_close (by decide) (by rw [hop]; rfl) (.inl ⟨hop, rfl, rfl⟩)⟩
  · next hop => exact ⟨_, _, h.takes_jumpi hop rfl⟩
  · next hdest hjump hjumpi =>
    split
    · next hhalt =>
      exact ⟨_, _, h.takes_close (by decide) (Evm.isBlockEnd_iff.mpr (.inr hhalt))
        (.inr ⟨hhalt, rfl, rfl⟩)⟩
    · next hhalt =>
      refine ⟨_, _, h.takes_extend hdest (Bool.eq_false_iff.mpr fun hend => ?_)⟩
      rcases Evm.isBlockEnd_iff.mp hend with (hop | hop) | hop
      · exact hjump hop
      · exact hjumpi hop
      · exact hhalt hop

/-- Which opcode came last makes no difference to what has been taken in. -/
theorem Takes.visit {z a' : Nat} (ht : Takes b (b.place i x) x a i z a') :
    Takes b (b.visit i x) x a i z a' where
  enlarges := ⟨ht.enlarges.incident, ht.enlarges.links, ht.enlarges.contains⟩
  moves := by
    cases ht.moves with
    | stay same inner nodes => exact .stay same inner nodes
    | split new lt dest falls nodes => exact .split new lt dest falls nodes
    | close new last jumps falls halts nodes => exact .close new last jumps falls halts nodes
  label? := ht.label?
  enters := ht.enters
  edgesFrom := ht.edgesFrom

end Visit

/-! ## The walk -/

/-- What every instruction keeps, the walk keeps together with the layout. -/
theorem Laid.visitAll (hcode : code.Pairwise fun x y => x.offset < y.offset)
    {P : Builder → Nat → Nat → Prop}
    (hstep : ∀ {b b' x a i z a'}, Laid code b a i → code[i]? = some x → Takes b b' x a i z a' →
      P b a i → P b' a' (i + 1))
    {rest : List Located} {a i : Nat} (h : Laid code b a i) (hP : P b a i)
    (hrest : code.drop i = rest) (hi : i ≤ code.length) :
    ∃ a', Laid code (b.visitAll i rest) a' code.length ∧
      P (b.visitAll i rest) a' code.length := by
  induction rest generalizing b a i with
  | nil =>
    obtain rfl := Nat.le_antisymm hi (List.drop_eq_nil_iff.mp hrest)
    exact ⟨a, h, hP⟩
  | cons x rest ih =>
    have hx : code[i]? = some x := by
      rw [← Nat.add_zero i, ← List.getElem?_drop, hrest]
      rfl
    obtain ⟨z, a', ht⟩ := h.takes_place x
    refine ih (h.step hcode hx ht.visit rfl) (hstep h hx ht.visit hP) ?_
      (List.getElem?_eq_some_iff.mp hx).1
    rw [← List.drop_drop, hrest]
    rfl

theorem incident_initial : initial.graph.Incident := by
  let nodes : Graph BasicBlock :=
    (List.replicate 5 (.startingAt 0)).foldl (fun g b => (g.addNode b).2) {}
  have hnodes : nodes.Incident :=
    List.foldlRecOn _ _ Graph.Built.empty.incident fun _ hg b _ => hg.addNode b
  have hstart := linking_enlarges (b := ⟨nodes, 4, none, {}⟩) (s := 0) (t := 4) .static hnodes
    (by decide) (by decide)
  have hinvalid := linking_enlarges (s := 3) (t := 2) .static hstart.incident (by decide)
    (by decide)
  exact (linking_enlarges (s := 1) (t := 3) .dynamic hinvalid.incident (by decide)
    (by decide)).incident

theorem of_label?_initial {n : NodeId} {x : BasicBlock} (h : initial.graph.label? n = some x) :
    (n ∈ Sentinels.initial.toList ∨ n = initial.current) ∧ x = .startingAt 0 := by
  obtain ⟨v, hv, rfl⟩ := Option.map_eq_some_iff.mp h
  obtain ⟨i, rfl, hi⟩ := Graph.exists_of_node? hv
  have hlt : i < 5 := (Array.getElem?_eq_some_iff.mp hi).1
  interval_cases i <;> cases hi <;> exact ⟨by decide, rfl⟩

theorem laid_initial (code : List Located) : Laid code initial 0 0 where
  graph := incident_initial
  sentinels := by decide
  entry := by
    refine ⟨4, ⟨.startingAt 0, rfl, rfl, rfl⟩, ?_⟩
    exact ⟨_, 0, rfl, by decide, rfl⟩
  current := rfl
  empty n x hx := by
    rw [(of_label?_initial hx).2]
    rfl
  real := by decide
  le := Nat.le_refl 0
  fresh := ⟨fun _ => rfl, fun _ => rfl⟩
  straight j x ha hj := absurd hj (Nat.not_lt_zero j)
  settled n x hx hreal hne := absurd (of_label?_initial hx).1 (not_or.mpr ⟨hreal, hne⟩)
  disjoint n m j hn := by
    obtain ⟨x, hx, -, hcontains⟩ := hn
    rw [(of_label?_initial hx).2] at hcontains
    exact absurd ((Program.contains_span (z := 0)).mp hcontains).2 (Nat.not_lt_zero j)
  table j x hj := absurd hj (Nat.not_lt_zero j)
  targets k m hk := by
    have hk : (∅ : JumpTargets)[k]? = some m := hk
    simp at hk

/-- When all instructions are taken in, the current block has no edges to be given. -/
theorem Laid.tracks {a : Nat} (h : Laid code b a code.length) : (b.program code).Tracks code where
  instrs := rfl
  graph := h.graph
  symbols := SymbolTable.consistent_empty
  entry := h.entry
  block n x hx hreal := by
    by_cases hn : n = b.current
    · subst hn
      obtain rfl := Option.some.inj (h.current.symm.trans hx)
      have hinner : ∀ j y, a ≤ j → j + 1 = code.length → code[j]? = some y →
          y.instr.op.isBlockEnd ≠ true :=
        fun j y ha hj hy => Bool.eq_false_iff.mp (h.straight j y ha (by omega) hy)
      refine ⟨a, code.length, rfl, h.le, Nat.le_refl _, id,
        fun j y ha hj hy => h.straight j y ha (by omega) hy, fun j y ha hj hy hop => ?_,
        fun j y ha hj hy hop => ?_, fun j y ha hj hy hop => ?_, fun _ hmem => by cases hmem⟩
      · exact absurd (Evm.isBlockEnd_iff.mpr (.inl hop)) (hinner j y ha hj hy)
      · rcases hop with hop | ⟨-, hlt⟩
        · exact absurd (Evm.isBlockEnd_iff.mpr (.inl (.inr hop))) (hinner j y ha hj hy)
        · exact absurd hlt (Nat.lt_irrefl _)
      · exact absurd (Evm.isBlockEnd_iff.mpr (.inr hop)) (hinner j y ha hj hy)
    · obtain ⟨s, z, hf, -⟩ := h.settled n x hx (isSentinel_program.mp hreal) hn
      exact ⟨s, z, hf⟩
  disjoint := h.disjoint
  table n hreal hlink j x hx hop := h.table j x (List.getElem?_eq_some_iff.mp hx).1 hx hop
  targets k m hk := by
    obtain ⟨j, x, -, hx, hop, hoffset⟩ := h.targets k m hk
    exact ⟨x, List.mem_of_getElem? hx, hop, hoffset⟩

end Builder

/-! ## New programs -/

theorem le_offset_of_mem_locate {instrs : List Instr} {k : Nat} {x : Located}
    (hx : x ∈ locate k instrs) : k ≤ x.offset := by
  induction instrs generalizing k with
  | nil => cases hx
  | cons instr rest ih =>
    rcases List.mem_cons.mp hx with rfl | hx
    · exact Nat.le_refl k
    · exact Nat.le_trans (Nat.le_add_right ..) (ih hx)

theorem pairwise_locate (instrs : List Instr) (k : Nat) :
    (locate k instrs).Pairwise fun x y => x.offset < y.offset := by
  induction instrs generalizing k with
  | nil => exact .nil
  | cons instr rest ih =>
    refine .cons (fun y hy => ?_) (ih _)
    have hle := le_offset_of_mem_locate hy
    unfold Instr.length at hle
    dsimp only
    omega

namespace Program

variable {p : Program} {code : List Located}

/-- The whole code is laid out in blocks, with all that every instruction keeps. -/
theorem exists_laid_and (instrs : List Instr) {P : Builder → Nat → Nat → Prop}
    (hP : P .initial 0 0)
    (hstep : ∀ {b b' x a i z a'}, Builder.Laid (locate 0 instrs) b a i →
      (locate 0 instrs)[i]? = some x → Builder.Takes b b' x a i z a' → P b a i → P b' a' (i + 1)) :
    ∃ (b : Builder) (a : Nat), Builder.Laid (locate 0 instrs) b a (locate 0 instrs).length ∧
      P b a (locate 0 instrs).length ∧ ofInstrs instrs = b.program (locate 0 instrs) := by
  obtain ⟨a, h, hb⟩ := (Builder.laid_initial (locate 0 instrs)).visitAll (pairwise_locate instrs 0)
    hstep hP rfl (Nat.zero_le _)
  exact ⟨_, a, h, hb, rfl⟩

theorem exists_laid (instrs : List Instr) :
    ∃ (b : Builder) (a : Nat), Builder.Laid (locate 0 instrs) b a (locate 0 instrs).length ∧
      ofInstrs instrs = b.program (locate 0 instrs) := by
  obtain ⟨b, a, h, -, heq⟩ := exists_laid_and instrs (P := fun _ _ _ => True) trivial
    fun _ _ _ _ => trivial
  exact ⟨b, a, h, heq⟩

theorem tracks_ofInstrs (instrs : List Instr) : (ofInstrs instrs).Tracks (locate 0 instrs) := by
  obtain ⟨b, a, h, heq⟩ := exists_laid instrs
  rw [heq]
  exact h.tracks

/-- A block can be filled with code. All branches of flat code go to temporaries. -/
theorem Tracks.exists_lowerBlock (h : p.Tracks code) {n : NodeId} (hn : n ∈ p.blocks) :
    ∃ q, p.lowerBlock n = .ok q ∧ q.Tracks code ∧ q.blocks = p.blocks := by
  obtain ⟨hlive, hreal⟩ := mem_blocks.mp hn
  obtain ⟨b, hb⟩ := Graph.contains_iff_label?.mp hlive
  obtain ⟨a, z, hflows⟩ := h.block n b hb hreal
  have hleads := FlatStack.lowerAll_leads h.symbols (.block n) (code.extract a z)
  refine ⟨_, bind_eq_ok.mpr ⟨_, h.opcodes_eq hb hflows, rfl⟩, ?_, ?_⟩
  · have hcode := h.withCode (n := n) (f := fun b => { b with instructions :=
      (FlatStack.lowerAll p.symbols (.block n) (code.extract a z)).2.out.toList }) (fun _ => rfl)
      hleads.enlarges.grows hleads.consistent fun b' a' z' _ _ i hi target htarget => ?_
    · exact hcode.withSymbols rfl (.refl _) hleads.consistent
    · rcases hleads.branch i (Array.mem_toList_iff.mp hi) with hi | hi
      · cases Array.mem_toList_iff.mpr hi
      · exact ⟨(hi target htarget).knows, fun w hw => absurd hw (hi target htarget).not_isConstant⟩
  · unfold blocks
    dsimp only [modifyBlock]
    rw [Graph.nodeIds_modifyLabel]
    rfl

/-- **Every code has a program**, which follows its control. -/
theorem exists_build (instrs : List Instr) :
    ∃ p, build instrs = .ok p ∧ p.Tracks (locate 0 instrs) := by
  have hstep : ∀ n ∈ (ofInstrs instrs).blocks, ∀ q : Program,
      q.Tracks (locate 0 instrs) ∧ q.blocks = (ofInstrs instrs).blocks →
        ∃ r, q.lowerBlock n = .ok r ∧ r.Tracks (locate 0 instrs) ∧
          r.blocks = (ofInstrs instrs).blocks := by
    rintro n hn q ⟨hq, hblocks⟩
    rw [← hblocks] at hn ⊢
    exact hq.exists_lowerBlock hn
  obtain ⟨p, hp, ht, -⟩ := exists_foldlM hstep ⟨tracks_ofInstrs instrs, rfl⟩
  exact ⟨p, hp, ht⟩

end Program

end EvmFlow
