import EvmFlow.Proofs.PushConstants

/-!
# Splitting code into blocks

A new program has its code in blocks, each of them lowered on its own. The walk over the blocks
carries the table of symbols along, so that the blocks put together have the code that the
instructions have without any blocks; only the scopes of the symbols show where a block ends. The
instructions that have no lowering are recorded on the way, and no pass touches that record.

* `SymbolTable.SameSymbols`: tables that agree but for scopes;
* `Flat.Uniform`, `Flat.Uniform.closed`: flat code depends on neither scopes nor the code so far;
* `Opcode.isGap`, `Located.gap`, `Flat.lowerCode_fst`: the instructions without a lowering;
* `Tiles.flatMap_slice`: the instructions of consecutive ranges, put together;
* `Program.SplitsCode`, `Program.splitsCode_foldlM`: what lowering block by block makes;
* `Program.gaps_run`, `Program.gaps_runAll`: passes keep the gaps;
* **`Program.build_lowers_whole`**: a new program has the flat code of the whole instruction list
  and all its gaps, which it keeps.
-/

namespace EvmFlow

/-! ## Tables but for scopes -/

namespace SymbolTable

/-- Tables with the same symbols under the same handles. The symbols may belong to different
scopes. -/
structure SameSymbols (t t' : SymbolTable) : Prop where
  entries : t.entries.toList.map SymbolEntry.symbol = t'.entries.toList.map SymbolEntry.symbol
  globals : t.globals = t'.globals
  shares : t.shares = t'.shares

namespace SameSymbols

variable {t t' : SymbolTable}

theorem refl (t : SymbolTable) : t.SameSymbols t := ⟨rfl, rfl, rfl⟩

theorem size (h : t.SameSymbols t') : t.entries.size = t'.entries.size := by
  have := congrArg List.length h.entries
  rwa [List.length_map, List.length_map, Array.length_toList, Array.length_toList] at this

theorem insert_fst (h : t.SameSymbols t') (sc sc' : Scope) (s : Symbol) :
    (t.insert sc s).1 = (t'.insert sc' s).1 := congrArg Int.ofNat h.size

theorem insert_snd (h : t.SameSymbols t') (sc sc' : Scope) (s : Symbol) :
    (t.insert sc s).2.SameSymbols (t'.insert sc' s).2 where
  entries := by
    change (t.entries.push _).toList.map _ = (t'.entries.push _).toList.map _
    rw [Array.toList_push, Array.toList_push, List.map_append, List.map_append, h.entries]
    rfl
  globals := h.globals
  shares := h.shares

theorem puts {u u' : SymbolTable} {s : Symbol} (h : t.SameSymbols t') (hu : t.Puts s u)
    (hu' : t'.Puts s u') :
    u.entries.toList.map SymbolEntry.symbol = u'.entries.toList.map SymbolEntry.symbol := by
  rw [hu.entries, hu'.entries]
  exact (h.insert_snd .program .program s).entries

theorem global (h : t.SameSymbols t') (g : Global) :
    (t.global g).1 = (t'.global g).1 ∧ (t.global g).2.SameSymbols (t'.global g).2 := by
  cases hg : t.globals.lookup g with
  | some ref =>
    rw [global_of_isGlobal hg, global_of_isGlobal (h.globals ▸ hg)]
    exact ⟨rfl, h⟩
  | none =>
    obtain ⟨u, heq, hputs, hglobals, hshares⟩ := global_of_none hg
    obtain ⟨u', heq', hputs', hglobals', hshares'⟩ := global_of_none (h.globals ▸ hg)
    have hsize := h.insert_fst .program .program g.symbol
    rw [heq, heq']
    refine ⟨hsize, h.puts hputs hputs', ?_, ?_⟩
    · rw [hglobals, hglobals', h.globals]
      exact congrArg (fun ref => (g, ref) :: t'.globals) hsize
    · rw [hshares, hshares', h.shares]

theorem constant (h : t.SameSymbols t') (w : Word) (type : TypeHint) :
    (t.constant w type).1 = (t'.constant w type).1 ∧
      (t.constant w type).2.SameSymbols (t'.constant w type).2 := by
  cases hs : t.shares.get? (.constant w type) with
  | some ref =>
    rw [constant_of_held hs, constant_of_held (h.shares ▸ hs)]
    exact ⟨rfl, h⟩
  | none =>
    obtain ⟨u, heq, hputs, hglobals, hshares⟩ := constant_of_free hs
    obtain ⟨u', heq', hputs', hglobals', hshares'⟩ := constant_of_free (h.shares ▸ hs)
    have hsize := h.insert_fst .program .program (.constant w type)
    rw [heq, heq']
    refine ⟨hsize, h.puts hputs hputs', ?_, ?_⟩
    · rw [hglobals, hglobals', h.globals]
    · rw [hshares, hshares', h.shares]
      exact congrArg (t'.shares.share (.constant w type)) hsize

end SameSymbols

end SymbolTable

/-! ## Flat code -/

/-- A computation on the flat model that returns the same and emits the same code in all states with
the same symbols, whatever scope new symbols get and whatever code there is. -/
def Flat.Uniform {α : Type} (x : Flat α) : Prop :=
  ∀ s s' : FlatStack, s.symbols.SameSymbols s'.symbols →
    (x s).1 = (x s').1 ∧ (x s).2.symbols.SameSymbols (x s').2.symbols ∧
      ∃ code, (x s).2.out.toList = s.out.toList ++ code ∧
        (x s').2.out.toList = s'.out.toList ++ code

namespace Flat.Uniform

variable {α β : Type} {x : Flat α} {f : α → Flat β}

theorem pure (a : α) : Uniform (Pure.pure a : Flat α) := by
  intro s s' h
  refine ⟨rfl, h, [], ?_, ?_⟩ <;> exact (List.append_nil _).symm

theorem bind (hx : Uniform x) (hf : ∀ a, Uniform (f a)) : Uniform (x >>= f) := by
  intro s s' h
  rw [Flat.bind_apply, Flat.bind_apply]
  obtain ⟨hval, hsame, code, hout, hout'⟩ := hx s s' h
  rw [hval]
  obtain ⟨hval, hsame, code', hnext, hnext'⟩ := hf (x s').1 _ _ hsame
  exact ⟨hval, hsame, code ++ code', by rw [hnext, hout, List.append_assoc],
    by rw [hnext', hout', List.append_assoc]⟩

theorem temporary : Uniform Flat.temporary := fun s s' h =>
  ⟨h.insert_fst s.scope s'.scope .temporary, h.insert_snd s.scope s'.scope .temporary, [],
    (List.append_nil _).symm, (List.append_nil _).symm⟩

theorem global (g : Global) : Uniform (Flat.global g) := fun _ _ h =>
  ⟨(h.global g).1, (h.global g).2, [], (List.append_nil _).symm, (List.append_nil _).symm⟩

theorem constant (w : Word) (type : TypeHint) : Uniform (Flat.constant w type) := fun _ _ h =>
  ⟨(h.constant w type).1, (h.constant w type).2, [], (List.append_nil _).symm,
    (List.append_nil _).symm⟩

theorem emit (i : Instruction) : Uniform (Flat.emit i) := fun _ _ h =>
  ⟨rfl, h, [i], Array.toList_push, Array.toList_push⟩

theorem step (op : Operator) : Uniform (Flat.step op) :=
  (global _).bind fun _ => (constant _ _).bind fun _ => emit _

theorem load (index : SymbolRef) : Uniform (Flat.load index) :=
  temporary.bind fun _ => (global _).bind fun _ => (emit _).bind fun _ => pure _

theorem indexOf (n : Nat) : Uniform (Flat.indexOf n) :=
  temporary.bind fun _ => (global _).bind fun _ => (constant _ _).bind fun _ =>
    (emit _).bind fun _ => pure _

theorem pop : Uniform Flat.pop :=
  (step _).bind fun _ => (global _).bind fun _ => load _

theorem push (ref : SymbolRef) : Uniform (Flat.push ref) :=
  (global _).bind fun _ => (global _).bind fun _ => (emit _).bind fun _ => step _

theorem dup (n : Nat) : Uniform (Flat.dup n) :=
  (indexOf n).bind fun _ => (load _).bind fun _ => push _

theorem swap (n : Nat) : Uniform (Flat.swap n) :=
  (global _).bind fun _ => (indexOf _).bind fun _ => (indexOf _).bind fun _ =>
    (load _).bind fun _ => (load _).bind fun _ => (emit _).bind fun _ => emit _

/-- All operations of the flat model are uniform. -/
theorem closed : Closed Flat @Uniform where
  pure := pure
  bind := bind
  temporary := temporary
  constant w type _ := constant w type
  global := global
  emit i _ := emit i
  pop := pop
  push := push
  drop := step _
  dup := dup
  swap := swap
  fold _ _ := pure _
  jump := pop.bind fun _ => emit _
  jumpIf := pop.bind fun _ => pop.bind fun _ => emit _

end Flat.Uniform

/-! ## Gaps -/

/-- There is no lowering for an opcode. -/
def Opcode.isGap (op : Opcode) : Bool := op.lowering?.isNone

/-- The record of an instruction that has no lowering. -/
def Located.gap (i : Located) : Gap := ⟨i.offset, i.instr.op⟩

/-- The gaps of instructions, in their order. -/
def gapsOf (code : List Located) : List Gap := (code.filter (·.instr.op.isGap)).map Located.gap

theorem gapsOf_append (a b : List Located) : gapsOf (a ++ b) = gapsOf a ++ gapsOf b := by
  rw [gapsOf, List.filter_append, List.map_append]
  rfl

/-- Gaps are recorded with ascending offsets. -/
theorem pairwise_gapsOf {code : List Located} (h : code.Pairwise fun x y => x.offset < y.offset) :
    (gapsOf code).Pairwise fun a b => a.offset < b.offset :=
  List.pairwise_map.mpr (h.filter _)

namespace Flat

theorem lowerInstr_fst (i : Located) (s : FlatStack) :
    ((lowerInstr i : Flat Bool) s).1 = !i.instr.op.isGap := by
  unfold lowerInstr Opcode.isGap
  cases i.instr.op.lowering? <;> rfl

theorem lowerCode_fst (code : List Located) (s : FlatStack) :
    ((lowerCode code : Flat (List Located)) s).1 = code.filter (·.instr.op.isGap) := by
  induction code generalizing s with
  | nil => rfl
  | cons i rest ih =>
    rw [lowerCode, bind_apply, bind_apply, lowerInstr_fst, ih, List.filter_cons]
    cases i.instr.op.isGap <;> rfl

end Flat

/-! ## Blocks in a row -/

theorem Tiles.le {a z : Nat} {spans : List Span} (h : Tiles a z spans) : a ≤ z := by
  induction h with
  | last le => exact le
  | cons lt _ ih => exact Nat.le_trans (Nat.le_of_lt lt) ih

/-- The instructions of ranges that lie one behind the other are those of the range that they
cover. -/
theorem Tiles.flatMap_slice {a z : Nat} {spans : List Span} (h : Tiles a z spans) (p : Program) :
    spans.flatMap p.slice = (p.code.extract a z).toList := by
  induction h with
  | last le => exact List.append_nil _
  | @cons a m z spans lt rest ih =>
    rw [List.flatMap_cons, ih]
    change (p.code.extract a m).toList ++ _ = _
    rw [← Array.toList_append, Array.extract_append_extract, Nat.min_eq_left (Nat.le_of_lt lt),
      Nat.max_eq_right rest.le]

namespace Program

variable {p q r : Program} {n : NodeId} {ops : List Located}

/-- `q` comes from `p` by lowering the instructions `ops` in the blocks at `nodes`, which makes what
lowering `ops` makes in any state with the symbols of `p`. -/
structure SplitsCode (p q : Program) (nodes : List NodeId) (ops : List Located) : Prop where
  blocks : q.blocks = p.blocks
  span : q.span = p.span
  slice : q.slice = p.slice
  others : ∀ m ∉ nodes, q.codeAt m = p.codeAt m
  gaps : q.gaps = p.gaps ++ gapsOf ops
  whole : ∀ s : FlatStack, p.symbols.SameSymbols s.symbols →
    q.symbols.SameSymbols ((lowerCode ops : Flat (List Located)) s).2.symbols ∧
      ((lowerCode ops : Flat (List Located)) s).2.out.toList =
        s.out.toList ++ nodes.flatMap q.codeAt

theorem SplitsCode.refl (p : Program) : SplitsCode p p [] [] where
  blocks := rfl
  span := rfl
  slice := rfl
  others _ _ := rfl
  gaps := (List.append_nil _).symm
  whole _ hs := ⟨hs, (List.append_nil _).symm⟩

/-- One block more, in front of the others. -/
theorem SplitsCode.cons {nodes : List NodeId} {first rest : List Located}
    (h : SplitsCode p r [n] first) (h' : SplitsCode r q nodes rest) (hn : n ∉ nodes) :
    SplitsCode p q (n :: nodes) (first ++ rest) where
  blocks := h'.blocks.trans h.blocks
  span := h'.span.trans h.span
  slice := h'.slice.trans h.slice
  others m hm := by
    rw [List.mem_cons, not_or] at hm
    rw [h'.others m hm.2, h.others m (List.mem_singleton.not.mpr hm.1)]
  gaps := by rw [h'.gaps, h.gaps, gapsOf_append, List.append_assoc]
  whole s hs := by
    obtain ⟨hsame, hout⟩ := h.whole s hs
    obtain ⟨hsame', hout'⟩ := h'.whole _ hsame
    rw [Flat.lowerCode_append]
    refine ⟨hsame', ?_⟩
    -- The code of the first block is not touched again.
    rw [hout', hout, List.flatMap_singleton, List.flatMap_cons, h'.others n hn, List.append_assoc]

theorem span_lowered (p : Program) (n : NodeId) (ops : List Located) :
    (p.lowered n ops).span = p.span := by
  funext m
  unfold span block Graph.label Graph.node
  rw [graph_lowered, Graph.node?_modifyLabel]
  by_cases hm : m = n
  · rw [if_pos hm]
    cases p.graph.node? m <;> rfl
  · rw [if_neg hm]

theorem blocks_lowered (p : Program) (n : NodeId) (ops : List Located) :
    (p.lowered n ops).blocks = p.blocks := by
  unfold blocks
  rw [graph_lowered, Graph.nodeIds_modifyLabel]
  rfl

theorem codeAt_lowered {b : BasicBlock} (hb : p.graph.label? n = some b) (ops : List Located)
    (m : NodeId) : (p.lowered n ops).codeAt m =
      if m = n then (FlatStack.lowerAll p.symbols (.block n) ops).2.out.toList else p.codeAt m := by
  obtain ⟨v, hv, -⟩ := Option.map_eq_some_iff.mp hb
  unfold codeAt
  rw [graph_lowered, Graph.node?_modifyLabel]
  split
  · next hm =>
    rw [hm, hv]
    rfl
  · rfl

/-- One block. -/
theorem splitsCode_lowered {b : BasicBlock} (hb : p.graph.label? n = some b) (ops : List Located) :
    SplitsCode p (p.lowered n ops) [n] ops where
  blocks := blocks_lowered p n ops
  span := span_lowered p n ops
  slice := rfl
  others m hm := by rw [codeAt_lowered hb, if_neg (List.mem_singleton.not.mp hm)]
  gaps := by
    change p.gaps ++ List.map Located.gap (FlatStack.lowerAll p.symbols (.block n) ops).1 = _
    exact congrArg (fun l => p.gaps ++ List.map Located.gap l) (Flat.lowerCode_fst ops _)
  whole s hs := by
    obtain ⟨-, hsame, code, hout, hout'⟩ :=
      Flat.Uniform.closed.lowerCode ops { symbols := p.symbols, scope := .block n } s hs
    refine ⟨hsame, ?_⟩
    rw [hout', List.flatMap_singleton, codeAt_lowered hb, if_pos rfl]
    exact congrArg (s.out.toList ++ ·) hout.symm

/-- **Lowering block by block** makes what lowering the instructions of all the blocks makes. -/
theorem splitsCode_foldlM {nodes : List NodeId} (hnodes : nodes.Nodup) {spans : List Span}
    (hspans : nodes.mapM p.span = .ok spans) (h : nodes.foldlM lowerBlock p = .ok q) :
    SplitsCode p q nodes (spans.flatMap p.slice) := by
  induction nodes generalizing p spans with
  | nil =>
    cases hspans
    cases h
    exact .refl _
  | cons n nodes ih =>
    rw [List.mapM_cons] at hspans
    obtain ⟨s, hs, hspans⟩ := bind_eq_ok.mp hspans
    obtain ⟨rest, hrest, hspans⟩ := bind_eq_ok.mp hspans
    cases hspans
    obtain ⟨r, hr, h⟩ := bind_eq_ok.mp h
    obtain ⟨ops, hops, rfl⟩ := lowerBlock_eq_ok.mp hr
    obtain ⟨b, hb, rfl⟩ := span_eq_ok.mp hs
    obtain ⟨-, rfl⟩ := (opcodes_eq_ok hb).mp hops
    obtain ⟨hn, hnodes⟩ := List.nodup_cons.mp hnodes
    refine (splitsCode_lowered hb _).cons (ih hnodes ?_ h) hn
    rw [span_lowered]
    exact hrest

theorem splitsCode_build {instrs : List Instr} (h : build instrs = .ok p) :
    SplitsCode (ofInstrs instrs) p p.blocks (locate 0 instrs) := by
  obtain ⟨spans, hspans, hsplits⟩ := splits_ofInstrs instrs
  have hcode : spans.flatMap (ofInstrs instrs).slice = locate 0 instrs := by
    rw [hsplits.tiles.flatMap_slice]
    change ((locate 0 instrs).toArray.extract 0 instrs.length).toList = _
    rw [← length_locate 0 instrs, ← List.size_toArray, Array.extract_size]
  have hall := splitsCode_foldlM (nodup_blocks _) hspans h
  rwa [hcode, ← hall.blocks] at hall

/-! ## Passes -/

/-- Lifting blocks changes the graph and the symbols only. -/
theorem others_of_liftAt {nodes lifted : List NodeId} (h : p.liftAt nodes = .ok (lifted, q)) :
    q = { p with graph := q.graph, symbols := q.symbols } := by
  induction nodes generalizing p lifted with
  | nil =>
    cases h
    rfl
  | cons n rest ih =>
    obtain ⟨⟨changed, r⟩, hn, h⟩ := bind_eq_ok.mp h
    obtain ⟨⟨lifted', r'⟩, hrest, h⟩ := bind_eq_ok.mp h
    cases h
    rw [ih hrest]
    obtain ⟨b, -, -, ⟨-, rfl⟩ | ⟨-, ops, s, -, -, rfl⟩⟩ := exists_of_liftBlock hn <;> rfl

theorem gaps_of_narrowTypes {nodes : List NodeId} (h : p.narrowTypes nodes = .ok q) :
    q.gaps = p.gaps := by
  obtain ⟨found, -, h⟩ := bind_eq_ok.mp h
  refine foldlM_ok (P := fun r => r.gaps = p.gaps) (fun n _ r r' hr hr' => ?_) rfl h
  obtain ⟨b, -, hr'⟩ := bind_eq_ok.mp hr'
  obtain ⟨t, -, hr'⟩ := bind_eq_ok.mp hr'
  cases hr'
  exact hr

theorem gaps_of_lift {changes : Int} (h : p.lift = .ok (changes, q)) : q.gaps = p.gaps := by
  obtain ⟨⟨lifted, r₁⟩, hlift, h⟩ := bind_eq_ok.mp h
  obtain ⟨⟨jumps, r₂⟩, hresolve, h⟩ := bind_eq_ok.mp h
  obtain ⟨r₃, hnarrow, h⟩ := bind_eq_ok.mp h
  cases h
  obtain ⟨found, -, hlift⟩ := bind_eq_ok.mp hlift
  obtain ⟨found', -, hresolve⟩ := bind_eq_ok.mp hresolve
  obtain ⟨jumps', -, hresolve⟩ := bind_eq_ok.mp hresolve
  obtain ⟨g, -, hresolve⟩ := bind_eq_ok.mp hresolve
  cases hresolve
  rw [gaps_of_narrowTypes hnarrow, others_of_liftAt hlift]

theorem gaps_of_eliminateDeadCode {changes : Int} (h : p.eliminateDeadCode = .ok (changes, q)) :
    q.gaps = p.gaps := by
  obtain ⟨⟨removed, r⟩, hr, h⟩ := bind_eq_ok.mp h
  obtain ⟨⟨k, r'⟩, hr', h⟩ := bind_eq_ok.mp h
  cases h
  obtain ⟨found, -, hr⟩ := bind_eq_ok.mp hr
  obtain ⟨_, -, hr⟩ := bind_eq_ok.mp hr
  cases hr
  rw [(trimmed_of_removeDead hr').others]

/-- What a successful run has applied. -/
theorem exists_apply_of_run {pass : Pass} (h : p.run pass = .ok q) :
    ∃ changes r, pass.apply p = .ok (changes, r) ∧
      q = { r with tally := r.tally.add pass.name changes } := by
  unfold run at h
  split at h
  · cases h
  · next changes r happly =>
    split at h
    · cases h
    · cases h
      exact ⟨changes, r, happly, rfl⟩

theorem gaps_of_run {pass : Pass} (hpass : pass = .deadCode ∨ pass = .lift)
    (h : p.run pass = .ok q) : q.gaps = p.gaps := by
  obtain ⟨changes, r, happly, rfl⟩ := exists_apply_of_run h
  rcases hpass with rfl | rfl
  · exact gaps_of_eliminateDeadCode (q := r) (mapError_eq_ok.mp happly)
  · exact gaps_of_lift (q := r) (mapError_eq_ok.mp happly)

theorem gaps_of_runAll {passes : List Pass}
    (hpasses : ∀ pass ∈ passes, pass = .deadCode ∨ pass = .lift)
    (h : p.runAll passes = (q, .ok ())) : q.gaps = p.gaps := by
  induction passes generalizing p with
  | nil =>
    cases h
    rfl
  | cons pass rest ih =>
    obtain ⟨hpass, hrest⟩ := List.forall_mem_cons.mp hpasses
    unfold runAll at h
    split at h
    · next r hr => rw [ih hrest h, gaps_of_run hpass hr]
    · cases h

/-- **Blocks do not show in the code of a new program, and its gaps are complete.** The code of the
blocks, put together in their order, is the code that one walk over all instructions makes of them
on an empty table, with the same symbols. The gaps are the instructions that have no lowering, in
the order of the code, and they stay the gaps whatever built-in passes run. -/
theorem build_lowers_whole (instrs : List Instr) (scope : Scope) :
    ∃ p, build instrs = .ok p ∧
      p.blocks.flatMap p.codeAt =
        (FlatStack.lowerAll {} scope (locate 0 instrs)).2.out.toList ∧
      p.symbols.SameSymbols (FlatStack.lowerAll {} scope (locate 0 instrs)).2.symbols ∧
      p.gaps = ((locate 0 instrs).filter (·.instr.op.isGap)).map Located.gap ∧
      p.gaps.Pairwise (fun a b => a.offset < b.offset) ∧
      ∀ passes : List Pass, (∀ pass ∈ passes, pass = .deadCode ∨ pass = .lift) →
        ∃ q, p.runAll passes = (q, .ok ()) ∧ q.gaps = p.gaps := by
  obtain ⟨p, hp, hruns⟩ := exists_steps_runAll instrs
  have hsplits := splitsCode_build hp
  obtain ⟨hsame, hout⟩ := hsplits.whole { symbols := {}, scope } (.refl _)
  have hgaps : p.gaps = gapsOf (locate 0 instrs) := hsplits.gaps
  refine ⟨p, hp, hout.symm, hsame, hgaps, ?_, fun passes hpasses => ?_⟩
  · rw [hgaps]
    exact pairwise_gapsOf (pairwise_locate instrs 0)
  · obtain ⟨q, hq, -⟩ := hruns passes hpasses
    exact ⟨q, hq, gaps_of_runAll hpasses hq⟩

/-- Two undefined opcodes, one of them behind a jump and in front of a jump destination. -/
def undefinedOpcodes : List Instr := decode [0x0c, 0x60, 0, 0x56, 0x0d, 0x5b, 0x01]

theorem build_lowers_whole_undefinedOpcodes :
    (∀ pass ∈ [Pass.lift, .deadCode], pass = .deadCode ∨ pass = .lift) ∧
      ∃ p q, build undefinedOpcodes = .ok p ∧ p.runAll [.lift, .deadCode] = (q, .ok ()) ∧
        q.gaps = p.gaps ∧ p.gaps.map Gap.offset = [0, 4] ∧
        (p.blocks.map fun n => (p.codeAt n).length) = [5, 0, 7] ∧
        p.blocks.flatMap p.codeAt =
          (FlatStack.lowerAll {} .program (locate 0 undefinedOpcodes)).2.out.toList := by
  have hpasses : ∀ pass ∈ [Pass.lift, .deadCode], pass = .deadCode ∨ pass = .lift := by simp
  have hnew : (build undefinedOpcodes).toOption.map (fun p =>
      (p.gaps.map Gap.offset, p.blocks.map fun n => (p.codeAt n).length)) =
      some ([0, 4], [5, 0, 7]) := by decide +kernel
  obtain ⟨p, hp, hcode, -, -, -, hruns⟩ := build_lowers_whole undefinedOpcodes .program
  obtain ⟨q, hq, hgaps⟩ := hruns _ hpasses
  rw [hp] at hnew
  obtain ⟨hoffsets, hlengths⟩ := Prod.mk.inj (Option.some.inj hnew)
  exact ⟨hpasses, p, q, hp, hq, hgaps, hoffsets, hlengths, hcode⟩

end Program

end EvmFlow
