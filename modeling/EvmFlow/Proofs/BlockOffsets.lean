import EvmFlow.Proofs.BlockSplitting
import EvmFlow.Proofs.JumpDestinations
import EvmFlow.Report.Stats

/-!
# Byte ranges of blocks

The blocks of a program lie one behind the other in the code, in the order of their nodes, and they
still do when blocks between them have been removed. So the rows of the block statistics, which are
sorted by offset, come in the order of the blocks, and the bytes from the first offset of a row to
its last are those of the instructions of its block.

* `byteOffset`: the number of bytes in front of an instruction, with `byteOffset_lt`: it grows from
  one instruction to the next, and `extract_encode`: the bytes between two instructions;
* `Span.Within`, `Span.Ahead`: ranges inside of the code and one in front of the other, and
  `byteSpan`: the bytes of a range;
* `Program.offset_eq_byteOffset`: the offset of an index, the one behind the last opcode included;
* `Program.Lined`, `Program.Lined.steps`: blocks that lie one behind the other;
* `Program.Lined.exists_blockStats`: the rows, in the order of the blocks;
* `Program.SlicesCode`: rows that cut the bytes of a code into the blocks of a program;
* **`Program.blockStats_slice_code`**: so the rows do after all passes, and without a gap before
  them.
-/

namespace EvmFlow

/-! ## Bytes in front of an instruction -/

theorem encode_append (a b : List Instr) : encode (a ++ b) = encode a ++ encode b :=
  List.flatMap_append

theorem length_le_length_encode (instrs : List Instr) : instrs.length ≤ (encode instrs).length := by
  induction instrs with
  | nil => exact Nat.le_refl 0
  | cons i rest ih =>
    rw [encode_cons, List.length_cons, List.length_cons, List.length_append]
    omega

/-- The number of bytes in front of the instruction `i`. -/
def byteOffset (instrs : List Instr) (i : Nat) : Nat := (encode (instrs.take i)).length

section

variable {instrs : List Instr} {i s e : Nat}

theorem byteOffset_length (instrs : List Instr) :
    byteOffset instrs instrs.length = (encode instrs).length := by
  rw [byteOffset, List.take_length]

theorem byteOffset_add_one {x : Instr} (hx : instrs[i]? = some x) :
    byteOffset instrs (i + 1) = byteOffset instrs i + x.length := by
  have hone : (encode [x]).length = x.length := by
    rw [encode_cons, List.length_cons, List.length_append, Instr.length, Nat.add_comm]
    rfl
  rw [byteOffset, byteOffset, List.take_add_one, hx, encode_append, List.length_append, ← hone]
  rfl

theorem byteOffset_cons (x : Instr) (instrs : List Instr) (i : Nat) :
    byteOffset (x :: instrs) (i + 1) = x.length + byteOffset instrs i := by
  rw [byteOffset, byteOffset, List.take_succ_cons, encode_cons, List.length_cons,
    List.length_append, Instr.length]
  omega

theorem take_eq_append_extract (instrs : List Instr) (hse : s ≤ e) :
    instrs.take e = instrs.take s ++ instrs.extract s e := by
  rw [List.extract_eq_take_drop, ← List.take_add, Nat.add_sub_cancel' hse]

theorem byteOffset_extract (instrs : List Instr) (hse : s ≤ e) :
    byteOffset instrs e = byteOffset instrs s + (encode (instrs.extract s e)).length := by
  rw [byteOffset, take_eq_append_extract instrs hse, encode_append, List.length_append, byteOffset]

theorem byteOffset_le (instrs : List Instr) (hse : s ≤ e) :
    byteOffset instrs s ≤ byteOffset instrs e := by
  rw [byteOffset_extract instrs hse]
  exact Nat.le_add_right _ _

/-- Every instruction has a byte. -/
theorem byteOffset_lt (hse : s < e) (he : e ≤ instrs.length) :
    byteOffset instrs s < byteOffset instrs e := by
  have hbytes := length_le_length_encode (instrs.extract s e)
  have hlength : (instrs.extract s e).length = e - s := by
    rw [List.extract_eq_take_drop, List.length_take, List.length_drop]
    omega
  rw [byteOffset_extract instrs (Nat.le_of_lt hse)]
  omega

/-- **The bytes between two instructions** are those of the instructions from the one up to the
other. -/
theorem extract_encode (instrs : List Instr) (hse : s ≤ e) :
    (encode instrs).extract (byteOffset instrs s) (byteOffset instrs e) =
      encode (instrs.extract s e) := by
  have htake : (encode instrs).take (byteOffset instrs e) = encode (instrs.take e) := by
    have hall : encode (instrs.take e) ++ encode (instrs.drop e) = encode instrs := by
      rw [← encode_append, List.take_append_drop]
    rw [← hall]
    exact List.take_left
  rw [List.extract_eq_take_drop, ← List.drop_take, htake, take_eq_append_extract instrs hse,
    encode_append]
  exact List.drop_left

theorem offset_of_getElem?_locate {k : Nat} {x : Located} (hx : (locate k instrs)[i]? = some x) :
    x.offset = k + byteOffset instrs i := by
  induction instrs generalizing k i with
  | nil => cases hx
  | cons first rest ih =>
    cases i with
    | zero =>
      obtain rfl := Option.some.inj hx
      rfl
    | succ i => rw [ih hx, byteOffset_cons, Nat.add_assoc]

end

/-! ## Ranges in a code -/

/-- A range of the first `n` places. -/
def Span.Within (n : Nat) (s : Span) : Prop := ∃ a z : Nat, s = ⟨a, z⟩ ∧ a ≤ z ∧ z ≤ n

/-- A range that begins in front of another one and does not reach into it. -/
def Span.Ahead (s t : Span) : Prop := s.start < t.start ∧ s.stop ≤ t.start

theorem Tiles.exists_of_mem {a z : Nat} {spans : List Span} (h : Tiles a z spans) {s : Span}
    (hs : s ∈ spans) : ∃ b e : Nat, s = ⟨b, e⟩ ∧ a ≤ b ∧ b ≤ e ∧ e ≤ z := by
  induction h with
  | @last a z le =>
    obtain rfl := List.mem_singleton.mp hs
    exact ⟨a, z, rfl, Nat.le_refl a, le, Nat.le_refl z⟩
  | @cons a m z spans lt rest ih =>
    rcases List.mem_cons.mp hs with rfl | hs
    · exact ⟨a, m, rfl, Nat.le_refl a, Nat.le_of_lt lt, rest.le⟩
    · obtain ⟨b, e, rfl, hb, he⟩ := ih hs
      exact ⟨b, e, rfl, by omega, he⟩

theorem Tiles.within {a z : Nat} {spans : List Span} (h : Tiles a z spans) {s : Span}
    (hs : s ∈ spans) : s.Within z := by
  obtain ⟨b, e, rfl, -, hbe, he⟩ := h.exists_of_mem hs
  exact ⟨b, e, rfl, hbe, he⟩

theorem Tiles.pairwise_ahead {a z : Nat} {spans : List Span} (h : Tiles a z spans) :
    spans.Pairwise Span.Ahead := by
  induction h with
  | last _ => exact List.pairwise_singleton _ _
  | cons lt rest ih =>
    refine List.pairwise_cons.mpr ⟨fun s hs => ?_, ih⟩
    obtain ⟨b, e, rfl, hb, -⟩ := rest.exists_of_mem hs
    exact ⟨Int.ofNat_lt.mpr (Nat.lt_of_lt_of_le lt hb), Int.ofNat_le.mpr hb⟩

/-- The bytes of a range of instructions. -/
def byteSpan (instrs : List Instr) (s : Span) : Span :=
  ⟨byteOffset instrs s.start.toNat, byteOffset instrs s.stop.toNat⟩

section

variable {instrs : List Instr} {spans : List Span}

theorem Span.Ahead.byteSpan {s t : Span} (h : s.Ahead t) (hs : s.Within instrs.length)
    (ht : t.Within instrs.length) :
    (EvmFlow.byteSpan instrs s).Ahead (EvmFlow.byteSpan instrs t) := by
  obtain ⟨a, z, rfl, -, -⟩ := hs
  obtain ⟨b, e, rfl, hbe, he⟩ := ht
  have hb : b ≤ instrs.length := Nat.le_trans hbe he
  exact ⟨Int.ofNat_lt.mpr (byteOffset_lt (Int.ofNat_lt.mp h.1) hb),
    Int.ofNat_le.mpr (byteOffset_le instrs (Int.ofNat_le.mp h.2))⟩

/-- The bytes of ranges without gaps have no gaps. -/
theorem Tiles.byteSpans {a z : Nat} (h : Tiles a z spans) (hz : z ≤ instrs.length) :
    Tiles (byteOffset instrs a) (byteOffset instrs z) (spans.map (byteSpan instrs)) := by
  induction h with
  | last le => exact .last (byteOffset_le instrs le)
  | cons lt rest ih =>
    exact .cons (byteOffset_lt lt (Nat.le_trans rest.le hz)) (ih hz)

end

/-- The bytes of a row. -/
def BlockStat.bytes (r : BlockStat) : Span := ⟨r.startOffset, r.endOffset⟩

namespace Program

variable {p q : Program} {instrs : List Instr} {spans : List Span} {s : Span} {n : NodeId}

/-! ## Offsets -/

theorem codeSize_eq (hcode : p.code = (locate 0 instrs).toArray) :
    p.codeSize = (encode instrs).length := by
  rw [codeSize, hcode, List.back?_toArray, List.getLast?_eq_getElem?, length_locate,
    ← byteOffset_length]
  cases hx : (locate 0 instrs)[instrs.length - 1]? with
  | none =>
    have hle := List.getElem?_eq_none_iff.mp hx
    rw [length_locate] at hle
    have hnil : instrs.length = 0 := by omega
    rw [hnil]
    rfl
  | some x =>
    have hlt := (List.getElem?_eq_some_iff.mp hx).1
    rw [length_locate] at hlt
    have hoffset := offset_of_getElem?_locate hx
    have hlength := byteOffset_add_one (getElem?_of_locate hx)
    rw [Nat.sub_add_cancel (by omega)] at hlength
    rw [hlength, ← Nat.zero_add (byteOffset _ _), ← hoffset]
    rfl

theorem offset_eq_byteOffset (hcode : p.code = (locate 0 instrs).toArray) {i : Nat}
    (hi : i ≤ instrs.length) : p.offset i = .ok (byteOffset instrs i) := by
  rcases Nat.lt_or_eq_of_le hi with hlt | rfl
  · have hx := List.getElem?_eq_getElem (l := locate 0 instrs) (i := i) (by rwa [length_locate])
    rw [offset_of_getElem? hcode hx, offset_of_getElem?_locate hx, Nat.zero_add]
  · -- Behind the last instruction, the size of the code is the answer.
    have hsize : ¬ ((instrs.length : Int) < p.code.size) := by
      rw [hcode, List.size_toArray, length_locate]
      exact Int.lt_irrefl _
    rw [offset, if_neg hsize, codeSize_eq hcode, byteOffset_length]

/-! ## Blocks in line -/

/-- The blocks of a program have ranges in its code that lie one behind the other, in the order of
the nodes. -/
structure Lined (instrs : List Instr) (q : Program) (spans : List Span) : Prop where
  code : q.code = (locate 0 instrs).toArray
  ranges : q.spans = .ok spans
  within : ∀ s ∈ spans, s.Within instrs.length
  ahead : spans.Pairwise Span.Ahead

theorem KeepsSpans.blocks_sublist (h : KeepsSpans p q) : q.blocks.Sublist p.blocks :=
  List.sublist_of_subperm_of_pairwise (List.subperm_of_subset q.nodup_blocks fun n hn => (h n hn).1)
    q.pairwise_blocks p.pairwise_blocks

/-- Where blocks are removed, the others stay in line. -/
theorem Lined.steps (h : Lined instrs p spans) (hsteps : Steps p q) :
    ∃ left, Lined instrs q left := by
  have hkeeps := hsteps.keepsSpans
  have hspan : ∀ n ∈ q.blocks, q.span n = p.span n := by
    intro n hn
    obtain ⟨-, s, hp, hq⟩ := hkeeps n hn
    rw [hp, hq]
  obtain ⟨left, hleft, hsub⟩ := exists_mapM_of_sublist hkeeps.blocks_sublist hspan h.ranges
  exact ⟨left, hsteps.code.trans h.code, hleft, fun s hs => h.within s (hsub.subset hs),
    h.ahead.sublist hsub⟩

/-! ## Rows -/

theorem exists_blockStat (hcode : p.code = (locate 0 instrs).toArray) (hs : s.Within instrs.length)
    (hspan : p.span n = .ok s) :
    ∃ r, p.blockStat n = .ok r ∧ r.node = n ∧ r.bytes = byteSpan instrs s := by
  obtain ⟨b, hb, hopcodes⟩ := span_eq_ok.mp hspan
  obtain ⟨a, z, rfl, haz, hz⟩ := hs
  have hstart : p.offset b.opcodes.start = .ok (byteOffset instrs a) := by
    rw [hopcodes]
    exact offset_eq_byteOffset hcode (Nat.le_trans haz hz)
  have hstop : p.offset b.opcodes.stop = .ok (byteOffset instrs z) := by
    rw [hopcodes]
    exact offset_eq_byteOffset hcode hz
  exact ⟨_, bind_eq_ok.mpr ⟨b, Graph.label_eq_ok.mpr hb, bind_eq_ok.mpr ⟨_, hstart,
    bind_eq_ok.mpr ⟨_, hstop, rfl⟩⟩⟩, rfl, rfl⟩

/-- The rows of some nodes, each with the bytes of its range. -/
theorem exists_mapM_blockStat (hcode : p.code = (locate 0 instrs).toArray)
    (hwithin : ∀ s ∈ spans, s.Within instrs.length) {nodes : List NodeId}
    (hspans : nodes.mapM p.span = .ok spans) :
    ∃ rows, nodes.mapM p.blockStat = .ok rows ∧ rows.map BlockStat.node = nodes ∧
      rows.map BlockStat.bytes = spans.map (byteSpan instrs) ∧
      ∀ r ∈ rows, ∃ s ∈ spans, p.span r.node = .ok s ∧ r.bytes = byteSpan instrs s := by
  induction nodes generalizing spans with
  | nil =>
    cases hspans
    exact ⟨[], rfl, rfl, rfl, fun r hr => absurd hr List.not_mem_nil⟩
  | cons n nodes ih =>
    rw [List.mapM_cons] at hspans
    obtain ⟨s, hs, hspans⟩ := bind_eq_ok.mp hspans
    obtain ⟨rest, hrest, hspans⟩ := bind_eq_ok.mp hspans
    cases hspans
    obtain ⟨hfirst, hwithin⟩ := List.forall_mem_cons.mp hwithin
    obtain ⟨r, hr, rfl, hbytes⟩ := exists_blockStat hcode hfirst hs
    obtain ⟨rows, hrows, hnodes, hall, hspan⟩ := ih hwithin hrest
    refine ⟨r :: rows, ?_, ?_, ?_, List.forall_mem_cons.mpr ⟨?_, fun r' hr' => ?_⟩⟩
    · rw [List.mapM_cons]
      exact bind_eq_ok.mpr ⟨r, hr, bind_eq_ok.mpr ⟨rows, hrows, rfl⟩⟩
    · rw [List.map_cons, hnodes]
    · rw [List.map_cons, List.map_cons, hbytes, hall]
    · exact ⟨s, List.mem_cons_self, hs, hbytes⟩
    · obtain ⟨t, ht, hspan⟩ := hspan r' hr'
      exact ⟨t, List.mem_cons_of_mem s ht, hspan⟩

theorem Lined.pairwise_byteSpan (h : Lined instrs q spans) :
    (spans.map (byteSpan instrs)).Pairwise Span.Ahead :=
  List.pairwise_map.mpr <| h.ahead.imp_of_mem fun hs ht hst =>
    hst.byteSpan (h.within _ hs) (h.within _ ht)

/-- **The rows come in the order of the blocks**, since offsets ascend with the nodes. -/
theorem Lined.exists_blockStats (h : Lined instrs q spans) :
    ∃ rows, q.blockStats = .ok rows ∧ rows.map BlockStat.node = q.blocks ∧
      rows.map BlockStat.bytes = spans.map (byteSpan instrs) ∧
      ∀ r ∈ rows, ∃ s ∈ spans, q.span r.node = .ok s ∧ r.bytes = byteSpan instrs s := by
  obtain ⟨rows, hrows, hnodes, hbytes, hspan⟩ := exists_mapM_blockStat h.code h.within h.ranges
  refine ⟨rows, bind_eq_ok.mpr ⟨rows, hrows, congrArg Except.ok ?_⟩, hnodes, hbytes, hspan⟩
  have hahead := h.pairwise_byteSpan
  rw [← hbytes, List.pairwise_map] at hahead
  refine List.mergeSort_of_pairwise (hahead.imp fun hab => ?_)
  rw [BlockStat.le, decide_eq_true (Int.ofNat_lt.mp hab.1), Bool.true_or]

/-- The instructions of a range, in the code of a program. -/
theorem map_instr_slice (hcode : p.code = (locate 0 instrs).toArray) (a z : Nat) :
    (p.slice ⟨a, z⟩).map Located.instr = instrs.extract a z := by
  change (p.code.extract a z).toList.map Located.instr = _
  rw [hcode, Array.toList_extract, List.extract_eq_take_drop, List.map_take, List.map_drop,
    map_instr_locate, List.extract_eq_take_drop]

/-- Rows that cut a byte string into the blocks of a program: there is one for each block, in the
order of the blocks, each of them begins in front of the next and ends there at the latest, and the
bytes of a row are the instructions of its block. -/
structure SlicesCode (bytes : List UInt8) (q : Program) (rows : List BlockStat) : Prop where
  nodes : rows.map BlockStat.node = q.blocks
  starts : rows.Pairwise fun r r' => r.startOffset < r'.startOffset
  apart : rows.Pairwise fun r r' => r.endOffset ≤ r'.startOffset
  bounds : ∀ r ∈ rows, r.startOffset ≤ r.endOffset ∧ r.endOffset ≤ bytes.length
  code : ∀ r ∈ rows, ∃ ops, q.opcodes r.node = .ok ops ∧
    bytes.extract r.startOffset r.endOffset = encode (ops.map Located.instr)

theorem Lined.exists_slicesCode (h : Lined instrs q spans) :
    ∃ rows, q.blockStats = .ok rows ∧ rows.map BlockStat.bytes = spans.map (byteSpan instrs) ∧
      SlicesCode (encode instrs) q rows := by
  obtain ⟨rows, hrows, hnodes, hbytes, hspan⟩ := h.exists_blockStats
  have hahead := h.pairwise_byteSpan
  rw [← hbytes, List.pairwise_map] at hahead
  have hrange : ∀ r ∈ rows, ∃ a z : Nat, q.span r.node = .ok ⟨a, z⟩ ∧ a ≤ z ∧ z ≤ instrs.length ∧
      r.startOffset = byteOffset instrs a ∧ r.endOffset = byteOffset instrs z := by
    intro r hr
    obtain ⟨s, hs, hspan, hr⟩ := hspan r hr
    obtain ⟨a, z, rfl, haz, hz⟩ := h.within s hs
    obtain ⟨hstart, hstop⟩ := Span.mk.inj hr
    exact ⟨a, z, hspan, haz, hz, Int.ofNat_inj.mp hstart, Int.ofNat_inj.mp hstop⟩
  refine ⟨rows, hrows, hbytes, hnodes, hahead.imp fun hab => Int.ofNat_lt.mp hab.1,
    hahead.imp fun hab => Int.ofNat_le.mp hab.2, fun r hr => ?_, fun r hr => ?_⟩
  · obtain ⟨a, z, -, haz, hz, hstart, hstop⟩ := hrange r hr
    rw [hstart, hstop, ← byteOffset_length]
    exact ⟨byteOffset_le instrs haz, byteOffset_le instrs hz⟩
  · obtain ⟨a, z, hspan, haz, hz, hstart, hstop⟩ := hrange r hr
    obtain ⟨b, hb, hopcodes⟩ := span_eq_ok.mp hspan
    have hin : q.hasSpan ⟨a, z⟩ = true := by
      simp [hasSpan, h.code, length_locate, haz, hz]
    refine ⟨q.slice ⟨a, z⟩, (opcodes_eq_ok hb).mpr ⟨hopcodes ▸ hin, hopcodes ▸ rfl⟩, ?_⟩
    rw [hstart, hstop, map_instr_slice h.code]
    exact extract_encode instrs haz

/-- A new program, filled with code, has the ranges that the builder laid out. -/
theorem exists_lined_build (h : build instrs = .ok p) (hsteps : Steps (ofInstrs instrs) p) :
    ∃ spans, Tiles 0 instrs.length spans ∧ Lined instrs p spans := by
  obtain ⟨spans, hspans, hsplits⟩ := splits_ofInstrs instrs
  have hsame := splitsCode_build h
  have hranges : p.spans = .ok spans := by
    rw [Program.spans, hsame.blocks, hsame.span]
    exact hspans
  exact ⟨spans, hsplits.tiles, hsteps.code, hranges, fun s hs => hsplits.tiles.within hs,
    hsplits.tiles.pairwise_ahead⟩

/-- **The rows of the block statistics cut the code into its blocks.** The rows of a new program
cover the bytes of its code without a gap. Whatever built-in passes run on it, they succeed, and the
rows of what they leave are one for each block that is left, in the order of the blocks: each begins
behind the beginning of the one in front and not before its end, and its bytes are the instructions
of its block. -/
theorem blockStats_slice_code (instrs : List Instr) :
    ∃ p rows, build instrs = .ok p ∧ p.blockStats = .ok rows ∧
      Tiles 0 (encode instrs).length (rows.map BlockStat.bytes) ∧
      ∀ passes : List Pass, (∀ pass ∈ passes, pass = .deadCode ∨ pass = .lift) →
        ∃ q rows', p.runAll passes = (q, .ok ()) ∧ q.blockStats = .ok rows' ∧
          SlicesCode (encode instrs) q rows' := by
  obtain ⟨p, hp, hbuild⟩ := exists_steps_build instrs
  obtain ⟨spans, htiles, hlined⟩ := exists_lined_build hp hbuild
  obtain ⟨rows, hrows, hbytes, -⟩ := hlined.exists_slicesCode
  refine ⟨p, rows, hp, hrows, ?_, fun passes hpasses => ?_⟩
  · have hall := htiles.byteSpans (Nat.le_refl instrs.length)
    rw [byteOffset_length] at hall
    rwa [hbytes]
  · obtain ⟨q, hq, hruns⟩ := (hbuild.sound (sound_ofInstrs instrs)).exists_runAll hpasses
    obtain ⟨left, hleft⟩ := hlined.steps hruns
    obtain ⟨rows', hrows', -, hslices⟩ := hleft.exists_slicesCode
    exact ⟨q, rows', hq, hrows', hslices⟩

/-- A jump over a block, and a push that lacks a byte at the end. -/
def shortPush : List Instr := decode [0x60, 4, 0x56, 0x00, 0x5b, 0x5b, 0x61, 0xaa]

theorem blockStats_slice_code_shortPush :
    (∀ pass ∈ [Pass.lift, .deadCode], pass = .deadCode ∨ pass = .lift) ∧
      encode shortPush = [0x60, 4, 0x56, 0x00, 0x5b, 0x5b, 0x61, 0xaa, 0] ∧
      ∃ p new q rows, build shortPush = .ok p ∧ p.blockStats = .ok new ∧
        Tiles 0 9 (new.map BlockStat.bytes) ∧ p.blocks = [4, 5, 6, 7] ∧
        p.runAll [.lift, .deadCode] = (q, .ok ()) ∧ q.blockStats = .ok rows ∧
        SlicesCode (encode shortPush) q rows ∧ rows.map BlockStat.node = [4, 6, 7] := by
  have hpasses : ∀ pass ∈ [Pass.lift, .deadCode], pass = .deadCode ∨ pass = .lift := by simp
  have hencode : encode shortPush = [0x60, 4, 0x56, 0x00, 0x5b, 0x5b, 0x61, 0xaa, 0] := by
    decide +kernel
  have hblocks : (build shortPush).toOption.map (fun p =>
      (p.blocks, (p.runAll [.lift, .deadCode]).1.blocks)) = some ([4, 5, 6, 7], [4, 6, 7]) := by
    decide +kernel
  obtain ⟨p, new, hp, hnew, htiles, hall⟩ := blockStats_slice_code shortPush
  obtain ⟨q, rows, hq, hrows, hslices⟩ := hall _ hpasses
  rw [hp] at hblocks
  obtain ⟨hfirst, hleft⟩ := Prod.mk.inj (Option.some.inj hblocks)
  rw [hq] at hleft
  rw [hencode] at htiles
  exact ⟨hpasses, hencode, p, new, q, rows, hp, hnew, htiles, hfirst, hq, hrows, hslices,
    hslices.nodes.trans hleft⟩

end Program

end EvmFlow
