import EvmFlow.Proofs.BasicBlocks
import EvmFlow.Proofs.CodeScan
import EvmFlow.Proofs.ProgramFrame

/-!
# Jump targets and jump destinations

A jump may go to an offset of the raw bytes if the byte of a jump destination stands there and is
not the data of a push. The jump targets of a program are found in another way, by adding up the
lengths of decoded instructions while the code is split into blocks. Both come to the same offsets.

* `PushData`, `IsDestination`: where a jump may go, by a scan of the raw bytes;
* `scans_iff`: a scan arrives at exactly the bytes that are not push data;
* `exists_located_iff`: decoded instructions lie where the scan arrives;
* `Program.firstByte`: where the byte range of a block begins, and `Program.Tracks.firstByte_iff`:
  only one begins with a given instruction;
* **`Program.jumpTargets_build`**: the jump targets of a program are the jump destinations of its
  bytes, each with the block that begins there.
-/

namespace EvmFlow

/-! ## Raw bytes -/

/-- The byte at an offset is data of a push. -/
def PushData (code : List UInt8) (k : Nat) : Prop :=
  ∃ j b, Scans code j ∧ code[j]? = some b ∧ j < k ∧ k ≤ j + dataLength b

/-- The byte at an offset is that of a jump destination, and no data. -/
def IsDestination (code : List UInt8) (k : Nat) : Prop :=
  code[k]? = some 0x5b ∧ ¬ PushData code k

/-- The data of the first opcode, and that of the others. -/
theorem pushData_cons {b : UInt8} {rest : List UInt8} {k : Nat} : PushData (b :: rest) k ↔
    0 < k ∧ k ≤ dataLength b ∨
      ∃ i, PushData (rest.drop (dataLength b)) i ∧ k = i + (1 + dataLength b) := by
  constructor
  · rintro ⟨j, c, hj, hc, hlt, hle⟩
    rcases scans_cons.mp hj with rfl | ⟨i, hi, rfl⟩
    · cases hc
      exact .inl ⟨hlt, by omega⟩
    · rw [getElem?_cons_add] at hc
      exact .inr ⟨k - (1 + dataLength b), ⟨i, c, hi, hc, by omega, by omega⟩, by omega⟩
  · rintro (⟨hk, hle⟩ | ⟨i, ⟨j, c, hj, hc, hlt, hle⟩, rfl⟩)
    · exact ⟨0, b, .start, rfl, hk, by omega⟩
    · refine ⟨j + (1 + dataLength b), c, scans_cons.mpr (.inr ⟨j, hj, rfl⟩), ?_, by omega, by omega⟩
      rw [getElem?_cons_add, hc]

/-- **A scan arrives at exactly the bytes that are not push data.** -/
theorem scans_iff {code : List UInt8} {k : Nat} (hk : k < code.length) :
    Scans code k ↔ ¬ PushData code k := by
  induction code using scan_induction generalizing k with
  | nil => cases hk
  | cons b rest ih =>
    rw [scans_cons, pushData_cons]
    by_cases hdata : k ≤ dataLength b
    · -- Of the first opcode and its data, only the opcode is met.
      have hfar : ∀ P : Nat → Prop, ¬ ∃ i, P i ∧ k = i + (1 + dataLength b) := by
        rintro P ⟨i, -, rfl⟩
        omega
      simp only [hfar, or_false]
      omega
    · obtain ⟨i, rfl⟩ : ∃ i, k = i + (1 + dataLength b) := ⟨k - (1 + dataLength b), by omega⟩
      have hi : i < (rest.drop (dataLength b)).length := by
        rw [List.length_cons] at hk
        rw [List.length_drop]
        omega
      have hshift : ∀ P : Nat → Prop,
          (∃ j, P j ∧ i + (1 + dataLength b) = j + (1 + dataLength b)) ↔ P i := by
        simp
      have hzero : i + (1 + dataLength b) ≠ 0 := by omega
      have hbehind : ¬ (0 < i + (1 + dataLength b) ∧ i + (1 + dataLength b) ≤ dataLength b) := by
        omega
      rw [hshift, hshift, ih hi, or_iff_right hzero, or_iff_right hbehind]

/-- **Decoded instructions lie where the scan arrives**, each with the opcode of the byte there. -/
theorem exists_located_iff {code : List UInt8} {start k : Nat} {op : Opcode} :
    (∃ x ∈ locate start (decode code), x.offset = start + k ∧ x.instr.op = op) ↔
      Scans code k ∧ code[k]? = some op.toByte := by
  induction code using scan_induction generalizing start k with
  | nil => simp [decode, decodeAfter, locate]
  | cons b rest ih =>
    rw [decode_cons, locate, List.exists_mem_cons_iff, Instr.length, length_immediate_cons,
      scans_cons]
    constructor
    · rintro (⟨hoffset, rfl⟩ | ⟨x, hx, hoffset, hop⟩)
      · obtain rfl : k = 0 := by simpa using hoffset
        exact ⟨.inl rfl, by rw [Opcode.toByte_ofByte]; rfl⟩
      · have hle := le_offset_of_mem_locate hx
        obtain ⟨i, rfl⟩ : ∃ i, k = i + (1 + dataLength b) := ⟨k - (1 + dataLength b), by omega⟩
        obtain ⟨hscans, hbyte⟩ := (ih (k := i)).mp ⟨x, hx, by omega, hop⟩
        rw [getElem?_cons_add]
        exact ⟨.inr ⟨i, hscans, rfl⟩, hbyte⟩
    · rintro ⟨rfl | ⟨i, hscans, rfl⟩, hbyte⟩
      · refine .inl ⟨rfl, ?_⟩
        rw [Option.some.inj hbyte, Opcode.ofByte_toByte]
      · rw [getElem?_cons_add] at hbyte
        obtain ⟨x, hx, hoffset, hop⟩ := ih.mpr ⟨hscans, hbyte⟩
        exact .inr ⟨x, hx, by omega, hop⟩

theorem isDestination_iff {code : List UInt8} {k : Nat} : IsDestination code k ↔
    ∃ x ∈ locate 0 (decode code), x.offset = k ∧ x.instr.op = .jumpdest := by
  have hlocated : (∃ x ∈ locate 0 (decode code), x.offset = 0 + k ∧ x.instr.op = .jumpdest) ↔
      Scans code k ∧ code[k]? = some 0x5b := exists_located_iff
  rw [Nat.zero_add] at hlocated
  rw [hlocated, and_comm, IsDestination]
  refine and_congr_right fun hbyte => ?_
  rw [scans_iff (List.getElem?_eq_some_iff.mp hbyte).1]

namespace Program

variable {p : Program} {instrs : List Instr} {n m : NodeId} {j : Nat} {x : Located}

/-! ## Byte ranges -/

/-- The offset at which the byte range of a block begins. -/
def firstByte (p : Program) (n : NodeId) : Except Fault Nat := do p.offset (← p.span n).start

theorem offset_of_getElem? {code : List Located} (hcode : p.code = code.toArray)
    (hx : code[j]? = some x) : p.offset j = .ok x.offset := by
  obtain ⟨hlt, rfl⟩ := List.getElem?_eq_some_iff.mp hx
  have hnat : (j : Int).toNat? = some j := rfl
  simp [offset, hcode, hlt, hnat]

/-- Every instruction begins in front of the end of the code. -/
theorem offset_lt_codeSize (hcode : p.code = (locate 0 instrs).toArray) (hx : x ∈ locate 0 instrs) :
    x.offset < p.codeSize := by
  obtain ⟨i, hi⟩ := List.getElem?_of_mem hx
  have hlt := (List.getElem?_eq_some_iff.mp hi).1
  have hlast := List.getElem?_eq_getElem (l := locate 0 instrs)
    (i := (locate 0 instrs).length - 1) (by omega)
  have hsize : p.codeSize = (locate 0 instrs)[(locate 0 instrs).length - 1].next := by
    rw [codeSize, hcode, List.back?_toArray, List.getLast?_eq_getElem?, hlast]
    rfl
  rw [hsize, Located.next, Instr.length]
  by_cases heq : i = (locate 0 instrs).length - 1
  · rw [heq, hlast] at hi
    rw [Option.some.inj hi]
    omega
  · have hoffset := Builder.offset_lt_of_lt (pairwise_locate instrs 0) (by omega) hi hlast
    omega

section Blocks

variable (h : p.Tracks (locate 0 instrs))

include h

theorem Tracks.exists_flows (hn : n ∈ p.blocks) : ∃ b a z, p.graph.label? n = some b ∧
    p.StartsAt n a ∧ p.Flows (locate 0 instrs) n b a z := by
  obtain ⟨hlive, hreal⟩ := mem_blocks.mp hn
  obtain ⟨b, hb⟩ := Graph.contains_iff_label?.mp hlive
  obtain ⟨a, z, hflows⟩ := h.block n b hb hreal
  exact ⟨b, a, z, hb, ⟨b, hb, hreal, by rw [hflows.span]⟩, hflows⟩

theorem Tracks.covers_of_startsAt (hn : p.StartsAt n j) (hj : j < (locate 0 instrs).length) :
    p.Covers n j := by
  obtain ⟨b, z, hb, hreal, hflows⟩ := h.flows_of_startsAt hn
  refine ⟨b, hb, hreal, ?_⟩
  rw [hflows.span]
  exact contains_span.mpr ⟨Nat.le_refl j, hflows.nonempty hj⟩

theorem Tracks.firstByte_of_startsAt (hx : (locate 0 instrs)[j]? = some x) (hn : p.StartsAt n j) :
    p.firstByte n = .ok x.offset := by
  obtain ⟨b, hb, -, hstart⟩ := hn
  refine bind_eq_ok.mpr ⟨b.opcodes, span_eq_ok.mpr ⟨b, hb, rfl⟩, ?_⟩
  rw [hstart]
  exact offset_of_getElem? h.instrs hx

/-- A block whose byte range begins where an instruction does begins with that instruction. -/
theorem Tracks.startsAt_of_firstByte (hx : (locate 0 instrs)[j]? = some x) (hn : n ∈ p.blocks)
    (hbyte : p.firstByte n = .ok x.offset) : p.StartsAt n j := by
  obtain ⟨b, a, z, hb, hstart, hflows⟩ := h.exists_flows hn
  suffices heq : a = j from heq ▸ hstart
  by_cases ha : a < (locate 0 instrs).length
  · have hy := List.getElem?_eq_getElem ha
    have hoffset := Except.ok.inj ((h.firstByte_of_startsAt hy hstart).symm.trans hbyte)
    rcases Nat.lt_trichotomy a j with hlt | heq | hgt
    · have := Builder.offset_lt_of_lt (pairwise_locate instrs 0) hlt hy hx
      omega
    · exact heq
    · have := Builder.offset_lt_of_lt (pairwise_locate instrs 0) hgt hx hy
      omega
  · -- The empty block at the end begins behind all instructions.
    obtain ⟨s, hs, hoffset⟩ := bind_eq_ok.mp hbyte
    obtain ⟨b', hb', rfl⟩ := span_eq_ok.mp hs
    obtain rfl := Option.some.inj (hb.symm.trans hb')
    have hend : p.offset b.opcodes.start = .ok p.codeSize := by
      rw [hflows.span]
      simp only [offset, h.instrs, List.size_toArray, Int.ofNat_lt, ha, if_false]
    have hlt := offset_lt_codeSize h.instrs (List.mem_of_getElem? hx)
    have := Except.ok.inj (hend.symm.trans hoffset)
    omega

/-- Only one block has a byte range that begins with a given instruction. -/
theorem Tracks.firstByte_iff (hx : (locate 0 instrs)[j]? = some x) (hm : p.StartsAt m j)
    (hn : n ∈ p.blocks) : p.firstByte n = .ok x.offset ↔ n = m := by
  constructor
  · intro hbyte
    have hj := (List.getElem?_eq_some_iff.mp hx).1
    exact h.disjoint n m j (h.covers_of_startsAt (h.startsAt_of_firstByte hx hn hbyte) hj)
      (h.covers_of_startsAt hm hj)
  · rintro rfl
    exact h.firstByte_of_startsAt hx hm

end Blocks

/-! ## Jump targets -/

theorem jumpTargets_of_build (h : build instrs = .ok p) :
    p.jumpTargets = (ofInstrs instrs).jumpTargets := by
  refine foldlM_ok (P := fun q => q.jumpTargets = (ofInstrs instrs).jumpTargets) ?_ rfl h
  intro n _ q r hq hr
  obtain ⟨ops, -, hr⟩ := bind_eq_ok.mp hr
  cases hr
  exact hq

/-- A new program has a jump target for every jump destination. -/
theorem exists_jumpTarget (hx : x ∈ locate 0 instrs) (hop : x.instr.op = .jumpdest) :
    ∃ m, (ofInstrs instrs).jumpTargets[(x.offset : Int)]? = some m := by
  obtain ⟨b, a, h, heq⟩ := exists_laid instrs
  obtain ⟨i, hi⟩ := List.getElem?_of_mem hx
  obtain ⟨m, -, -, hm⟩ := h.table i x (List.getElem?_eq_some_iff.mp hi).1 hi hop
  rw [heq]
  exact ⟨m, hm⟩

/-- The target of an offset begins with the jump destination there. -/
theorem Tracks.startsAt_jumpTarget (h : p.Tracks (locate 0 instrs)) (hframed : p.Framed) {k : Int}
    (hk : p.jumpTargets[k]? = some m) :
    ∃ (j : Nat) (x : Located), (locate 0 instrs)[j]? = some x ∧ (x.offset : Int) = k ∧
      p.StartsAt m j := by
  obtain ⟨hm, x, ops, hops, -, hoffset⟩ := hframed.target k m hk
  obtain ⟨b, a, z, hb, hstart, hflows⟩ := h.exists_flows hm
  refine ⟨a, x, ?_, hoffset, hstart⟩
  have hslice := Except.ok.inj ((h.opcodes_eq hb hflows).symm.trans hops)
  have hhead : (((locate 0 instrs).drop a).take (z - a))[0]? = some x := by
    rw [← List.extract_eq_take_drop, hslice]
    rfl
  rw [List.getElem?_take] at hhead
  split at hhead
  · rwa [List.getElem?_drop, Nat.add_zero] at hhead
  · cases hhead

/-- **The jump targets of a program are the jump destinations of its bytes.** An offset has a jump
target if and only if the byte of a jump destination stands there that is not the data of a push,
and the target is the block whose byte range begins at the offset. -/
theorem jumpTargets_build (code : List UInt8) : ∃ p, build (decode code) = .ok p ∧
    (∀ k : Int, k ∈ p.jumpTargets ↔ ∃ i : Nat, k = i ∧ i < code.length ∧ IsDestination code i) ∧
    ∀ i : Nat, IsDestination code i → ∃ m ∈ p.blocks, p.jumpTargets[(i : Int)]? = some m ∧
      ∀ n ∈ p.blocks, p.firstByte n = .ok i ↔ n = m := by
  obtain ⟨p, hp, htracks⟩ := exists_build (decode code)
  obtain ⟨q, hq, hsteps⟩ := exists_steps_build (decode code)
  obtain rfl := Except.ok.inj (hp.symm.trans hq)
  have hframed := hsteps.framed (sound_ofInstrs _) (framed_ofInstrs _)
  have htarget : ∀ i : Nat, IsDestination code i → ∃ m, p.jumpTargets[(i : Int)]? = some m := by
    intro i hi
    obtain ⟨x, hx, rfl, hop⟩ := isDestination_iff.mp hi
    rw [jumpTargets_of_build hp]
    exact exists_jumpTarget hx hop
  refine ⟨p, hp, fun k => ⟨fun hk => ?_, ?_⟩, fun i hi => ?_⟩
  · obtain ⟨m, hm⟩ := Option.isSome_iff_exists.mp (Std.TreeMap.isSome_getElem?_iff_mem.mpr hk)
    obtain ⟨x, hx, hop, hoffset⟩ := htracks.targets k m hm
    have hi := isDestination_iff.mpr ⟨x, hx, rfl, hop⟩
    exact ⟨x.offset, hoffset.symm, (List.getElem?_eq_some_iff.mp hi.1).1, hi⟩
  · rintro ⟨i, rfl, -, hi⟩
    obtain ⟨m, hm⟩ := htarget i hi
    exact Std.TreeMap.isSome_getElem?_iff_mem.mp (Option.isSome_iff_exists.mpr ⟨m, hm⟩)
  · obtain ⟨m, hm⟩ := htarget i hi
    obtain ⟨j, x, hx, hoffset, hstart⟩ := htracks.startsAt_jumpTarget hframed hm
    obtain rfl := Int.ofNat_inj.mp hoffset
    exact ⟨m, hstart.mem_blocks, hm, fun n hn => htracks.firstByte_iff hx hstart hn⟩

/-- A jump destination between two pushes whose data looks like one. -/
def lookalikes : List UInt8 := [0x60, 0x5b, 0x5b, 0x62, 0x5b]

theorem jumpTargets_build_lookalikes : IsDestination lookalikes 2 ∧ PushData lookalikes 1 ∧
    ∃ p, build (decode lookalikes) = .ok p ∧ 2 ∈ p.jumpTargets ∧ 1 ∉ p.jumpTargets ∧
      ∃ m ∈ p.blocks, p.jumpTargets[(2 : Int)]? = some m ∧ p.firstByte m = .ok 2 := by
  have hscans : Scans lookalikes 2 := Scans.next (b := 0x60) .start rfl
  have hdest : IsDestination lookalikes 2 := ⟨rfl, (scans_iff (by decide)).mp hscans⟩
  have hdata : PushData lookalikes 1 := ⟨0, 0x60, .start, rfl, by decide, by decide⟩
  obtain ⟨p, hp, hkeys, hblocks⟩ := jumpTargets_build lookalikes
  obtain ⟨m, hm, htarget, hfirst⟩ := hblocks 2 hdest
  refine ⟨hdest, hdata, p, hp, ?_, ?_, m, hm, htarget, (hfirst m hm).mpr rfl⟩
  · exact (hkeys 2).mpr ⟨2, rfl, by decide, hdest⟩
  · intro hmem
    obtain ⟨i, hi, -, -, hno⟩ := (hkeys 1).mp hmem
    obtain rfl : i = 1 := by omega
    exact hno hdata

end Program

end EvmFlow
