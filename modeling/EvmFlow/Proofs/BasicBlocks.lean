import EvmFlow.Proofs.BlockRow
import EvmFlow.Proofs.PassSuccess

/-!
# Basic blocks

The blocks of a new program, in the order in which they were made, cover the code from its first
instruction to its last. They begin exactly where blocks of the code begin, so that a jump
destination can only be the first instruction of a block and a block end only the last. No pass
changes a range.

* `Program.span`, `Program.spans`: the ranges of the blocks;
* `Tiles`: ranges that lie one behind the other;
* `BasicBlocks`: ranges that are the basic blocks of a code;
* `Splits`, `Splits.basicBlocks`: the same block by block, and `Program.splits_ofInstrs`;
* `Program.KeepsSpans`: what every step of a pass keeps;
* **`Program.basicBlocks_runAll`**: new programs have the basic blocks of their code, and what is
  left of them after all passes has its range.
-/

namespace EvmFlow

/-! ## Ranges -/

/-- Ranges from `a` to `z`, one behind the other. Only the last one may be empty. -/
inductive Tiles : (a z : Nat) → List Span → Prop
  | last {a z : Nat} (le : a ≤ z) : Tiles a z [⟨a, z⟩]
  | cons {a m z : Nat} {spans : List Span} (lt : a < m) (rest : Tiles m z spans) :
      Tiles a z (⟨a, m⟩ :: spans)

/-- The ranges are the basic blocks of a code: they cover it, they begin where blocks begin, jump
destinations come first in them and block ends last. -/
structure BasicBlocks (instrs : List Instr) (spans : List Span) : Prop where
  tiles : Tiles 0 instrs.length spans
  begins : ∀ i : Nat, (∃ s ∈ spans, s.start = i) ↔ Begins instrs i
  destination : ∀ s ∈ spans, ∀ (i : Nat) (x : Instr), s.contains i = true → instrs[i]? = some x →
    x.op = .jumpdest → s.start = i
  blockEnd : ∀ s ∈ spans, ∀ (i : Nat) (x : Instr), s.contains i = true → instrs[i]? = some x →
    x.op.isBlockEnd = true → s.stop = i + 1

/-- The code from the instruction `a` on, range by range: no block begins inside of a range, and one
begins at its end unless it is the last. -/
inductive Splits (instrs : List Instr) : (a : Nat) → List Span → Prop
  | last {a : Nat} (le : a ≤ instrs.length) (inner : ∀ j, a < j → ¬ Begins instrs j) :
      Splits instrs a [⟨a, instrs.length⟩]
  | cons {a e : Nat} {spans : List Span} (lt : a < e)
      (inner : ∀ j, a < j → j < e → ¬ Begins instrs j) (begins : Begins instrs e)
      (rest : Splits instrs e spans) : Splits instrs a (⟨a, e⟩ :: spans)

namespace Splits

variable {instrs : List Instr} {spans : List Span} {a : Nat}

theorem tiles (h : Splits instrs a spans) : Tiles a instrs.length spans := by
  induction h with
  | last le => exact .last le
  | cons lt _ _ _ ih => exact .cons lt ih

theorem exists_start_iff (h : Splits instrs a spans) (i : Nat) :
    (∃ s ∈ spans, s.start = i) ↔ i = a ∨ a < i ∧ Begins instrs i := by
  induction h with
  | @last a _ inner =>
    have hnone : ¬ (a < i ∧ Begins instrs i) := fun ⟨hi, hbegins⟩ => inner i hi hbegins
    simp only [List.mem_singleton, exists_eq_left, Int.ofNat_inj, hnone, or_false]
    exact eq_comm
  | @cons a e spans lt inner begins _ ih =>
    rw [List.exists_mem_cons_iff, ih, Int.ofNat_inj]
    constructor
    · rintro (rfl | rfl | ⟨hi, hbegins⟩)
      · exact .inl rfl
      · exact .inr ⟨lt, begins⟩
      · exact .inr ⟨by omega, hbegins⟩
    · rintro (rfl | ⟨hi, hbegins⟩)
      · exact .inl rfl
      · rcases Nat.lt_trichotomy i e with hlt | rfl | hgt
        · exact absurd hbegins (inner i hi hlt)
        · exact .inr (.inl rfl)
        · exact .inr (.inr ⟨hgt, hbegins⟩)

/-- No block begins inside of a range. -/
theorem not_begins (h : Splits instrs a spans) {s : Span} (hs : s ∈ spans) {i : Nat}
    (hstart : s.start < i) (hstop : i < s.stop) : ¬ Begins instrs i := by
  induction h with
  | last _ inner =>
    obtain rfl := List.mem_singleton.mp hs
    exact inner i (Int.ofNat_lt.mp hstart)
  | cons _ inner _ _ ih =>
    rcases List.mem_cons.mp hs with rfl | hs
    · exact inner i (Int.ofNat_lt.mp hstart) (Int.ofNat_lt.mp hstop)
    · exact ih hs

/-- Ranges that split the whole code are its basic blocks. -/
theorem basicBlocks (h : Splits instrs 0 spans) : BasicBlocks instrs spans where
  tiles := h.tiles
  begins i := by
    rw [h.exists_start_iff]
    constructor
    · rintro (rfl | ⟨-, hbegins⟩)
      · exact .inl rfl
      · exact hbegins
    · intro hbegins
      by_cases hi : i = 0
      · exact .inl hi
      · exact .inr ⟨by omega, hbegins⟩
  destination s hs i x hi hx hop := by
    have hspan : s.start ≤ i ∧ i < s.stop := by simpa [Span.contains] using hi
    by_contra hne
    exact h.not_begins hs (by omega) hspan.2 (.inr (.inl ⟨x, hx, hop⟩))
  blockEnd s hs i x hi hx hop := by
    have hspan : s.start ≤ i ∧ i < s.stop := by simpa [Span.contains] using hi
    by_contra hne
    -- A block would begin behind the block end, still in the range.
    exact h.not_begins (i := i + 1) hs (by omega) (by omega) (.inr (.inr ⟨i, x, rfl, hx, hop⟩))

end Splits

namespace Program

variable {p q r : Program}

/-- The range of the block at a node. -/
def span (p : Program) (n : NodeId) : Except Fault Span := do return (← p.block n).opcodes

/-- The ranges of all blocks, in the order of the nodes. -/
def spans (p : Program) : Except Fault (List Span) := p.blocks.mapM p.span

theorem span_eq_ok {n : NodeId} {s : Span} :
    p.span n = .ok s ↔ ∃ b, p.graph.label? n = some b ∧ b.opcodes = s := by
  unfold span
  rw [bind_eq_ok]
  refine exists_congr fun b => and_congr Graph.label_eq_ok ?_
  exact ⟨Except.ok.inj, congrArg Except.ok⟩

/-! ## New programs -/

/-- A row of blocks from the one that begins at the instruction `s` to the last splits the rest of
the code. -/
theorem exists_splits {instrs : List Instr} {b : Builder} {a : Nat}
    (h : Builder.Laid (locate 0 instrs) b a instrs.length)
    (hrow : Builder.Row instrs b a instrs.length) {ns : List NodeId} {n : NodeId} {s : Nat}
    (hchain : (n :: ns).IsChain fun n m => ∃ s e, Builder.Precedes instrs b n m s e)
    (hlast : (n :: ns).getLast? = some b.current)
    (hn : (b.program (locate 0 instrs)).StartsAt n s) :
    ∃ spans, (n :: ns).mapM (b.program (locate 0 instrs)).span = .ok spans ∧
      Splits instrs s spans := by
  obtain ⟨x, hx, -, hstart⟩ := hn
  induction ns generalizing n s x with
  | nil =>
    obtain rfl := Option.some.inj hlast
    obtain rfl := Option.some.inj (hx.symm.trans h.current)
    obtain rfl := Int.ofNat_inj.mp hstart
    refine ⟨[⟨a, instrs.length⟩], ?_, .last h.le fun j hj hbegins => ?_⟩
    · rw [List.mapM_cons, span_eq_ok.mpr ⟨_, hx, rfl⟩]
      rfl
    · rcases Nat.lt_or_eq_of_le hbegins.le with hlt | rfl
      · exact hrow.inner j hj hlt hbegins
      · refine h.not_begins hj (fun x hx => ?_) hbegins
        exact absurd (List.getElem?_eq_some_iff.mp hx).1 (Nat.lt_irrefl _)
  | cons m ns ih =>
    obtain ⟨⟨s', e, hprec⟩, hchain⟩ := List.isChain_cons_cons.mp hchain
    obtain rfl := Option.some.inj (hx.symm.trans hprec.label?)
    obtain rfl := Int.ofNat_inj.mp hstart
    obtain ⟨y, hy, -, hnext⟩ := hprec.next
    obtain ⟨spans, hspans, hsplits⟩ := ih hchain (by simpa using hlast) y hy hnext
    refine ⟨⟨s', e⟩ :: spans, ?_, .cons hprec.lt hprec.inner hprec.begins hsplits⟩
    rw [List.mapM_cons]
    exact bind_eq_ok.mpr ⟨⟨s', e⟩, span_eq_ok.mpr ⟨_, hx, rfl⟩, bind_eq_ok.mpr ⟨spans, hspans, rfl⟩⟩

theorem splits_ofInstrs (instrs : List Instr) :
    ∃ spans, (ofInstrs instrs).spans = .ok spans ∧ Splits instrs 0 spans := by
  obtain ⟨b, a, h, hrow, heq⟩ := exists_row instrs
  obtain ⟨n, ns, hfirst, hstart⟩ := hrow.first
  obtain ⟨ns', hlast⟩ := hrow.last
  have hblocks : (ofInstrs instrs).blocks = n :: ns := by
    rw [heq]
    exact hfirst
  unfold spans
  rw [hblocks, heq]
  refine exists_splits h hrow (hfirst ▸ hrow.chain) ?_ hstart
  rw [← hfirst, hlast, List.getLast?_concat]

/-! ## Passes -/

/-- The blocks of `q` are blocks of `p` with the same ranges. -/
def KeepsSpans (p q : Program) : Prop :=
  ∀ n ∈ q.blocks, n ∈ p.blocks ∧ ∃ s, p.span n = .ok s ∧ q.span n = .ok s

theorem KeepsSpans.refl (p : Program) : KeepsSpans p p := by
  intro n hn
  obtain ⟨b, hb⟩ := Graph.contains_iff_label?.mp (mem_blocks.mp hn).1
  have hspan := span_eq_ok.mpr ⟨b, hb, rfl⟩
  exact ⟨hn, b.opcodes, hspan, hspan⟩

theorem KeepsSpans.trans (h : KeepsSpans p q) (h' : KeepsSpans q r) : KeepsSpans p r := by
  intro n hn
  obtain ⟨hq, s, hs, hr⟩ := h' n hn
  obtain ⟨hp, t, ht, hq⟩ := h n hq
  obtain rfl := Except.ok.inj (hs.symm.trans hq)
  exact ⟨hp, s, ht, hr⟩

theorem Step.keepsSpans (h : Step p q) : KeepsSpans p q := by
  intro n hn
  obtain ⟨hlive, hreal⟩ := mem_blocks.mp hn
  obtain ⟨b', hb'⟩ := Graph.contains_iff_label?.mp hlive
  obtain ⟨b, hb, hrecoded⟩ := h.label? hb'
  rw [h.isSentinel] at hreal
  exact ⟨mem_blocks.mpr ⟨Graph.contains_iff_label?.mpr ⟨b, hb⟩, hreal⟩, b.opcodes,
    span_eq_ok.mpr ⟨b, hb, rfl⟩, span_eq_ok.mpr ⟨b', hb', hrecoded.opcodes⟩⟩

theorem Steps.keepsSpans (h : Steps p q) : KeepsSpans p q := by
  induction h with
  | refl => exact .refl p
  | tail _ hlast ih => exact ih.trans hlast.keepsSpans

theorem KeepsSpans.covers (h : KeepsSpans p q) {n : NodeId} {i : Nat} (hn : q.Covers n i) :
    p.Covers n i := by
  obtain ⟨b', hb', hreal, hi⟩ := hn
  obtain ⟨hp, s, hs, hs'⟩ := h n (mem_blocks.mpr ⟨Graph.contains_iff_label?.mpr ⟨b', hb'⟩, hreal⟩)
  obtain ⟨b, hb, hspan⟩ := span_eq_ok.mp hs
  obtain ⟨c, hc, hspan'⟩ := span_eq_ok.mp hs'
  obtain rfl := Option.some.inj (hb'.symm.trans hc)
  exact ⟨b, hb, (mem_blocks.mp hp).2, by rwa [hspan, ← hspan']⟩

/-- **New programs have the basic blocks of their code, and passes keep them apart.** The ranges of
the blocks of a new program are the basic blocks of the code. Whatever built-in passes run on it,
before or after its blocks are filled with code, they succeed, and the blocks that are left are some
of the new program's, with their ranges; no two of them cover the same instruction. -/
theorem basicBlocks_runAll (instrs : List Instr) :
    (∃ spans, (ofInstrs instrs).spans = .ok spans ∧ BasicBlocks instrs spans) ∧
      ∃ filled, build instrs = .ok filled ∧
        ∀ p ∈ [ofInstrs instrs, filled], ∀ passes : List Pass,
          (∀ pass ∈ passes, pass = .deadCode ∨ pass = .lift) →
            ∃ q, p.runAll passes = (q, .ok ()) ∧ KeepsSpans (ofInstrs instrs) q ∧
              ∀ n m i, q.Covers n i → q.Covers m i → n = m := by
  constructor
  · obtain ⟨spans, hspans, hsplits⟩ := splits_ofInstrs instrs
    exact ⟨spans, hspans, hsplits.basicBlocks⟩
  · obtain ⟨filled, hfilled, hbuild⟩ := exists_steps_build instrs
    refine ⟨filled, hfilled, fun p hp passes hpasses => ?_⟩
    have hsteps : Steps (ofInstrs instrs) p := by
      rcases List.mem_pair.mp hp with rfl | rfl
      · exact .refl
      · exact hbuild
    obtain ⟨q, hq, hruns⟩ := (hsteps.sound (sound_ofInstrs instrs)).exists_runAll hpasses
    have hkeeps := Steps.keepsSpans (hsteps.trans hruns)
    exact ⟨q, hq, hkeeps, fun n m i hn hm =>
      (tracks_ofInstrs instrs).disjoint n m i (hkeeps.covers hn) (hkeeps.covers hm)⟩

/-- A jump over a block to the first of two jump destinations, and a jump at the very end. -/
def twoDestinations : List Instr := decode [0x60, 4, 0x56, 0x00, 0x5b, 0x5b, 0x57]

theorem basicBlocks_runAll_twoDestinations :
    (∀ pass ∈ [Pass.lift, .deadCode], pass = .deadCode ∨ pass = .lift) ∧
      BasicBlocks twoDestinations [⟨0, 2⟩, ⟨2, 3⟩, ⟨3, 4⟩, ⟨4, 6⟩, ⟨6, 6⟩] ∧
      ∃ p q, build twoDestinations = .ok p ∧ p.runAll [.lift, .deadCode] = (q, .ok ()) ∧
        KeepsSpans (ofInstrs twoDestinations) q ∧
        q.spans.toOption = some [⟨0, 2⟩, ⟨3, 4⟩, ⟨4, 6⟩, ⟨6, 6⟩] := by
  have hpasses : ∀ pass ∈ [Pass.lift, .deadCode], pass = .deadCode ∨ pass = .lift := by simp
  have hnew : (ofInstrs twoDestinations).spans.toOption =
      some [⟨0, 2⟩, ⟨2, 3⟩, ⟨3, 4⟩, ⟨4, 6⟩, ⟨6, 6⟩] := by decide +kernel
  have hleft : (build twoDestinations).toOption.map (fun p =>
      (p.runAll [.lift, .deadCode]).1.spans.toOption) =
      some (some [⟨0, 2⟩, ⟨3, 4⟩, ⟨4, 6⟩, ⟨6, 6⟩]) := by decide +kernel
  obtain ⟨⟨spans, hspans, hblocks⟩, p, hp, hall⟩ := basicBlocks_runAll twoDestinations
  obtain ⟨q, hq, hkeeps, -⟩ := hall p (by simp) _ hpasses
  rw [hspans] at hnew
  rw [hp] at hleft
  have hruns : (p.runAll [.lift, .deadCode]).1.spans.toOption = _ := Option.some.inj hleft
  rw [hq] at hruns
  exact ⟨hpasses, Option.some.inj hnew ▸ hblocks, p, q, hp, hq, hkeeps, hruns⟩

end Program

end EvmFlow
