import EvmFlow.Report.Format
import EvmFlow.Report.Stats
import EvmFlow.Report.Table

/-!
# Listings

* `Program.listing`: the three-address code of every block, and the opcodes left without any;
* `Program.statsTable`: the numbers of the blocks as a table, and the changes of the passes.
-/

namespace EvmFlow

/-- A number in hexadecimal with its mark and at least `width` digits. -/
def markedHex (width n : Nat) : String := "0x" ++ Hex.padded width n

/-- The line that introduces a block. -/
def BlockStat.heading (s : BlockStat) : String :=
  s!"block {s.node} (" ++ markedHex 2 s.startOffset ++ ", " ++ markedHex 2 s.endOffset
    ++ s!"] arguments={s.arguments} height={s.height.toInt}"

/-- The cells of a block in the table of numbers. -/
def BlockStat.cells (s : BlockStat) : List String :=
  [toString s.node, markedHex 2 s.startOffset ++ ".." ++ markedHex 2 s.endOffset,
    toString s.opcodes, toString s.instructions, toString s.arguments, toString s.height.toInt,
    toString s.generates]

/-- The line of an opcode that has no three-address code. -/
def Gap.line (g : Gap) : String := "gap " ++ markedHex 4 g.offset ++ ": " ++ g.op.render

/-- The lines of a tally, in the order of the names of the passes. -/
def Tally.lines (t : Tally) : List String :=
  (t.mergeSort fun a b => decide (a.1 ≤ b.1)).map fun (pass, changes) =>
    s!"{pass}: {changes} changes"

namespace Program

/-- The lines of a block: its heading and its code, each instruction indented. -/
def blockLines (p : Program) (s : BlockStat) : Except Fault (List String) :=
  return s.heading :: (← p.codeLines s.node).map ("    " ++ ·)

/-- The three-address code of every block, in the order of the code, and the opcodes that
have none. -/
def listing (p : Program) : Except Fault String := do
  let blocks ← (← p.blockStats).mapM p.blockLines
  return joinLines (blocks.flatten ++ p.gaps.map Gap.line)

/-- The numbers of every block as a table, and below it the number of changes of each pass. -/
def statsTable (p : Program) : Except Fault String := do
  let stats ← p.blockStats
  let opcodes := stats.foldl (fun n s => n + s.opcodes) 0
  let instructions := stats.foldl (fun n s => n + s.instructions) 0
  let table : Table := {
    header := ["BLOCK", "OFFSETS", "OPCODES", "INSTRUCTIONS", "ARGUMENTS", "HEIGHT", "GENERATES"]
    rows := stats.map BlockStat.cells
    footer := ["", "TOTAL", toString opcodes, toString instructions, "", "", ""] }
  return table.render ++ joinLines p.tally.lines

end Program

end EvmFlow
