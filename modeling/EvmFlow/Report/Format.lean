import EvmFlow.Program
import EvmFlow.Text.Case
import EvmFlow.Text.Quoted

/-!
# Block bodies

* `BlockFormat`: what is shown of a block, and its name in either case (`BlockFormat.parse`);
* `Program.formatBlock`: the body of a block, one line for each opcode or instruction.
-/

namespace EvmFlow

/-- What is shown of a block: nothing, its opcodes, or its three-address code. -/
inductive BlockFormat where
  | bare
  | bytecode
  | ir
deriving DecidableEq

/-- A name that is no block format. -/
structure UnknownFormat where
  name : String

/-- The wording of an unknown format. -/
def UnknownFormat.message (e : UnknownFormat) : String :=
  "unknown block format " ++ Quoted.render e.name ++ " (use none, bytecode or ir)"

/-- The block format of a name; the empty name is that of the bare format. -/
def BlockFormat.parse (name : String) : Except UnknownFormat BlockFormat :=
  if name.isEmpty || sameKeyword name "none" then .ok .bare
  else if sameKeyword name "bytecode" then .ok .bytecode
  else if sameKeyword name "ir" then .ok .ir
  else .error ⟨name⟩

/-- The lines, each with its end. -/
def joinLines (lines : List String) : String := String.join (lines.map (· ++ "\n"))

namespace Program

/-- The three-address code at a node, one text for each instruction. -/
def codeLines (p : Program) (n : NodeId) : Except Fault (List String) := do
  (← p.block n).instructions.mapM (Instruction.render p.symbols)

/-- The body of the block at a node. -/
def formatBlock (p : Program) (n : NodeId) : BlockFormat → Except Fault String
  | .bare => .ok ""
  | .bytecode => return joinLines ((← p.opcodes n).map fun i => i.instr.render)
  | .ir => return joinLines (← p.codeLines n)

end Program

end EvmFlow
