import EvmFlow.Report.Format

/-!
# Graph drawings

The graph of a program in the language of GraphViz: a line for each node, then a line for each edge.
Static edges are solid and dynamic ones dashed.

* `Dot.escape`: a text as it stands between the quotes of a label;
* `Program.dot`: the drawing.
-/

namespace EvmFlow

/-- A character of a label: a quote and a backslash follow a backslash, and a line end is written so
that the line above it is set to the left. -/
def Dot.escapeChar (c : Char) : List Char :=
  if c = '\\' then ['\\', '\\']
  else if c = '"' then ['\\', '"']
  else if c = '\n' then ['\\', 'l']
  else [c]

/-- A text as it stands between the quotes of a label. -/
def Dot.escape (s : String) : String := String.ofList (s.toList.flatMap Dot.escapeChar)

/-- How a node is drawn. -/
structure Dot.Shape where
  color : String
  shape : String
  label : String

namespace Program

/-- How the node `n` of a program is drawn, with the body of a block in its label. -/
def shape (p : Program) (format : BlockFormat) (n : NodeId) : Except Fault Dot.Shape := do
  if n = p.sentinels.terminator then return ⟨"red", "oval", "Terminator"⟩
  if n = p.sentinels.start then return ⟨"red", "oval", "Start"⟩
  if n = p.sentinels.invalidJump then return ⟨"blue", "hexagon", "Invalid jump target"⟩
  if n = p.sentinels.jumpTable then return ⟨"blue", "diamond", "Dynamic jump table"⟩
  let span := (← p.block n).opcodes
  let start ← p.offset span.start
  let stop ← p.offset span.stop
  let body ← p.formatBlock n format
  return ⟨"black", "rectangle",
    "Bytecode (0x" ++ Hex.padded 2 start ++ ", 0x" ++ Hex.padded 2 stop ++ "]\n---\n" ++ body⟩

/-- The line of a node. -/
def dotNode (p : Program) (format : BlockFormat) (n : NodeId) : Except Fault String := do
  let s ← p.shape format n
  return s!"    {n} [ color={s.color} shape={s.shape} label=\"" ++ Dot.escape s.label ++ "\" ]"

/-- The line of an edge. -/
def dotEdge (x : Graph.Edge) : String :=
  let style := match x.branch with
    | .static => "solid"
    | .dynamic => "dashed"
  s!"    {x.source} -> {x.target} [ style={style} ]"

/-- The drawing of a program. -/
def dot (p : Program) (format : BlockFormat) : Except Fault String := do
  let nodes ← p.graph.nodeIds.mapM (p.dotNode format)
  let edges := (p.graph.edgeIds.filterMap p.graph.edge?).map dotEdge
  return joinLines (["digraph \x7b"] ++ nodes ++ edges ++ ["\x7d"])

end Program

end EvmFlow
