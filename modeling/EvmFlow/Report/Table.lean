/-!
# Tables

A table is drawn with a frame of dashes and bars. Each column is as wide as its longest cell.

* `Table`: a header, rows and a footer, all with the same number of cells;
* `Table.render`: the drawn table.
-/

namespace EvmFlow

/-- A table. -/
structure Table where
  header : List String
  rows : List (List String)
  footer : List String

/-- A text of `n` blanks. -/
def spaces (n : Nat) : String := String.ofList (List.replicate n ' ')

/-- A text in the middle of a cell; of an odd number of blanks, one more stands on the right. -/
def centred (width : Nat) (s : String) : String :=
  let gap := width - s.length
  spaces (gap / 2) ++ s ++ spaces (gap - gap / 2)

/-- Whether a text is an integer. -/
def isInteger (s : String) : Bool :=
  let digits := match s.toList with
    | '-' :: rest => rest
    | cs => cs
  !digits.isEmpty && digits.all Char.isDigit

/-- A text at the right of a cell if it is an integer, and at the left if not. -/
def aligned (width : Nat) (s : String) : String :=
  let gap := spaces (width - s.length)
  if isInteger s then gap ++ s else s ++ gap

namespace Table

/-- The widths of the columns. -/
def widths (t : Table) : List Nat :=
  (t.footer :: t.rows).foldl (fun ws row => List.zipWith max ws (row.map String.length))
    (t.header.map String.length)

/-- A line of the frame around columns of the given widths. -/
def frameLine (widths : List Nat) : String :=
  "+" ++ String.join (widths.map fun w => String.ofList (List.replicate (w + 2) '-') ++ "+")

/-- A line of cells, each drawn by `draw`, with bars between them. -/
def cellLine (widths : List Nat) (draw : Nat → String → String) (cells : List String) : String :=
  "|" ++ String.join (List.zipWith (fun w s => " " ++ draw w s ++ " |") widths cells)

/-- The line of the footer: no bar stands behind an empty cell. -/
def footerLine (widths : List Nat) (cells : List String) : String :=
  let cell (w : Nat) (s : String) := " " ++ centred w s ++ " " ++ if s.isEmpty then " " else "|"
  "|" ++ String.join (List.zipWith cell widths cells)

/-- The drawn table, each line with its end. -/
def render (t : Table) : String :=
  let widths := t.widths
  let frame := frameLine widths
  let lines := [frame, cellLine widths centred t.header, frame]
    ++ t.rows.map (cellLine widths aligned)
    ++ [frame, footerLine widths t.footer, frame]
  String.join (lines.map (· ++ "\n"))

end Table

end EvmFlow
