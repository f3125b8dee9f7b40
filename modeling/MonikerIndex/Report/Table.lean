import MonikerIndex.Graph.Stats

/-!
# Tables

A table has a frame with round corners, a line below its header, and a blank on either side of each
cell. Every column is as wide as its widest cell, and cells stand at the left. A cell of several
lines makes its row higher. Without rows there is no table at all.
-/

namespace MonikerIndex

/-- One row of a table of counts. -/
structure TableRow where
  element : String
  label : String
  count : Nat
  deriving DecidableEq, Repr, Inhabited

namespace TableRow

/-- The headings of the columns. -/
def headings : List String := ["Element", "Label", "Count"]

/-- The texts in a row. -/
def cells (row : TableRow) : List String :=
  [row.element, row.label, toString row.count]

end TableRow

namespace Table

/-- The lines of a cell. -/
def cellLines (cell : String) : List String :=
  cell.splitOn "\n"

/-- Whether a character is a control character. -/
def isControl (c : Char) : Bool :=
  c.toNat < 32 || (127 ≤ c.toNat && c.toNat < 160)

/-- The width of a line. Control characters have none; all others are taken to be as wide as a
    letter, which holds for those of ASCII. -/
def lineWidth (line : String) : Nat :=
  line.toList.countP fun c => !isControl c

/-- The width of a cell. -/
def cellWidth (cell : String) : Nat :=
  ((cellLines cell).map lineWidth).foldl max 0

/-- The widths of the columns that fit all rows. -/
def widths (rows : List (List String)) : List Nat :=
  match rows with
  | [] => []
  | first :: others =>
      others.foldl (fun widths row => widths.zipWith max (row.map cellWidth)) (first.map cellWidth)

/-- A text filled up with blanks to a width. -/
def fit (width : Nat) (text : String) : String :=
  text ++ String.ofList (List.replicate (width - lineWidth text) ' ')

/-- A line of the frame: its left end, its crossings and its right end. -/
def rule (left crossing right : String) (widths : List Nat) : String :=
  let stroke (width : Nat) : String := String.ofList (List.replicate (width + 2) '─')
  left ++ crossing.intercalate (widths.map stroke) ++ right

/-- The lines of a row. -/
def rowLines (widths : List Nat) (row : List String) : List String :=
  let columns := row.map cellLines
  let height := (columns.map List.length).foldl max 0
  (List.range height).map fun i =>
    let cell (width : Nat) (lines : List String) : String :=
      " " ++ fit width ((lines[i]?).getD "") ++ " "
    "│" ++ "│".intercalate (widths.zipWith cell columns) ++ "│"

/-- A table with the given headings. -/
def render (headings : List String) (rows : List (List String)) : String :=
  if rows.isEmpty then ""
  else
    let widths := widths (headings :: rows)
    "\n".intercalate ([rule "╭" "┬" "╮" widths] ++ rowLines widths headings
      ++ [rule "├" "┼" "┤" widths] ++ rows.flatMap (rowLines widths) ++ [rule "╰" "┴" "╯" widths])

/-- A table of counts. -/
def ofRows (rows : List TableRow) : String :=
  render TableRow.headings (rows.map TableRow.cells)

end Table

/-- The counts of a graph as a table. -/
def GraphStats.table (stats : GraphStats) : String :=
  Table.ofRows (stats.vertices.map (fun (word, count) => ⟨"vertex", word, count⟩)
    ++ stats.edges.map (fun (word, count) => ⟨"edge", word, count⟩))

end MonikerIndex
