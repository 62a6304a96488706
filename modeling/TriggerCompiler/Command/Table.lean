import TriggerCompiler.Text.Width

/-! Tables drawn with box characters. A column is as wide as its widest line, a cell may have several
lines, and cells are aligned to the left with a blank on each side. -/

namespace TriggerCompiler

structure Table where
  header : List String
  rows : List (List String)

namespace Table

def cellLines (cell : String) : List String := cell.splitOn "\n"

def cellWidth (cell : String) : Nat := ((cellLines cell).map Text.width).foldl max 0

def widths (t : Table) : List Nat :=
  t.header.zipIdx.map fun (title, i) =>
    (t.rows.map fun row => cellWidth (row.getD i "")).foldl max (cellWidth title)

/-- The characters of a horizontal line: its ends, the line itself and its crossings. -/
structure Rule where
  left : String
  line : String
  cross : String
  right : String

def Rule.top : Rule := ⟨"┌", "─", "┬", "┐"⟩

def Rule.header : Rule := ⟨"╞", "═", "╪", "╡"⟩

def Rule.between : Rule := ⟨"├", "╌", "┼", "┤"⟩

def Rule.bottom : Rule := ⟨"└", "─", "┴", "┘"⟩

def Rule.draw (r : Rule) (widths : List Nat) : String :=
  r.left ++ r.cross.intercalate (widths.map fun w => "".intercalate (List.replicate (w + 2) r.line)) ++
    r.right

def padded (w : Nat) (line : String) : String :=
  " " ++ line ++ String.ofList (List.replicate (w - Text.width line + 1) ' ')

def rowLines (widths : List Nat) (row : List String) : List String :=
  let cells := widths.zipIdx.map fun (w, i) => (w, cellLines (row.getD i ""))
  let height := (cells.map fun c => c.2.length).foldl max 0
  (List.range height).map fun k =>
    "│" ++ "┆".intercalate (cells.map fun (w, lines) => padded w (lines.getD k "")) ++ "│"

def lines (t : Table) : List String :=
  let widths := t.widths
  let body := t.rows.map (rowLines widths)
  [Rule.top.draw widths] ++ rowLines widths t.header ++ [Rule.header.draw widths] ++
    [Rule.between.draw widths].intercalate body ++ [Rule.bottom.draw widths]

/-- The table as text, without a line end behind the last line. -/
def render (t : Table) : String := "\n".intercalate t.lines

end Table

end TriggerCompiler
