import Pseudocode.Trace.Columns

/-!
# Trace tables as text

A trace is written as a ruled table, as comma-separated values or as a Markdown table.
-/

namespace Pseudocode

/-- The ways to write a trace. -/
inductive TraceFormat where
  | text | csv | markdown
  deriving DecidableEq, Repr

namespace TraceFormat

/-- The name of a format. -/
def name : TraceFormat → String
  | text => "text" | csv => "csv" | markdown => "markdown"

/-- The format with the given name. -/
def ofName? (name : String) : Option TraceFormat :=
  [text, csv, markdown].find? (·.name == name)

end TraceFormat

/-! ## Ruled tables -/

/-- No column of a ruled table is wider than this. -/
def maxColumnWidth : Nat := 30

/-- The width of each column: that of its widest cell, up to the limit. -/
def columnWidths (rows : List (List String)) (header : List String) : List Nat :=
  let widths := rows.foldl (fun ws row => List.zipWith (fun w c => max w c.length) ws row)
    (header.map String.length)
  widths.map (min · maxColumnWidth)

/-- A text cut or filled up with blanks to a width. -/
def fitTo (width : Nat) (s : String) : String :=
  let chars := s.toList.take width
  String.ofList (chars ++ List.replicate (width - chars.length) ' ')

/-- A line of a ruled table. -/
def ruledRow (widths : List Nat) (row : List String) : String :=
  "|" ++
    String.intercalate "|" (List.zipWith (fun w c => " " ++ fitTo w c ++ " ") widths row) ++ "|"

/-- A line between the parts of a ruled table. -/
def ruleLine (widths : List Nat) : String :=
  "+" ++
    String.intercalate "+" (widths.map fun w => String.ofList (List.replicate (w + 2) '-')) ++ "+"

/-- A table with rules around its head and its rows. -/
def ruledTable (header : List String) (rows : List (List String)) : String :=
  let widths := columnWidths rows header
  let rule := ruleLine widths
  Text.unlines ([rule, ruledRow widths header, rule] ++ rows.map (ruledRow widths) ++ [rule])

/-! ## Comma-separated values -/

/-- A field is quoted if it holds a comma, a quote or a line break; quotes in it are doubled. -/
def csvField (s : String) : String :=
  let quote := '\"'
  if s.toList.any fun c => c == ',' || c == quote || c == '\n' then
    String.ofList
      (quote :: (s.toList.flatMap fun c => if c == quote then [c, c] else [c]) ++ [quote])
  else s

/-- A record on a line. -/
def csvRecord (row : List String) : String :=
  String.intercalate "," (row.map csvField)

/-- Records, each ended by a line feed; line feeds at the end of the whole are dropped. -/
def csvText (rows : List (List String)) : String :=
  String.ofList (Text.dropLastFeeds (rows.flatMap fun row => (csvRecord row).toList ++ ['\n']))

/-! ## Markdown -/

/-- A cell of a Markdown table; bars in it are escaped. -/
def markdownCell (s : String) : String :=
  String.ofList (s.toList.flatMap fun c => if c == '|' then ['\\', c] else [c])

/-- A line of a Markdown table. -/
def markdownRow (row : List String) : String :=
  "| " ++ String.intercalate " | " row ++ " |"

/-- A Markdown table. Cells are escaped, the head is not. -/
def markdownTable (header : List String) (rows : List (List String)) : String :=
  Text.unlines ([markdownRow header, "|" ++ String.intercalate "|" (header.map fun _ => "---") ++
    "|"] ++ rows.map fun row => markdownRow (row.map markdownCell))

/-! ## Traces -/

/-- Writes a trace. -/
def formatTrace (format : TraceFormat) (rows : List TraceRow) : String :=
  let columns := columnNames rows
  let header := traceHeader columns
  let cells := rows.map (·.cells columns)
  match format with
  | .text => if rows.isEmpty then "No trace data recorded." else ruledTable header cells
  | .csv => csvText (traceTable rows)
  | .markdown => markdownTable header cells

end Pseudocode
