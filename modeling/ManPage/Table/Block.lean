import ManPage.Line.Basic
import ManPage.Table.Format

/-! Tables: a header, and body lines up to the request that ends the table. Each body line is a row
of cells, unless it is a rule or a request. -/

namespace ManPage.Table

open Text

def isEnd (line : Text) : Bool :=
  (Line.control? line).any fun rest => "TE".toList.isPrefixOf (trimStart rest)

def isRule (line : Text) : Bool :=
  trim line == ['_'] || trim line == ['=']

def isRow (line : Text) : Bool :=
  !isRule line && !Line.isControl line

def cells (format : Format) (line : Text) : List Text :=
  (line.splitOn format.separator).map trim

def renderCell (tag cell : Text) : Text :=
  '<' :: tag ++ '>' :: Inline.render cell ++ "</".toList ++ tag ++ ['>']

def renderRow (format : Format) (index : Nat) (line : Text) : Text :=
  "<tr>".toList ++ (cells format line).flatMap (renderCell (format.cellTag index)) ++
    "</tr>".toList

def opening (format : Format) : Text :=
  if format.centered then "<table align=\"center\">".toList else "<table>".toList

/-- A table with the given body lines. -/
def render (format : Format) (body : List Text) : Text :=
  opening format ++ ((body.filter isRow).mapIdx (renderRow format)).flatMap ('\n' :: ·) ++
    "\n</table>".toList

def lineNotes (format : Format) (line : Text) : List Note :=
  if isRule line then []
  else if Line.isControl line then [.requestInTable line]
  else (cells format line).flatMap escapeNotes

/-- Reads and renders a body for a header that was read. -/
def readBody (format : Format) (input : Input) : Read Text :=
  let (body, input) := input.takeBlock isEnd
  let notes := body.lines.flatMap (lineNotes format)
  let counts := Note.table format.rows.length (body.lines.filter isRow).length
  match body.ending with
  | .fault error => { value := .error error, input, notes }
  | .exhausted =>
    { value := .ok (render format body.lines), input,
      notes := notes ++ [.openTable input.name, counts] }
  | .stop _ => { value := .ok (render format body.lines), input, notes := notes ++ [counts] }

/-- Reads and renders a table, behind the request that starts it. -/
def read (input : Input) : Read Text :=
  match Format.read input with
  | { value := .error error, input, notes } => { value := .error error, input, notes }
  | { value := .ok format, input, .. } => readBody format input

end ManPage.Table
