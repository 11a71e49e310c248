import ManPage.Read

/-! The header of a table: lines of options, which end with a semicolon, and rows of column formats,
the last of which ends with a period. -/

namespace ManPage.Table

open Text

structure Format where
  centered : Bool := false
  separator : Char := '\t'
  rows : List (List Text) := []
  deriving DecidableEq, Repr

/-- The letters that begin the format of a column. -/
def columnKeys : Text :=
  "lrcnas^_=".toList

/-- The column formats of a row: each begins at a key letter, and what stands before the first key
letter is the first. -/
def columns (row : Text) : List Text :=
  let letters := lower (row.filter fun c => !isBlank c)
  let (lead, keyed) :=
    runs (letters.map fun c => if columnKeys.contains c then Sum.inr c else Sum.inl c)
  (if lead.isEmpty then [] else [lead]) ++ keyed.map fun (key, rest) => key :: rest

/-- A line of options that asks for a table in the centre. -/
def asksCentered (options : Text) : Bool :=
  ((lower options).splitOnP fun c => isBlank c || c == ',').any fun word =>
    word == "center".toList || word == "centre".toList

/-- The separator that a line of options gives behind its first `tab(`. -/
def separator? : Text → Option Char
  | [] => none
  | c :: rest =>
    if "tab(".toList.isPrefixOf (lower (c :: rest)) then
      match rest.drop 3 with
      | separator :: ')' :: _ => some separator
      | _ => none
    else separator? rest

namespace Format

/-- Applies a line of options, without its semicolon. -/
def applyOptions (format : Format) (options : Text) : Format :=
  { format with
    centered := format.centered || asksCentered options
    separator := (separator? options).getD format.separator }

def pushRow (format : Format) (row : Text) : Format :=
  { format with rows := format.rows ++ [columns row] }

def applyLine (format : Format) (line : Text) : Format :=
  let line := trimEnd line
  match before? ';' line with
  | some options => format.applyOptions options
  | none => format.pushRow ((before? '.' line).getD line)

def isLast (line : Text) : Bool :=
  (trimEnd line).getLast? == some '.'

/-- The format that a header gives. -/
def ofHeader (header : Input.Block) : Format :=
  let format := header.lines.foldl applyLine {}
  match header.ending with
  | .stop line => format.applyLine line
  | _ => format

def read (input : Input) : Read Format :=
  let (header, input) := input.takeBlock isLast
  match header.ending with
  | .fault error => { value := .error error, input }
  | _ => { value := .ok (ofHeader header), input }

/-- The element of the cells of the body row with the given index: rows that have a format other
than the last are headings. -/
def cellTag (format : Format) (index : Nat) : Text :=
  if index + 1 < format.rows.length then "th".toList else "td".toList

end Format

end ManPage.Table
