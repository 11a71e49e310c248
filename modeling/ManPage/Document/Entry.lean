import ManPage.Document.State
import ManPage.Line.Basic
import ManPage.Request

/-! What requests read ahead: the text of a heading or a font, the entry of a list, and blocks that
are skipped. -/

namespace ManPage.Document

/-- The text of a request: its arguments, or the next line if it has none. -/
def readText (args : List Text) (input : Input) : Read (Option Text) :=
  if args.isEmpty then
    let (value, input) := input.next
    { value, input }
  else { value := .ok (some (Text.join [' '] args)), input }

/-- The text of a font request, as HTML. -/
def readFont (font : Font) (args : List Text) (input : Input) : Read (Option Text) :=
  let read := readText args input
  match read.value with
  | .ok (some text) =>
    { read with value := .ok (some (font.wrap (Inline.render text))), notes := escapeNotes text }
  | _ => read

/-- The fonts that a request sets its arguments in by turns, as HTML. -/
def readAlternate (first second : Font) (args : List Text) (input : Input) :
    Read (Option Text) :=
  { value := .ok (some (Inline.alternate first second args)), input,
    notes := args.flatMap escapeNotes }

/-- The request for fonts that a line makes, with its arguments. -/
def fontRequest? (line : Text) : Option (Request × List Text) :=
  match Line.classify line with
  | .request name args =>
    ((Request.ofName? name).filter Request.isInlineFont).map fun request => (request, args)
  | _ => none

/-- The HTML of an entry that begins with `line`. -/
def entryOfLine (line : Text) (input : Input) : Read (Option Text) :=
  match fontRequest? line with
  | some (.font font, args) => readFont font args input
  | some (.alternatingFonts first second, args) => readAlternate first second args input
  | _ => { value := .ok (some (Inline.renderLine line)), input, notes := escapeNotes line }

/-- The entry of a list: the next line, where a request for fonts stands for its text. -/
def readEntry (input : Input) : Read (Option Text) :=
  match input.next with
  | (.ok (some line), input) => entryOfLine line input
  | (value, input) => { value, input }

/-- A line that ends a skipped block. -/
def endsSkippedBlock (line : Text) : Bool :=
  "..".toList.isPrefixOf line || "''".toList.isPrefixOf line

/-- Reads a block that leaves no output. -/
def skipBlock (input : Input) : Read (Option Text) :=
  let (block, rest) := input.takeBlock endsSkippedBlock
  match block.ending with
  | .fault error => { value := .error error, input := rest }
  | .exhausted => { value := .ok none, input := rest, notes := [.openBlock input.name] }
  | .stop _ => { value := .ok none, input := rest, notes := [.skippedBlock block.lines.length] }

end ManPage.Document
