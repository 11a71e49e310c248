import ManPage.Document.Entry
import ManPage.Page.Title
import ManPage.Table.Block

/-! What each line does to a document. -/

namespace ManPage.Document

open Text

/-- A paragraph starts: the current region is closed. -/
def paragraphBreak (state : State) (input : Input) : Step :=
  let (closing, nesting) := state.nesting.closeRegion
  .emit (some (closing ++ "<p>".toList)) { state with nesting } input

def title (options : Options) (state : State) (args : List Text) (input : Input) : Step :=
  { output := .ok ((Title.ofArgs args).head? options)
    state := { state with trailer := Title.trailer? options }
    input
    notes := Title.notes args }

def attributeValue (identifier : Text) : Text :=
  identifier.flatMap fun c => if c = '"' then "&quot;".toList else [c]

/-- A heading with an anchor to itself. -/
def renderHeading (level : HeadingLevel) (identifier html : Text) : Text :=
  '<' :: level.tag ++ " id=\"".toList ++ attributeValue identifier ++ "\"><a href=\"#".toList ++
    attributeValue identifier ++ "\">".toList ++ html ++ "</a></".toList ++ level.tag ++ ['>']

/-- A heading closes the current region. Without a text there is no heading. -/
def heading (level : HeadingLevel) (state : State) (args : List Text) (input : Input) : Step :=
  let read := readText args input
  match read.value with
  | .ok (some text) =>
    let html := Inline.render text
    let (identifier, anchors) := state.anchors.register html
    let (closing, nesting) := state.nesting.closeRegion
    { output := .ok (some (closing ++ renderHeading level identifier html))
      state := { state with nesting, anchors }
      input := read.input
      notes := escapeNotes text }
  | value => { output := value, state, input := read.input }

/-- An entry of a list, between `before` and `after`. The region is entered before the entry is
read. -/
def entry (region : Region) (before after : Text) (state : State) (input : Input) : Step :=
  let (start, nesting) := state.nesting.enterEntry region
  let read := readEntry input
  { output := read.value.map fun html => some (start ++ before ++ html.getD [] ++ after)
    state := { state with nesting }
    input := read.input
    notes := read.notes }

/-- The first arguments that ask for a bullet. -/
def bullets : List Text :=
  ["o", "\\(bu", "\\[bu]"].map String.toList

/-- An indented paragraph is an entry of a list if its first argument asks for a bullet. -/
def indentedParagraph (state : State) (args : List Text) (input : Input) : Step :=
  if args.head?.any bullets.contains then entry .bullets "<li>".toList [] state input
  else paragraphBreak state input

/-- The margin decreases: the region that ends is closed. -/
def marginDecrease (state : State) (input : Input) : Step :=
  let (region, nesting) := state.nesting.pop
  let output := nonempty? region.closing
  if state.nesting.isBase then
    { state with nesting }.report input .unmatchedMarginDecrease output
  else .emit output { state with nesting } input

/-- A step that leaves the document as it is. -/
def ofRead (state : State) (read : Read (Option Text)) : Step :=
  { output := read.value, state, input := read.input, notes := read.notes }

def perform (options : Options) (state : State) (request : Request) (name : Text)
    (args : List Text) (input : Input) : Step :=
  match request with
  | .title => title options state args input
  | .heading level => heading level state args input
  | .paragraph => paragraphBreak state input
  | .indentedParagraph => indentedParagraph state args input
  | .marginIncrease => .emit none { state with nesting := state.nesting.push } input
  | .marginDecrease => marginDecrease state input
  | .term => entry .definitions "<dt>".toList "</dt><dd>".toList state input
  | .font font => ofRead state (readFont font args input)
  | .alternatingFonts first second => ofRead state (readAlternate first second args input)
  | .lineBreak => .emit (some "<br>".toList) state input
  | .preformattedStart => .emit (some "<pre>".toList) state input
  | .preformattedEnd => .emit (some "</pre>".toList) state input
  | .ignored => { Step.emit none state input with notes := [.ignoredRequest name] }
  | .skippedBlock => ofRead state (skipBlock input)
  | .table =>
    let read := Table.read input
    { output := read.value.map some, state, input := read.input, notes := read.notes }

/-- The note on how far a request read ahead. -/
def readAheadNotes (request : Request) (name : Text) (args : List Text) (input : Input)
    (step : Step) : List Note :=
  match step.output with
  | .ok _ =>
    if request.readsAhead args.length then
      [.readAhead name input.name input.line (step.input.line - input.line)]
    else []
  | .error _ => []

/-- What a line with a request does. A request that is not known is a problem. -/
def dispatch (options : Options) (state : State) (name : Text) (args : List Text)
    (input : Input) : Step :=
  match Request.ofName? name with
  | some request =>
    let step := perform options state request name args input
    { step with notes := step.notes ++ readAheadNotes request name args input step }
  | none => state.report input (.unknownRequest name) none

def step (options : Options) (state : State) (line : Text) (input : Input) : Step :=
  match Line.classify line with
  | .blank => paragraphBreak state input
  | .text content =>
    { Step.emit (some (Inline.renderLine content)) state input with
      notes := escapeNotes content }
  | .empty => .emit none state input
  | .comment => .emit none state input
  | .request name args => dispatch options state name args input

end ManPage.Document
