import ManPage.Anchor
import ManPage.Nesting
import ManPage.Read

/-! What a document carries from line to line, and what one line makes of it. -/

namespace ManPage.Document

/-- What a document carries from line to line: its open regions, the identifiers of its headings,
what is to stand at its end, and its problems in order. -/
structure State where
  nesting : Nesting := {}
  anchors : Anchors := {}
  trailer : Option Text := none
  problems : List Problem := []
  deriving DecidableEq, Repr

/-- What a line makes of a document: at most one piece of output, unless a line could not be read,
the document and the page behind the line, and notes. -/
structure Step where
  output : Except ReadError (Option Text)
  state : State
  input : Input
  notes : List Note := []

/-- A step that reads no further line. -/
def Step.emit (output : Option Text) (state : State) (input : Input) : Step :=
  { output := .ok output, state, input }

namespace State

/-- A document with a problem at the last line read, and a note of it. -/
def report (state : State) (input : Input) (cause : Cause) (output : Option Text) : Step :=
  let problem : Problem := { source := input.name, line := input.line, cause }
  { output := .ok output, state := { state with problems := state.problems ++ [problem] }, input,
    notes := [.problem problem] }

/-- Ends the document: the markup that closes every region, and the trailer. -/
def finish (state : State) : Option Text × State :=
  let (closing, nesting) := state.nesting.closeAll
  let tail :=
    match state.trailer with
    | some trailer => if closing.isEmpty then trailer else closing ++ '\n' :: trailer
    | none => closing
  (Text.nonempty? tail, { state with nesting, trailer := none })

end State

end ManPage.Document
