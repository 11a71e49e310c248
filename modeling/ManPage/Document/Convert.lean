import ManPage.Document.Progress

/-! The conversion of a page: a document takes the lines one by one, until the page ends or a line
cannot be read. -/

namespace ManPage.Document

/-- A line that a conversion read itself, its number, and what it did. -/
structure Turn where
  line : Text
  number : Nat
  step : Step

def Turn.output? (turn : Turn) : Option Text :=
  match turn.step.output with
  | .ok output => output
  | .error _ => none

/-- The lines that a document took, in order, and how that ended: at a line that could not be read,
or at the end of the page, with the document and what is unread. -/
structure Run where
  turns : List Turn := []
  failure : Option ReadError
  state : State
  input : Input

namespace Run

def after (turn : Turn) (run : Run) : Run :=
  { run with turns := turn :: run.turns }

/-- The output of a run, in pieces. -/
def chunks (run : Run) : List Text :=
  run.turns.filterMap Turn.output?

def notes (run : Run) : List Note :=
  run.turns.flatMap (·.step.notes)

end Run

/-- A document takes the unread lines of a page. -/
def run (options : Options) (state : State) (input : Input) : Run :=
  match _h : input.next with
  | (.ok (some line), rest) =>
    let step := step options state line rest
    let turn : Turn := { line, number := rest.line, step }
    match step.output with
    | .ok _ => (run options step.state step.input).after turn
    | .error error =>
      { turns := [turn], failure := some error, state := step.state, input := step.input }
  | (.ok none, rest) => { failure := none, state, input := rest }
  | (.error error, rest) => { failure := some error, state, input := rest }
termination_by input.unread.length
decreasing_by
  exact Nat.lt_of_le_of_lt (step_unread_suffix options state line rest).length_le
    (Input.next_unread_length _h)

/-- A page that was converted: its problems in order, unless a line could not be read, the output in
pieces, what is unread, and notes. -/
structure Conversion where
  result : Except ReadError (List Problem)
  chunks : List Text
  input : Input
  notes : List Note

/-- The output of a conversion, in which each piece ends a line. -/
def Conversion.html (conversion : Conversion) : Text :=
  conversion.chunks.flatMap (· ++ ['\n'])

def convert (options : Options) (input : Input) : Conversion :=
  let run := run options {} input
  match run.failure with
  | some error =>
    { result := .error error, chunks := run.chunks, input := run.input, notes := run.notes }
  | none =>
    let (tail, state) := run.state.finish
    { result := .ok state.problems, chunks := run.chunks ++ tail.toList, input := run.input,
      notes := run.notes }

end ManPage.Document
