import ManPage.Line.Words

/-! The kinds of line in a page. A line that begins with a control character is a request, a comment
or nothing; any other line is text, or blank and so the end of a paragraph. -/

namespace ManPage

inductive Line
  | blank
  | text (content : Text)
  | empty
  | comment
  | request (name : Text) (args : List Text)
  deriving DecidableEq, Repr

namespace Line

/-- What follows the control character of a line that begins with one. -/
def control? : Text → Option Text
  | '.' :: rest => some rest
  | '\'' :: rest => some rest
  | _ => none

def isControl (line : Text) : Bool :=
  (control? line).isSome

/-- What a control line is, by the text behind its control character and any blanks. -/
def ofControl (rest : Text) : Line :=
  if rest.isEmpty then .empty
  else if "\\\"".toList.isPrefixOf rest then .comment
  else
    match words rest with
    | [] => .empty
    | name :: args => .request name args

def classify (line : Text) : Line :=
  match control? line with
  | some rest => ofControl (Text.trimStart rest)
  | none => if (Text.trim line).isEmpty then .blank else .text line

end Line

end ManPage
