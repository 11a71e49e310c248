/-! Texts as lists of characters: how they begin and end, and where they are cut. -/

namespace ManPage

/-- A text is the list of its characters. -/
abbrev Text := List Char

namespace Text

/-- The lines of a list in which each line ends with a member that satisfies `p`; the last line may
go without one, unless it is empty. -/
def linesWhere {α : Type} (p : α → Bool) : List α → List (List α)
  | [] => []
  | a :: rest =>
    if p a then [] :: linesWhere p rest
    else
      match linesWhere p rest with
      | [] => [[a]]
      | line :: lines => (a :: line) :: lines

/-- The texts before and after the first `c`. -/
def cutAt? (c : Char) : Text → Option (Text × Text)
  | [] => none
  | a :: rest =>
    if a = c then some ([], rest) else (cutAt? c rest).map fun (before, after) => (a :: before, after)

/-- What follows `start` in a text that begins with it. -/
def after? (start text : Text) : Option Text :=
  if start.isPrefixOf text then some (text.drop start.length) else none

/-- What comes before `last` in a text that ends with it. -/
def before? (last : Char) (text : Text) : Option Text :=
  if text.getLast? = some last then some text.dropLast else none

/-- A text, unless it is empty. -/
def nonempty? (text : Text) : Option Text :=
  if text.isEmpty then none else some text

/-- A text with its ASCII letters in lower case. -/
def lower (text : Text) : Text :=
  text.map Char.toLower

/-- Texts one after another, with `separator` between neighbours. -/
def join (separator : Text) (texts : List Text) : Text :=
  separator.intercalate texts

end Text

end ManPage
