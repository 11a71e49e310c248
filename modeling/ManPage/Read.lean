import ManPage.Inline.Link
import ManPage.Input
import ManPage.Note

/-! What reading ahead in a page yields: a value, unless a line could not be read, the page behind
what was read, and notes. -/

namespace ManPage

/-- The outcome of reading ahead. -/
structure Read (α : Type) where
  value : Except ReadError α
  input : Input
  notes : List Note := []

def escapeNotes (text : Text) : List Note :=
  (Inline.unknownEscapes text).map Note.unknownEscape

end ManPage
