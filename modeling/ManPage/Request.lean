import ManPage.Inline.Font

/-! The requests that a page can make, by their names, and which of them read further lines. -/

namespace ManPage

inductive HeadingLevel
  | section
  | subsection
  deriving DecidableEq, Repr

def HeadingLevel.tag : HeadingLevel → Text
  | .section => "h2".toList
  | .subsection => "h3".toList

inductive Request
  | title
  | heading (level : HeadingLevel)
  | paragraph
  | indentedParagraph
  | marginIncrease
  | marginDecrease
  | term
  | font (font : Font)
  | alternatingFonts (first second : Font)
  | lineBreak
  | preformattedStart
  | preformattedEnd
  | ignored
  | skippedBlock
  | table
  deriving DecidableEq, Repr

namespace Request

/-- The letters of two fonts that make the name of a request to take these fonts in turn. -/
def alternations : List (Char × Char) :=
  [('B', 'I'), ('I', 'B'), ('B', 'R'), ('R', 'B'), ('I', 'R'), ('R', 'I')]

def names : List (Text × Request) :=
  [("TH", title), ("SH", heading .section), ("SS", heading .subsection), ("PP", paragraph),
    ("P", paragraph), ("LP", paragraph), ("IP", indentedParagraph), ("RS", marginIncrease),
    ("RE", marginDecrease), ("TP", term), ("B", font .bold), ("I", font .italic),
    ("br", lineBreak), ("nf", preformattedStart), ("EX", preformattedStart),
    ("fi", preformattedEnd), ("EE", preformattedEnd), ("ad", ignored), ("na", ignored),
    ("nh", ignored), ("hy", ignored), ("de", skippedBlock), ("ig", skippedBlock),
    ("TS", table)].map (fun (name, request) => (name.toList, request)) ++
  alternations.map fun (first, second) =>
    ([first, second], alternatingFonts (.ofLetter first) (.ofLetter second))

def ofName? (name : Text) : Option Request :=
  names.lookup name

/-- A request that can read further lines. -/
def mayReadAhead : Request → Bool
  | heading _ | font _ | indentedParagraph | term | skippedBlock | table => true
  | _ => false

/-- A request that can read further lines when it has `count` arguments: the text of a heading or of
a font is read only where no argument gives it. -/
def readsAhead (request : Request) (count : Nat) : Bool :=
  match request with
  | heading _ | font _ => count == 0
  | _ => request.mayReadAhead

/-- A request that sets its text in fonts, and so can stand for the text of an entry. -/
def isInlineFont : Request → Bool
  | font _ | alternatingFonts _ _ => true
  | _ => false

end Request

end ManPage
