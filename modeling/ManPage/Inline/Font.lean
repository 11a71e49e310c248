import ManPage.Inline.Escape

/-! Fonts: their names, their markup, and the escapes that switch between them. A font lasts to the
next switch, and a run of it that holds no text leaves no markup. -/

namespace ManPage

inductive Font
  | roman
  | bold
  | italic
  | boldItalic
  | mono
  deriving DecidableEq, Repr

namespace Font

/-- The names of the fonts other than roman. -/
def names : List (Text × Font) :=
  [("B", bold), ("3", bold), ("I", italic), ("2", italic), ("BI", boldItalic), ("4", boldItalic),
    ("C", mono), ("CW", mono), ("CR", mono), ("CB", mono)].map
    fun (name, font) => (name.toList, font)

/-- The font of a name: roman for a name that is not known. -/
def ofName (name : Text) : Font :=
  (names.lookup name).getD roman

/-- The font of a letter in the name of a request. -/
def ofLetter (letter : Char) : Font :=
  if letter = 'B' then bold else if letter = 'I' then italic else roman

def opening : Font → Text
  | roman => []
  | bold => "<b>".toList
  | italic => "<em>".toList
  | boldItalic => "<b><em>".toList
  | mono => "<code>".toList

def closing : Font → Text
  | roman => []
  | bold => "</b>".toList
  | italic => "</em>".toList
  | boldItalic => "</em></b>".toList
  | mono => "</code>".toList

/-- HTML in a font; no markup stands around nothing. -/
def wrap (font : Font) (html : Text) : Text :=
  if html.isEmpty then [] else font.opening ++ html ++ font.closing

end Font

namespace Inline

open Text

/-- A font name that a text begins with, and how many characters it takes. -/
def fontName? : Text → Option (Text × Nat)
  | [] => none
  | '(' :: a :: b :: _ => some ([a, b], 3)
  | '(' :: _ => none
  | '[' :: rest =>
    let name := rest.takeWhile (· != ']')
    if name.length < rest.length then some (name, name.length + 2) else none
  | c :: _ => some ([c], 1)

def fontAt : Finder Font
  | '\\' :: 'f' :: rest => (fontName? rest).map fun (name, width) => (Font.ofName name, width + 2)
  | _ => none

/-- HTML with its switches of fonts as markup. -/
def expandFonts (html : Text) : Text :=
  let (lead, marked) := runs (scan fontAt html)
  lead ++ marked.flatMap fun (font, run) => font.wrap run

/-- A line of text as HTML, without links. -/
def render (text : Text) : Text :=
  expandFonts (escape text)

/-- Arguments that take two fonts in turn, joined without spaces. -/
def alternate : Font → Font → List Text → Text
  | _, _, [] => []
  | first, second, arg :: args => first.wrap (render arg) ++ alternate second first args

end Inline

end ManPage
