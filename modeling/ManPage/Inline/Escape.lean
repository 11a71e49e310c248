import ManPage.Inline.Glyph
import ManPage.Text.Blank
import ManPage.Text.Scan

/-! The escapes of a line of text, other than those of fonts, and the characters that HTML reserves.
The steps run over the whole text one after another: the escapes of one character, ampersands,
special characters, named strings, angle brackets. -/

namespace ManPage.Inline

open Text

/-- What the escape of `c` stands for, where no name is looked up. -/
def simpleEscape (c : Char) : Text :=
  if "&%:)|^".toList.contains c then []
  else if c = 'e' ∨ c = '\\' then "&#92;".toList
  else if c = '~' ∨ c = ' ' then "&nbsp;".toList
  else if c = '-' then "\\(hy".toList
  else ['\\', c]

/-- Finds a backslash with the character behind it. -/
def simpleEscapeAt : Finder Text
  | '\\' :: c :: _ => some (simpleEscape c, 2)
  | _ => none

/-- Finds an ampersand that begins no entity of the output. -/
def ampersandAt : Finder Text
  | '&' :: rest =>
    if ownEntities.any fun entity => entity.isPrefixOf ('&' :: rest) then none
    else some ("&amp;".toList, 1)
  | _ => none

def angleBracketAt : Finder Text
  | '<' :: _ => some ("&lt;".toList, 1)
  | '>' :: _ => some ("&gt;".toList, 1)
  | _ => none

def isCodeChar (c : Char) : Bool :=
  !isBlank c && c != '\\'

def isNameChar (c : Char) : Bool :=
  isCodeChar c && c != ']'

/-- A name that a text begins with, behind a parenthesis or in brackets, and how many characters
that takes. -/
def name? : Text → Option (Text × Nat)
  | '(' :: a :: b :: _ => if isCodeChar a && isCodeChar b then some ([a, b], 3) else none
  | '[' :: rest =>
    let name := rest.takeWhile isNameChar
    if name.isEmpty || (rest.drop name.length).head? != some ']' then none
    else some (name, name.length + 2)
  | _ => none

/-- A name as it is written with `name?`, or a name of one character. -/
def shortName? : Text → Option (Text × Nat)
  | [] => none
  | c :: rest =>
    if c = '(' ∨ c = '[' then name? (c :: rest)
    else if isCodeChar c then some ([c], 1) else none

/-- An escape that names a glyph: how it is written, and the glyph, if the name has one. -/
structure NamedEscape where
  written : Text
  glyph : Option Text
  deriving DecidableEq, Repr

/-- What the output holds for an escape: a name without a glyph stays as it is written. -/
def NamedEscape.output (escape : NamedEscape) : Text :=
  escape.glyph.getD escape.written

def specialCharacterAt : Finder NamedEscape
  | '\\' :: rest =>
    (name? rest).map fun (name, width) =>
      ({ written := '\\' :: rest.take width, glyph := specialCharacters.lookup name }, width + 1)
  | _ => none

def namedStringAt : Finder NamedEscape
  | '\\' :: '*' :: rest =>
    (shortName? rest).map fun (name, width) =>
      ({ written := '\\' :: '*' :: rest.take width, glyph := namedStrings.lookup name }, width + 2)
  | _ => none

/-- A finder of escapes as one of what the output holds for them. -/
def outputs (find : Finder NamedEscape) : Finder Text := fun text =>
  (find text).map fun (escape, width) => (escape.output, width)

/-- A text whose escapes of one character are resolved and whose ampersands stand for
themselves. -/
def prepare (text : Text) : Text :=
  substitute ampersandAt (substitute simpleEscapeAt text)

/-- A prepared text with its special characters. -/
def replaceSpecialCharacters (text : Text) : Text :=
  substitute (outputs specialCharacterAt) text

def replaceNamedStrings (text : Text) : Text :=
  substitute (outputs namedStringAt) text

/-- A text with its escapes resolved and its markup characters written as entities. -/
def escape (text : Text) : Text :=
  substitute angleBracketAt (replaceNamedStrings (replaceSpecialCharacters (prepare text)))

/-- The escapes of a text whose names have no glyph: those of special characters, then those of
strings. -/
def unknownEscapes (text : Text) : List Text :=
  let prepared := prepare text
  (findAll specialCharacterAt prepared ++
    findAll namedStringAt (replaceSpecialCharacters prepared)).filterMap fun escape =>
      if escape.glyph.isNone then some escape.written else none

end ManPage.Inline
