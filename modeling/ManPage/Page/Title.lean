import ManPage.Inline.Link
import ManPage.Note
import ManPage.Page.Options
import ManPage.Yaml.Scalar

/-! The title of a page, and what it puts before and behind the converted lines. -/

namespace ManPage

/-- What the title request tells about a page, as HTML text. -/
structure Title where
  title : Text := []
  sectionNumber : Text := []
  date : Option Text := none
  package : Option Text := none
  sectionText : Option Text := none
  deriving DecidableEq, Repr

namespace Title

open Inline

/-- The optional arguments of a title request are the third to the fifth, where they are not
empty. -/
def optionalArg? (args : List Text) (index : Nat) : Option Text :=
  args[index]?.filter fun arg => !arg.isEmpty

def ofArgs (args : List Text) : Title :=
  { title := escape (args[0]?.getD [])
    sectionNumber := escape (args[1]?.getD [])
    date := (optionalArg? args 2).map escape
    package := (optionalArg? args 3).map escape
    sectionText := (optionalArg? args 4).map escape }

def notes (args : List Text) : List Note :=
  (args.take 5).flatMap fun arg => (unknownEscapes arg).map Note.unknownEscape

/-- The title with its section number in parentheses, if it has one. -/
def displayName (title : Title) : Text :=
  if title.sectionNumber.isEmpty then title.title
  else title.title ++ '(' :: title.sectionNumber ++ [')']

def htmlHead (title : Title) : Text :=
  "<!DOCTYPE html>\n<html xmlns=\"".toList ++ namespaceAddress ++
    "\">\n<head>\n<meta charset=\"utf-8\" />\n<title>".toList ++ title.displayName ++
    " manual page</title>\n</head>\n<body>".toList

def htmlTrailer : Text :=
  "</body></html>".toList

/-- The entries of the front matter, in order. -/
def frontMatterEntries (title : Title) (options : Options) : List (Text × Text) :=
  [("permalink", options.permalink), ("layout", options.layout),
    ("title", Text.nonempty? title.displayName),
    ("package", title.package), ("date", title.date),
    ("section_text", title.sectionText)].filterMap
    fun (key, value) => value.map fun value => (key.toList, value)

/-- The front matter between its delimiters. -/
def frontMatter (title : Title) (options : Options) : Text :=
  "---\n".toList ++
    (frontMatterEntries title options).flatMap (fun (key, value) => Yaml.writeEntry key value) ++
    "---".toList

/-- What stands in place of the title request. -/
def head? (title : Title) (options : Options) : Option Text :=
  match options.mode with
  | .html => some title.htmlHead
  | .jekyll => some (title.frontMatter options)
  | .raw => none

/-- What stands behind the last line. -/
def trailer? (options : Options) : Option Text :=
  match options.mode with
  | .html => some htmlTrailer
  | _ => none

end Title

end ManPage
