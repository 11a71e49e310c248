import ManPage.Text.Basic

/-! The forms of output, and what a conversion is told beside the page. -/

namespace ManPage

/-- What stands around the converted lines: an HTML document, front matter, or nothing. -/
inductive OutputMode
  | html
  | jekyll
  | raw
  deriving DecidableEq, Repr

namespace OutputMode

def name : OutputMode → Text
  | html => "html".toList
  | jekyll => "jekyll".toList
  | raw => "raw".toList

def all : List OutputMode :=
  [html, jekyll, raw]

def ofName? (name : Text) : Option OutputMode :=
  all.find? (·.name = name)

def invalidMessage (name : Text) : Text :=
  "invalid output mode `".toList ++ name ++ "` (expected html, jekyll or raw)".toList

end OutputMode

/-- What a conversion is told beside the page. -/
structure Options where
  mode : OutputMode := .html
  layout : Option Text := none
  permalink : Option Text := none
  deriving DecidableEq, Repr

end ManPage
