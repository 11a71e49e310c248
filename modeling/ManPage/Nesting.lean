import ManPage.Text.Basic

/-! The block structure of a document: the regions that lines are rendered in, and the nesting of
margins, each with a region of its own. -/

namespace ManPage

/-- What a line is rendered in. -/
inductive Region
  | paragraph
  | definitions
  | bullets
  deriving DecidableEq, Repr

namespace Region

def opening : Region → Text
  | paragraph => []
  | definitions => "<dl>".toList
  | bullets => "<ul>".toList

/-- The markup that closes the open entry of a region before the next entry. -/
def separator : Region → Text
  | paragraph => []
  | definitions => "</dd>".toList
  | bullets => "</li>".toList

def closing : Region → Text
  | paragraph => []
  | definitions => "</dd></dl>".toList
  | bullets => "</li></ul>".toList

def isList : Region → Bool
  | paragraph => false
  | definitions => true
  | bullets => true

end Region

/-- The regions that are open, one for each margin: the current one, and those around it from the
inside out. -/
structure Nesting where
  current : Region := .paragraph
  outer : List Region := []
  deriving DecidableEq, Repr

namespace Nesting

/-- The regions from the outermost to the current one. -/
def toList (nesting : Nesting) : List Region :=
  nesting.outer.reverse ++ [nesting.current]

/-- Makes `region` the current one, without markup. -/
def setCurrent (nesting : Nesting) (region : Region) : Nesting :=
  { nesting with current := region }

/-- Ends the current region if it is a list, with the markup that closes it. -/
def closeRegion (nesting : Nesting) : Text × Nesting :=
  (nesting.current.closing,
    if nesting.current.isList then nesting.setCurrent .paragraph else nesting)

/-- Starts an entry of `region`: behind the separator if it is the current region, or else behind
the markup that closes the current region and opens it. -/
def enterEntry (nesting : Nesting) (region : Region) : Text × Nesting :=
  if nesting.current = region then (region.separator, nesting)
  else (nesting.current.closing ++ region.opening, nesting.setCurrent region)

/-- Increases the margin: a paragraph inside the current region. -/
def push (nesting : Nesting) : Nesting :=
  { current := .paragraph, outer := nesting.current :: nesting.outer }

/-- Decreases the margin, with the region that ends. Without a margin to leave, the current region
ends and a paragraph takes its place. -/
def pop (nesting : Nesting) : Region × Nesting :=
  match nesting.outer with
  | region :: outer => (nesting.current, { current := region, outer })
  | [] => (nesting.current, {})

/-- No margin was increased. -/
def isBase (nesting : Nesting) : Bool :=
  nesting.outer.isEmpty

/-- Closes every region, the innermost first. -/
def closeAll (nesting : Nesting) : Text × Nesting :=
  ((nesting.current :: nesting.outer).flatMap Region.closing, {})

end Nesting

end ManPage
