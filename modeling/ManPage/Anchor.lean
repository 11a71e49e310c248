import ManPage.Text.Blank
import ManPage.Text.Numeral

/-! The anchors of headings: an identifier is the text of a heading with underscores for its blanks,
and a number behind it where another heading has it already. -/

namespace ManPage

/-- The text outside tags, when `inside` tells whether it begins inside one. -/
def stripTagsFrom (inside : Bool) : Text → Text
  | [] => []
  | c :: rest =>
    if c = '<' then stripTagsFrom true rest
    else if inside then stripTagsFrom (c != '>') rest
    else c :: stripTagsFrom false rest

def stripTags (html : Text) : Text :=
  stripTagsFrom false html

/-- The identifiers given out in a document, the last one first. -/
structure Anchors where
  given : List Text := []
  deriving DecidableEq, Repr

namespace Anchors

open Text

/-- A text with an underscore for each run of blanks. -/
def underscore : Text → Text
  | [] => []
  | c :: rest =>
    if isBlank c then
      if rest.head?.any isBlank then underscore rest else '_' :: underscore rest
    else c :: underscore rest

/-- The identifier of a heading, before numbering. -/
def base (html : Text) : Text :=
  underscore (trim (stripTags html))

def numbered (base : Text) (k : Nat) : Text :=
  base ++ '_' :: Text.ofNat k

/-- The first number from `k` on, out of `tries` numbers, with which `base` was not given out. -/
def freeNumber (given : List Text) (base : Text) : Nat → Nat → Nat
  | 0, k => k
  | tries + 1, k =>
    if given.contains (numbered base k) then freeNumber given base tries (k + 1) else k

/-- The identifier for a base that was not given out: the base, or else the base with the least
number from one on. As many numbers are tried as identifiers were given out, so one is free. -/
def fresh (anchors : Anchors) (base : Text) : Text :=
  if anchors.given.contains base then
    numbered base (freeNumber anchors.given base anchors.given.length 1)
  else base

def register (anchors : Anchors) (html : Text) : Text × Anchors :=
  let identifier := anchors.fresh (base html)
  (identifier, { given := identifier :: anchors.given })

end Anchors

end ManPage
