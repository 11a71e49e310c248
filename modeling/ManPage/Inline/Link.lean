import ManPage.Inline.Font

/-! Links: a web address in a line becomes an anchor to itself. An address is a scheme, labels of a
host with dots between them, a port, segments of a path, and an ending; each part is as long as it
can be. -/

namespace ManPage.Inline

open Text

def isLabelChar (c : Char) : Bool :=
  c.isAlphanum || c == '-'

def isSegmentChar (c : Char) : Bool :=
  c.isAlphanum || "_~%+-".toList.contains c

/-- How many characters at the start of a text satisfy `p`, or satisfy `separator` and stand
directly before one that satisfies `p`. -/
def runWidth (p separator : Char → Bool) : Text → Nat
  | [] => 0
  | c :: rest =>
    if p c || (separator c && (rest.head?.any p)) then runWidth p separator rest + 1 else 0

/-- How many characters a host takes at the start of a text: labels with dots between them. -/
def hostWidth (text : Text) : Nat :=
  if text.head?.any isLabelChar then runWidth isLabelChar (· == '.') text else 0

def portWidth : Text → Nat
  | ':' :: rest =>
    let digits := (rest.takeWhile Char.isDigit).length
    if digits = 0 then 0 else digits + 1
  | _ => 0

/-- How many characters a path takes at the start of a text: segments, each behind a slash and with
dots between its parts. -/
def pathWidth (text : Text) : Nat :=
  if text.head? = some '/' then runWidth isSegmentChar (fun c => c == '/' || c == '.') text else 0

def endings : List Text :=
  [".html".toList, ".pdf".toList, "/".toList]

def endingWidth (text : Text) : Nat :=
  ((endings.find? (·.isPrefixOf text)).getD []).length

/-- The schemes of an address, with what stands between them and the host. -/
def schemes : List Text :=
  ["http://".toList, "https://".toList]

/-- How many characters an address takes behind its scheme: none if there is no host. -/
def addressWidth (text : Text) : Nat :=
  let host := hostWidth text
  if host = 0 then 0
  else
    let port := host + portWidth (text.drop host)
    let path := port + pathWidth (text.drop port)
    path + endingWidth (text.drop path)

def addressAt : Finder Text := fun text => do
  let scheme ← schemes.find? (·.isPrefixOf text)
  let width := addressWidth (text.drop scheme.length)
  if width = 0 then none
  else some (text.take (scheme.length + width), scheme.length + width)

/-- The address of the namespace of HTML, which is no link. -/
def namespaceAddress : Text :=
  "http://www.w3.org/1999/xhtml".toList

/-- The host and path of an address, without slashes at the end and in lower case. -/
def hostPath (address : Text) : Text :=
  let rest := (schemes.findSome? (Text.after? · address)).getD address
  lower (rest.reverse.dropWhile (· == '/')).reverse

/-- An address whose host and path are those of the namespace of HTML. -/
def isExempt (address : Text) : Bool :=
  hostPath address == hostPath namespaceAddress

def encodeAttributeChar : Char → Text
  | '&' => "&amp;".toList
  | '<' => "&lt;".toList
  | '>' => "&gt;".toList
  | '"' => "&quot;".toList
  | c => [c]

/-- A text as the value of an attribute between double quotes. -/
def encodeAttribute (text : Text) : Text :=
  text.flatMap encodeAttributeChar

/-- An anchor that leads to the address that it shows. -/
def anchor (address : Text) : Text :=
  "<a href=\"".toList ++ encodeAttribute address ++ "\">".toList ++ address ++ "</a>".toList

/-- Finds an address, and answers the anchor that takes its place. -/
def linkAt : Finder Text := fun text =>
  (addressAt text).map fun (address, width) =>
    (if isExempt address then address else anchor address, width)

def link (html : Text) : Text :=
  substitute linkAt html

def renderLine (text : Text) : Text :=
  link (render text)

end ManPage.Inline
