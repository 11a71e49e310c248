import ManPage.Text.Blank
import ManPage.Text.Scan

/-! The words of a request line. Blanks separate words, a quote at the start of a word runs to the
next quote, two quotes inside it stand for one, and an escaped quote outside quotes starts a comment
that ends the line. A blank behind a backslash separates nothing and is a plain space in its
word. -/

namespace ManPage.Line

open Text

/-- Stands for a protected blank while words are cut. -/
def protectedSpace : Char := '\uE000'

/-- Finds an escape of two characters and protects a blank that is the second. -/
def escapePair : Finder Text
  | '\\' :: c :: _ => some (if isBlank c then [protectedSpace] else ['\\', c], 2)
  | _ => none

/-- A text in which protected blanks are no blanks. -/
def protectBlanks (text : Text) : Text :=
  substitute escapePair text

/-- A word in which protected blanks are plain spaces. -/
def restoreSpaces (word : Text) : Text :=
  word.map fun c => if c = protectedSpace then ' ' else c

/-- Where the cutting of words stands: between words, in a word, or in a quoted word; `read` is what
was read of the word, the last character first. -/
inductive Place
  | between
  | word (read : Text)
  | quoted (read : Text)
  deriving DecidableEq, Repr

/-- The word that is unfinished at a place. -/
def Place.unfinished : Place → List Text
  | between => []
  | word read => [read.reverse]
  | quoted read => [read.reverse]

/-- The words that end in a text when it is cut from a place on, and the place where the end of the
text or a comment ends the cutting. -/
def cut : Place → Text → List Text × Place
  | place, [] => ([], place)
  | .between, '"' :: rest => cut (.quoted []) rest
  | .between, '\\' :: '"' :: _ => ([], .between)
  | .between, '\\' :: c :: rest => cut (.word [c, '\\']) rest
  | .between, c :: rest =>
    if isBlank c then cut .between rest else cut (.word [c]) rest
  | .word read, '\\' :: '"' :: _ => ([], .word read)
  | .word read, '\\' :: c :: rest => cut (.word (c :: '\\' :: read)) rest
  | .word read, c :: rest =>
    if isBlank c then (cut .between rest).map (read.reverse :: ·) id
    else cut (.word (c :: read)) rest
  | .quoted read, '"' :: '"' :: rest => cut (.quoted ('"' :: read)) rest
  | .quoted read, '"' :: rest => (cut .between rest).map (read.reverse :: ·) id
  | .quoted read, c :: rest => cut (.quoted (c :: read)) rest

/-- The words of a text from a place on, with the one that is unfinished at the end. -/
def cutWords (place : Place) (text : Text) : List Text :=
  (cut place text).1 ++ (cut place text).2.unfinished

def words (text : Text) : List Text :=
  (cutWords .between (protectBlanks text)).map restoreSpaces

end ManPage.Line
