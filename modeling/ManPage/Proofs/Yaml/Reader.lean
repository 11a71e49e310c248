import ManPage.Proofs.Yaml.Lines
import ManPage.Yaml.Resolution
import Mathlib.Data.List.DropRight

/-! A reader of front matter: a block of entries between two lines of dashes, each with a key and a
scalar that is plain, in single or double quotes, or a literal block. Plain and double-quoted
scalars are read on one line only. Breaks are those of YAML 1.1, and what a plain scalar stands for
is told as in `ManPage.Yaml.Resolution`. A scalar is read with the end of its last line. -/

namespace ManPage.Yaml

open Text

/-! ### Plain scalars -/

/-- A text that begins as a plain scalar does: with no indicator, or with a dash, question mark or
colon that belongs to what follows. -/
def startsPlain : Text → Bool
  | [] => false
  | c :: rest =>
    if "?:-".toList.contains c then rest.head?.any (!isSpace ·)
    else !(isSpace c || "#,[]\x7b\x7d&*!|>'\"%@`".toList.contains c)

/-- A text that is a plain scalar: it holds no colon before a space and no hash sign behind one, and
no space or colon ends it. -/
def isPlain (text : Text) : Bool :=
  startsPlain text && !text.any isBreak && !text.getLast?.any (fun c => isSpace c || c == ':') &&
    !hasPair (· == ':') isSpace text && !hasPair isSpace (· == '#') text

/-- A plain scalar that stands for its text, and not for null, a truth value or a number. -/
def resolvesToText (scalar : Text) : Bool :=
  !isNull scalar && !isTruthValue scalar && !isRadixInteger scalar && !isFloat scalar

def readPlain? (text : Text) : Option Text :=
  (before? '\n' text).filter fun scalar => isPlain scalar && resolvesToText scalar

/-! ### Quotes -/

/-- What a run of spaces and breaks stands for in single quotes. Spaces beside a break mean nothing.
A line feed alone is read as a space, and is dropped in front of other breaks; the other breaks
stand for themselves. -/
def fold (blanks : Text) : Text :=
  match blanks.filter isBreak with
  | [] => blanks
  | ['\n'] => [' ']
  | '\n' :: more => more
  | breaks => breaks

/-- Reads single quotes to their end, behind a run of spaces and breaks. -/
def singleQuotedFrom (blanks : Text) : Text → Option Text
  | [] => none
  | ['\'', '\n'] => some (fold blanks)
  | '\'' :: '\'' :: rest => (singleQuotedFrom [] rest).map (fold blanks ++ '\'' :: ·)
  | c :: rest =>
    if c = '\'' then none
    else if isSpace c || isBreak c then singleQuotedFrom (blanks ++ [c]) rest
    else (singleQuotedFrom [] rest).map (fold blanks ++ c :: ·)

/-- The letters that stand for a character behind a backslash. -/
def letterMeanings : List (Char × Char) :=
  [('0', '\x00'), ('a', '\x07'), ('b', '\x08'), ('t', '\t'), ('\t', '\t'), ('n', '\n'),
    ('v', '\x0B'), ('f', '\x0C'), ('r', '\r'), ('e', '\x1B'), (' ', ' '), ('"', '"'), ('/', '/'),
    ('\\', '\\'), ('N', '\u0085'), ('_', '\u00A0'), ('L', '\u2028'), ('P', '\u2029')]

/-- The letters before the hexadecimal digits of a character, with the number of digits. -/
def hexWidths : List (Char × Nat) :=
  [('x', 2), ('u', 4), ('U', 8)]

/-- The character that an escape stands for, and how many characters the escape takes behind its
backslash. -/
def escape? : Text → Option (Char × Nat)
  | [] => none
  | letter :: rest =>
    match hexWidths.lookup letter with
    | some width => (charOfHex? (rest.take width)).map (·, width + 1)
    | none => (letterMeanings.lookup letter).map (·, 1)

/-- Reads double quotes on one line to their end, where the first `skip` characters belong to an
escape already read. -/
def doubleQuotedFrom : Nat → Text → Option Text
  | _, [] => none
  | skip + 1, _ :: rest => doubleQuotedFrom skip rest
  | 0, c :: rest =>
    if c = '"' then if rest = ['\n'] then some [] else none
    else if c = '\\' then
      (escape? rest).bind fun (found, width) => (doubleQuotedFrom width rest).map (found :: ·)
    else if isBreak c then none
    else (doubleQuotedFrom 0 rest).map (c :: ·)

/-! ### Literal blocks -/

/-- What becomes of the breaks at the end of a literal block. -/
inductive Chomping
  | strip
  | clip
  | keep
  deriving DecidableEq, Repr

namespace Chomping

def ofMark? (mark : Text) : Option Chomping :=
  [("-".toList, strip), ("".toList, clip), ("+".toList, keep)].lookup mark

/-- The content of a block when the breaks at its end are all dropped, or all but the first behind
a line with something in it, or kept. -/
def apply (content : Text) : Chomping → Text
  | strip => content.rdropWhile isBreak
  | clip =>
    let kept := content.rdropWhile isBreak
    if kept.isEmpty then [] else kept ++ (content.rtakeWhile isBreak).take 1
  | keep => content

end Chomping

/-- The first line of a literal block behind its bar: how far the block is indented, if it is said
there, and what becomes of its last breaks. -/
def blockHead? (head : Text) : Option (Option Nat × Chomping) :=
  match head.head?.bind (digit? 10) with
  | some 0 => none
  | some width => (Chomping.ofMark? head.tail).map (some width, ·)
  | none => (Chomping.ofMark? head).map (none, ·)

/-- The widest indentation up to the first line with something in it. -/
def blockWidthFrom (column : Nat) : Text → Nat
  | [] => column
  | c :: rest =>
    if isSpace c then blockWidthFrom (column + 1) rest
    else if isBreak c then max column (blockWidthFrom 0 rest)
    else column

/-- The lines of a block without their indentation, of which `left` spaces are still to come in the
first line. A line that is indented less is empty. -/
def unindentFrom (width : Nat) : Nat → Text → Option Text
  | _, [] => some []
  | left, c :: rest =>
    if isBreak c then (unindentFrom width width rest).map (c :: ·)
    else
      match left with
      | 0 => (unindentFrom width 0 rest).map (c :: ·)
      | left + 1 => if isSpace c then unindentFrom width left rest else none

def readLiteral? (text : Text) : Option Text :=
  (cutAt? '\n' text).bind fun (head, block) =>
    (blockHead? head).bind fun (said, chomping) =>
      let width := said.getD (max 1 (blockWidthFrom 0 block))
      (unindentFrom width width block).map chomping.apply

/-! ### Entries -/

def readScalar? : Text → Option Text
  | '\'' :: rest => singleQuotedFrom [] rest
  | '"' :: rest => doubleQuotedFrom 0 rest
  | '|' :: rest => readLiteral? rest
  | text => readPlain? text

/-- A key that is a word. -/
def isKey (text : Text) : Bool :=
  !text.isEmpty && text.all (fun c => c.isAlpha || c == '_') && resolvesToText text

def entryOf? (entry : Text) : Option (Text × Text) :=
  (cutAt? ':' entry).bind fun (key, rest) =>
    if isKey key then
      (after? [' '] rest).bind fun scalar => (readScalar? scalar).map (key, ·)
    else none

/-- A line that ends a document, or begins another. -/
def isDelimiter (line : Text) : Bool :=
  ["---".toList, "...".toList].any fun mark =>
    (after? mark line).any fun rest => rest.head?.all fun c => isSpace c || isBreak c

/-- The entries between two lines of dashes. Nothing stands behind the second one. -/
def readFrontMatter? (text : Text) : Option (List (Text × Text)) :=
  match lines text with
  | [] => none
  | first :: rest =>
    let body := rest.takeWhile (!isDelimiter ·)
    if text.all isPrintable ∧ first = "---\n".toList ∧ rest.drop body.length = ["---".toList] then
      (blocks body).mapM fun block => entryOf? block.flatten
    else none

end ManPage.Yaml
