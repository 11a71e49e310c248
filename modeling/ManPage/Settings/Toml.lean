import ManPage.Settings.Basic
import ManPage.Text.Numeral

/-! Settings as TOML: lines that set a key to a string, comments and blank lines. -/

namespace ManPage.Settings.Toml

open Text

def isSpace (c : Char) : Bool :=
  c == ' ' || c == '\t'

def skipSpace (text : Text) : Text :=
  text.dropWhile isSpace

/-- A character that no string and no comment holds. -/
def isControl (c : Char) : Bool :=
  (c.toNat < 0x20 && c != '\t') || c.toNat == 0x7F

/-- The first line that sets a key; `inComment` tells whether the text begins inside a comment. -/
def skipLines? (inComment : Bool) : Text → Option Text
  | [] => some []
  | '\n' :: rest => skipLines? false rest
  | '\r' :: '\n' :: rest => skipLines? false rest
  | c :: rest =>
    if inComment then if isControl c then none else skipLines? true rest
    else if c = '#' then skipLines? true rest
    else if isSpace c then skipLines? false rest
    else some (c :: rest)

/-- What follows a line end that a text begins with. -/
def lineEnd? : Text → Option Text
  | '\n' :: rest => some rest
  | '\r' :: '\n' :: rest => some rest
  | _ => none

/-- The lines behind the value of a key: only a comment stands between it and the end of its
line. -/
def finishLine? (text : Text) : Option Text :=
  match skipSpace text with
  | [] => some []
  | '#' :: rest => skipLines? true rest
  | rest => (lineEnd? rest).bind (skipLines? false)

/-- A string of one character more. -/
def push (c : Char) (string : Option (Text × Text)) : Option (Text × Text) :=
  string.map fun (content, rest) => (c :: content, rest)

/-- The end of a string of several lines, at which up to two more quotes belong to it. -/
def closing? (quote : Char) (text : Text) : Option (Text × Text) :=
  if [quote, quote, quote, quote].isPrefixOf text then some ([quote, quote], text.drop 4)
  else if [quote, quote, quote].isPrefixOf text then some ([quote], text.drop 3)
  else if [quote, quote].isPrefixOf text then some ([], text.drop 2)
  else none

/-- The rest of a string without escapes, and what follows it. -/
def literal? (multiline : Bool) : Text → Option (Text × Text)
  | [] => none
  | '\n' :: rest => if multiline then push '\n' (literal? multiline rest) else none
  | '\r' :: '\n' :: rest =>
    if multiline then push '\r' (push '\n' (literal? multiline rest)) else none
  | c :: rest =>
    if c = '\'' then
      if multiline then (closing? '\'' rest).or (push c (literal? multiline rest))
      else some ([], rest)
    else if isControl c then none
    else push c (literal? multiline rest)

/-- The letters that escape a character, with that character. -/
def letterEscapes : List (Char × Char) :=
  [('b', '\x08'), ('t', '\t'), ('n', '\n'), ('f', '\x0C'), ('r', '\r'), ('e', '\x1B'), ('"', '"'),
    ('\\', '\\')]

/-- The rest of a string with escapes, and what follows it. While `trimming`, blanks and line ends
are passed over. -/
def basic? (multiline trimming : Bool) : Text → Option (Text × Text)
  | [] => none
  | '\n' :: rest =>
    if trimming then basic? multiline true rest
    else if multiline then push '\n' (basic? multiline false rest) else none
  | '\r' :: '\n' :: rest =>
    if trimming then basic? multiline true rest
    else if multiline then push '\r' (push '\n' (basic? multiline false rest)) else none
  | '\\' :: 'x' :: a :: b :: rest =>
    (charOfHex? [a, b]).bind fun c => push c (basic? multiline false rest)
  | '\\' :: 'u' :: a :: b :: c :: d :: rest =>
    (charOfHex? [a, b, c, d]).bind fun c => push c (basic? multiline false rest)
  | '\\' :: 'U' :: a :: b :: c :: d :: e :: f :: g :: h :: rest =>
    (charOfHex? [a, b, c, d, e, f, g, h]).bind fun c => push c (basic? multiline false rest)
  | '\\' :: letter :: rest =>
    if multiline && (lineEnd? (skipSpace (letter :: rest))).isSome then
      basic? multiline true (letter :: rest)
    else (letterEscapes.lookup letter).bind fun c => push c (basic? multiline false rest)
  | c :: rest =>
    if trimming && isSpace c then basic? multiline true rest
    else if c = '"' then
      if multiline then (closing? '"' rest).or (push c (basic? multiline false rest))
      else some ([], rest)
    else if isControl c || c == '\\' then none
    else push c (basic? multiline false rest)

def dropLineEnd (text : Text) : Text :=
  (lineEnd? text).getD text

def string? (text : Text) : Option (Text × Text) :=
  match text with
  | '"' :: '"' :: '"' :: rest => basic? true false (dropLineEnd rest)
  | '"' :: rest => basic? false false rest
  | '\'' :: '\'' :: '\'' :: rest => literal? true (dropLineEnd rest)
  | '\'' :: rest => literal? false rest
  | _ => none

def isKeyChar (c : Char) : Bool :=
  c.isAlphanum || c == '_' || c == '-'

/-- The name of the key that a text begins with, and what follows it. -/
def keyName? (text : Text) : Option (Text × Text) :=
  match text with
  | '"' :: rest => basic? false false rest
  | '\'' :: rest => literal? false rest
  | _ =>
    let name := text.takeWhile isKeyChar
    if name.isEmpty then none else some (name, text.drop name.length)

/-- The lines from one that sets a key on, when `limit` more keys can follow those `seen`. -/
def assignments? : Nat → List Key → Settings → Text → Option Settings
  | _, _, settings, [] => some settings
  | 0, _, _, _ => none
  | limit + 1, seen, settings, text => do
    let (name, rest) ← keyName? text
    let key ← (Key.ofName? name).filter (!seen.contains ·)
    let rest ← after? ['='] (skipSpace rest)
    let (value, rest) ← string? (skipSpace rest)
    let rest ← finishLine? rest
    assignments? limit (key :: seen) (settings.set key (some value)) rest

/-- The settings of a document, which may begin with a byte order mark. -/
def parse? (text : Text) : Option Settings :=
  (skipLines? false ((after? ['\uFEFF'] text).getD text)).bind
    (assignments? Key.all.length [] {})

end ManPage.Settings.Toml
