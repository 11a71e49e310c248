import ManPage.Yaml.Resolution

/-! How a text is written as a YAML scalar: plain, in single or double quotes, or as a literal
block. A text of several lines asks for a block, one that would read back as something else for
single quotes, and any other for the plain style; where a style cannot hold a text, quotes that can
take its place. -/

namespace ManPage.Yaml

def isBreak (c : Char) : Bool :=
  c == '\r' || c == '\n' || c == '\u0085' || c == '\u2028' || c == '\u2029'

def isSeparation (c : Char) : Bool :=
  c == ' ' || c == '\t' || c == '\x00' || isBreak c

/-- A character that stands for itself outside double quotes. -/
def isPrintable (c : Char) : Bool :=
  let n := c.toNat
  n == 0x0A || (0x20 ≤ n && n ≤ 0x7E) || (0xA0 ≤ n && n ≤ 0xD7FF) ||
    (0xE000 ≤ n && n ≤ 0xFFFD && n != 0xFEFF) || 0x10000 ≤ n

/-- The end of a text, or a character that separates tokens. -/
def endsToken (rest : Text) : Bool :=
  rest.head?.all isSeparation

/-- A text whose first character would be read as markup. -/
def startsAsMarkup : Text → Bool
  | [] => false
  | c :: rest =>
    "#,[]\x7b\x7d&*!|>'\"%@`".toList.contains c || ("?:-".toList.contains c && endsToken rest)

/-- A text that holds markup behind its first character: a colon before a separation, or a hash sign
behind one. The character before the text is `previous`. -/
def holdsMarkup (previous : Char) : Text → Bool
  | [] => false
  | c :: rest =>
    (c == ':' && endsToken rest) || (c == '#' && isSeparation previous) || holdsMarkup c rest

/-- A text that would be read as markup if it were written plain. -/
def readsAsMarkup (text : Text) : Bool :=
  startsAsMarkup text ||
    (match text with
      | [] => false
      | c :: rest => holdsMarkup c rest) ||
    "---".toList.isPrefixOf text || "...".toList.isPrefixOf text

/-- A text in which a character that satisfies `p` stands before one that satisfies `q`. -/
def hasPair (p q : Char → Bool) : Text → Bool
  | a :: b :: rest => (p a && q b) || hasPair p q (b :: rest)
  | _ => false

def isSpace (c : Char) : Bool :=
  c == ' '

def needsDoubleQuotes (text : Text) : Bool :=
  !text.all isPrintable || hasPair isSpace isBreak text

def allowsPlain (text : Text) : Bool :=
  !needsDoubleQuotes text && !text.any isBreak && text.head? != some ' ' &&
    text.getLast? != some ' ' && !readsAsMarkup text

def allowsSingleQuotes (text : Text) : Bool :=
  !needsDoubleQuotes text && !hasPair isBreak isSpace text

def allowsLiteral (text : Text) : Bool :=
  !needsDoubleQuotes text && text.getLast? != some ' '

inductive Style
  | plain
  | singleQuoted
  | doubleQuoted
  | literal
  deriving DecidableEq, Repr

def style (text : Text) : Style :=
  if text.contains '\n' then if allowsLiteral text then .literal else .doubleQuoted
  else if !isAmbiguous text && allowsPlain text then .plain
  else if allowsSingleQuotes text then .singleQuoted
  else .doubleQuoted

def indent : Text :=
  [' ', ' ']

/-- The inside of single quotes; `atStart` tells that a line begins. -/
def singleQuotedInside (atStart : Bool) : Text → Text
  | [] => if atStart then indent else []
  | c :: rest =>
    if isBreak c then c :: singleQuotedInside true rest
    else
      (if atStart then indent else []) ++ (if c = '\'' then ['\'', '\''] else [c]) ++
        singleQuotedInside false rest

/-- The last `width` hexadecimal digits of a number. -/
def hexDigits (width n : Nat) : Text :=
  (List.range width).reverse.map fun place =>
    "0123456789ABCDEF".toList.getD (n / Nat.pow 16 place % 16) '0'

/-- The characters whose escape in double quotes is a letter, with that letter. -/
def letterEscapes : List (Char × Char) :=
  [('\x00', '0'), ('\x07', 'a'), ('\x08', 'b'), ('\t', 't'), ('\n', 'n'), ('\x0B', 'v'),
    ('\x0C', 'f'), ('\r', 'r'), ('\x1B', 'e'), ('"', '"'), ('\\', '\\'), ('\u0085', 'N'),
    ('\u00A0', '_'), ('\u2028', 'L'), ('\u2029', 'P')]

def escapeChar (c : Char) : Text :=
  match letterEscapes.lookup c with
  | some letter => ['\\', letter]
  | none =>
    if c.toNat ≤ 0xFF then '\\' :: 'x' :: hexDigits 2 c.toNat
    else if c.toNat ≤ 0xFFFF then '\\' :: 'u' :: hexDigits 4 c.toNat
    else '\\' :: 'U' :: hexDigits 8 c.toNat

/-- A character in double quotes. -/
def doubleQuotedChar (c : Char) : Text :=
  if !isPrintable c || isBreak c || c == '"' || c == '\\' then escapeChar c else [c]

/-- The lines of a literal block; `atStart` tells that a line begins. -/
def literalInside (atStart : Bool) : Text → Text
  | [] => []
  | c :: rest =>
    if isBreak c then c :: literalInside true rest
    else (if atStart then indent else []) ++ c :: literalInside false rest

/-- What the head of a literal block says about the breaks at its end: none stands there, or more
than one, or one that is the whole block. -/
def chomping (text : Text) : Text :=
  match text.reverse with
  | [] => ['-']
  | [last] => if isBreak last then ['+'] else ['-']
  | last :: previous :: _ =>
    if !isBreak last then ['-'] else if isBreak previous then ['+'] else []

/-- The head of a literal block: the indentation is given where the block begins with a blank. -/
def literalHead (text : Text) : Text :=
  '|' :: (if text.head?.any fun c => isSpace c || isBreak c then ['2'] else []) ++ chomping text ++
    ['\n']

def writeAs (text : Text) : Style → Text
  | .plain => text
  | .singleQuoted => '\'' :: singleQuotedInside false text ++ ['\'']
  | .doubleQuoted => '"' :: text.flatMap doubleQuotedChar ++ ['"']
  | .literal => literalHead text ++ literalInside true text

/-- A text as a scalar, with the end of its last line. -/
def writeScalar (text : Text) : Text :=
  let style := style text
  writeAs text style ++ (if style = .literal ∧ text.getLast?.any isBreak then [] else ['\n'])

/-- An entry of a mapping, with the end of its last line. -/
def writeEntry (key value : Text) : Text :=
  key ++ ": ".toList ++ writeScalar value

end ManPage.Yaml
