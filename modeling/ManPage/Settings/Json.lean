import ManPage.Settings.Basic
import ManPage.Text.Numeral

/-! Settings as JSON: an object of the keys, or an array of their values in order. A value is a
string, or null for a key that is unset. -/

namespace ManPage.Settings.Json

open Text

def skipSpace (text : Text) : Text :=
  text.dropWhile fun c => c == ' ' || c == '\t' || c == '\n' || c == '\r'

/-- What follows the symbol `c`, which white space may stand before. -/
def symbol? (c : Char) (text : Text) : Option Text :=
  after? [c] (skipSpace text)

/-- The letters that escape a character, with that character. -/
def letterEscapes : List (Char × Char) :=
  [('"', '"'), ('\\', '\\'), ('/', '/'), ('b', '\x08'), ('f', '\x0C'), ('n', '\n'), ('r', '\r'),
    ('t', '\t')]

/-- The rest of a string, as characters and the codes that it escapes, and what follows it. -/
def codes? : Text → Option (List (Char ⊕ Nat) × Text)
  | [] => none
  | '"' :: rest => some ([], rest)
  | '\\' :: 'u' :: a :: b :: c :: d :: rest =>
    (natural? 16 [a, b, c, d]).bind fun code =>
      (codes? rest).map fun (codes, left) => (.inr code :: codes, left)
  | '\\' :: letter :: rest =>
    (letterEscapes.lookup letter).bind fun c =>
      (codes? rest).map fun (codes, left) => (.inl c :: codes, left)
  | c :: rest =>
    if c.toNat < 0x20 then none
    else (codes? rest).map fun (codes, left) => (.inl c :: codes, left)

/-- The text of characters and codes, in which a character can take two codes. -/
def decode? : List (Char ⊕ Nat) → Option Text
  | [] => some []
  | .inl c :: rest => (decode? rest).map (c :: ·)
  | .inr high :: .inr low :: rest =>
    if 0xD800 ≤ high ∧ high < 0xDC00 ∧ 0xDC00 ≤ low ∧ low < 0xE000 then
      (decode? rest).map (Char.ofNat ((high - 0xD800) * 0x400 + (low - 0xDC00) + 0x10000) :: ·)
    else if high.isValidChar then (decode? (.inr low :: rest)).map (Char.ofNat high :: ·)
    else none
  | .inr code :: rest =>
    if code.isValidChar then (decode? rest).map (Char.ofNat code :: ·) else none

def string? (text : Text) : Option (Text × Text) :=
  (symbol? '"' text).bind fun rest =>
    (codes? rest).bind fun (codes, left) => (decode? codes).map fun string => (string, left)

def value? (text : Text) : Option (Option Text × Text) :=
  match after? "null".toList (skipSpace text) with
  | some rest => some (none, rest)
  | none => (string? text).map fun (string, rest) => (some string, rest)

/-- The members of an object from a key on, when `limit` more keys can follow those `seen`. -/
def members? : Nat → List Key → Settings → Text → Option (Settings × Text)
  | 0, _, _, _ => none
  | limit + 1, seen, settings, text => do
    let (name, rest) ← string? text
    let key ← (Key.ofName? name).filter (!seen.contains ·)
    let rest ← symbol? ':' rest
    let (value, rest) ← value? rest
    let settings := settings.set key value
    match symbol? '\x7d' rest with
    | some rest => some (settings, rest)
    | none => symbol? ',' rest >>= members? limit (key :: seen) settings

/-- The elements of an array from a value on, which are those of `keys` in order. -/
def elements? : List Key → Settings → Text → Option (Settings × Text)
  | [], _, _ => none
  | key :: keys, settings, text => do
    let (value, rest) ← value? text
    let settings := settings.set key value
    match symbol? ']' rest with
    | some rest => some (settings, rest)
    | none => symbol? ',' rest >>= elements? keys settings

/-- The settings that a text begins with, and what follows them. -/
def settings? (text : Text) : Option (Settings × Text) :=
  match symbol? '\x7b' text with
  | some rest =>
    match symbol? '\x7d' rest with
    | some rest => some ({}, rest)
    | none => members? Key.all.length [] {} rest
  | none =>
    (symbol? '[' text).bind fun rest =>
      match symbol? ']' rest with
      | some rest => some ({}, rest)
      | none => elements? Key.all {} rest

def parse? (text : Text) : Option Settings :=
  (settings? text).bind fun (settings, rest) =>
    if (skipSpace rest).isEmpty then some settings else none

end ManPage.Settings.Json
