import ManPage.Text.Numeral

/-! The plain scalars of YAML that stand for something other than their text: null, the truth
values and numbers. -/

namespace ManPage.Yaml

open Text

def isNull (scalar : Text) : Bool :=
  scalar.isEmpty || (["null", "Null", "NULL", "~"].map String.toList).contains scalar

def isTruthValue (scalar : Text) : Bool :=
  (["true", "True", "TRUE", "false", "False", "FALSE"].map String.toList).contains scalar

/-- The bases of numbers that are not decimal, with what stands before their digits. -/
def radixMarks : List (Text × Nat) :=
  [("0x".toList, 16), ("0o".toList, 8), ("0b".toList, 2)]

/-- An integer in a marked base whose value is at most `limit`. -/
def isMarkedInteger (limit : Nat) (scalar : Text) : Bool :=
  radixMarks.any fun (mark, radix) =>
    ((after? mark scalar).bind (natural? radix)).any (· ≤ limit)

def dropPlus (scalar : Text) : Text :=
  (after? ['+'] scalar).getD scalar

def dropSign (scalar : Text) : Text :=
  (after? ['-'] scalar).getD (dropPlus scalar)

/-- An integer in a marked base that 128 bits hold. -/
def isRadixInteger (scalar : Text) : Bool :=
  isMarkedInteger (Nat.pow 2 128 - 1) (dropPlus scalar) ||
    (after? ['-'] scalar).any (isMarkedInteger (Nat.pow 2 127))

/-- The least number that rounds to infinity in double precision. -/
def doubleLimit : Nat :=
  Nat.pow 2 1024 - Nat.pow 2 970

/-- Whether `digits`, times ten to the power `exponent`, is finite in double precision. Numbers far
from the limit are told by how many digits they have. -/
def isFinite (digits : Nat) (exponent : Int) : Bool :=
  let magnitude := ((ofNat digits).length : Int) + exponent
  if digits = 0 ∨ magnitude < 300 then true
  else if 320 < magnitude then false
  else digits * Nat.pow 10 exponent.toNat < doubleLimit * Nat.pow 10 (-exponent).toNat

/-- The value of the exponent part of a number: zero if there is none. -/
def exponent? : Text → Option Int
  | [] => some 0
  | c :: rest =>
    if c = 'e' ∨ c = 'E' then
      let value := (natural? 10 (dropSign rest)).map Int.ofNat
      if rest.head? = some '-' then value.map (- ·) else value
    else none

/-- A decimal number without a sign that is finite in double precision. -/
def isFiniteDecimal (scalar : Text) : Bool :=
  let whole := scalar.takeWhile Char.isDigit
  let rest := scalar.drop whole.length
  let fraction := ((after? ['.'] rest).getD []).takeWhile Char.isDigit
  let rest := ((after? ['.'] rest).getD rest).drop fraction.length
  ((natural? 10 (whole ++ fraction)).bind fun digits =>
    (exponent? rest).map fun exponent => isFinite digits (exponent - fraction.length)).getD false

def infinities : List Text :=
  [".inf", ".Inf", ".INF"].map String.toList

def notNumbers : List Text :=
  [".nan", ".NaN", ".NAN"].map String.toList

def isFloat (scalar : Text) : Bool :=
  isFiniteDecimal (dropSign scalar) || infinities.contains (dropSign scalar) ||
    notNumbers.contains scalar

/-- Two or more digits the first of which is zero, behind at most one sign. They are a text, though
some readers take them for a number. -/
def hasLeadingZero (scalar : Text) : Bool :=
  match dropSign scalar with
  | '0' :: c :: rest => (c :: rest).all Char.isDigit
  | _ => false

/-- A scalar that would not read back as its text, or not everywhere, if it were written plain. -/
def isAmbiguous (scalar : Text) : Bool :=
  isNull scalar || isTruthValue scalar || isRadixInteger scalar || isFloat scalar ||
    hasLeadingZero scalar

end ManPage.Yaml
