import ManPage.Text.Basic

/-! Natural numbers in texts. -/

namespace ManPage.Text

def ofNat (n : Nat) : Text :=
  Nat.toDigits 10 n

/-- The value of a digit below `radix`, which is at most sixteen. -/
def digit? (radix : Nat) (c : Char) : Option Nat :=
  let value :=
    if c.isDigit then c.toNat - '0'.toNat
    else if 'a' ≤ c ∧ c ≤ 'f' then c.toNat - 'a'.toNat + 10
    else if 'A' ≤ c ∧ c ≤ 'F' then c.toNat - 'A'.toNat + 10
    else radix
  if value < radix then some value else none

/-- The value of one or more digits below `radix`. -/
def natural? (radix : Nat) (digits : Text) : Option Nat :=
  if digits.isEmpty then none
  else digits.foldlM (fun value c => (digit? radix c).map (value * radix + ·)) 0

/-- The character whose code hexadecimal digits give. -/
def charOfHex? (digits : Text) : Option Char :=
  ((natural? 16 digits).filter fun n => n.isValidChar).map Char.ofNat

end ManPage.Text
