/-!
# Numbers in text

Digits in bases up to sixteen, and whole numbers: decimal digits, perhaps after a plus sign, that
spell less than 2^64. A decimal number with an exponent is given by digits and a power of ten, and
the question is whether it is too large for floating point in 64 bits. It is settled by exact
arithmetic. Only numbers with as many places as the bound are compared with it, so the powers of
ten never grow beyond what the digits call for.
-/

namespace TreeEdit

/-- The value of a digit. -/
def digit? (c : Char) : Option Nat :=
  if '0' ≤ c && c ≤ '9' then some (c.toNat - '0'.toNat)
  else if 'a' ≤ c && c ≤ 'f' then some (c.toNat - 'a'.toNat + 10)
  else if 'A' ≤ c && c ≤ 'F' then some (c.toNat - 'A'.toNat + 10)
  else none

/-- Whether a character is a digit in a base. -/
def isDigitIn (base : Nat) (c : Char) : Bool := (digit? c).any (· < base)

/-- The number that digits spell in a base. -/
def ofDigits (base : Nat) (cs : List Char) : Nat :=
  cs.foldl (fun n c => base * n + (digit? c).getD 0) 0

/-- The whole number that the characters spell. -/
def natural? (cs : List Char) : Option Nat :=
  let digits :=
    match cs with
    | '+' :: rest => rest
    | _ => cs
  if digits.isEmpty || !digits.all (isDigitIn 10) || UInt64.size ≤ ofDigits 10 digits
  then none
  else some (ofDigits 10 digits)

/-- The whole number that the digits spell, times ten to the exponent. -/
structure Decimal where
  digits : List Char
  exponent : Int
deriving Repr

namespace Decimal

/-- The least number that no longer rounds to a finite one in 64 bits: half a step above the
largest. -/
def bound : Nat := Nat.pow 2 1024 - Nat.pow 2 970

/-- The number of places of the bound. -/
def boundPlaces : Nat := 309

/-- Whether the number reaches the bound. With fewer places it does not, with more it does. -/
def overflows (d : Decimal) : Bool :=
  let significant := d.digits.dropWhile (· == '0')
  let places : Int := significant.length + d.exponent
  if significant.isEmpty || places < boundPlaces then false
  else if boundPlaces < places then true
  else
    bound * Nat.pow 10 (-d.exponent).toNat ≤
      ofDigits 10 significant * Nat.pow 10 d.exponent.toNat

end Decimal

end TreeEdit
