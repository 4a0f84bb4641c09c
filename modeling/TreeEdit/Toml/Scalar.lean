import TreeEdit.Text.Numbers
import TreeEdit.Toml.Value

/-!
# TOML numbers, booleans and dates

A value that is neither quoted nor bracketed is recognised as a whole: a boolean, an integer, a
float, or a date, a time or both. Underscores separate digits. Integers fit into 64 bits with a
sign, and floats into 64 bits of floating point.
-/

namespace TreeEdit.Toml.Scalar

/-- The digits of a run in which single underscores stand between digits. -/
def digits? (base : Nat) : List Char → Option (List Char)
  | [] => none
  | [c] => if isDigitIn base c then some [c] else none
  | c :: '_' :: rest => if isDigitIn base c then (digits? base rest).map (c :: ·) else none
  | c :: rest => if isDigitIn base c then (digits? base rest).map (c :: ·) else none

/-- The digits of a decimal number without needless zeros in front. -/
def decimal? (cs : List Char) : Option (List Char) := do
  let digits ← digits? 10 cs
  if 1 < digits.length && digits.head? = some '0' then none else some digits

/-- The sign in front of a number, and the rest. -/
def sign : List Char → Bool × List Char
  | '-' :: rest => (true, rest)
  | '+' :: rest => (false, rest)
  | cs => (false, cs)

/-- An integer that fits into 64 bits with a sign. -/
def fits? (n : Int) : Option Int :=
  if Int64.minValue.toInt ≤ n && n ≤ Int64.maxValue.toInt then some n else none

/-- An integer in base sixteen, eight, two or ten. -/
def integer? : List Char → Option Int
  | '0' :: 'x' :: rest => do fits? (ofDigits 16 (← digits? 16 rest))
  | '0' :: 'o' :: rest => do fits? (ofDigits 8 (← digits? 8 rest))
  | '0' :: 'b' :: rest => do fits? (ofDigits 2 (← digits? 2 rest))
  | cs => do
    let (negative, rest) := sign cs
    let n : Int := ofDigits 10 (← decimal? rest)
    fits? (if negative then -n else n)

/-- Whether a character may stand in a run of digits. -/
def inRun (c : Char) : Bool := c.isDigit || c == '_'

/-- The power of ten after a number; without one it is zero. -/
def exponent? : List Char → Option Int
  | [] => some 0
  | c :: rest =>
    if c == 'e' || c == 'E' then do
      let (negative, digits) := sign rest
      let n : Int := ofDigits 10 (← digits? 10 digits)
      return if negative then -n else n
    else none

/-- The size of a float in digits: a whole part with a fraction, an exponent, or both. -/
def float? (cs : List Char) : Option Decimal := do
  let rest := (sign cs).2
  let whole ← decimal? (rest.takeWhile inRun)
  match rest.dropWhile inRun with
  | [] => none
  | '.' :: rest =>
    let fraction ← digits? 10 (rest.takeWhile inRun)
    let exponent ← exponent? (rest.dropWhile inRun)
    return ⟨whole ++ fraction, exponent - fraction.length⟩
  | rest => return ⟨whole, ← exponent? rest⟩

/-- Whether the characters are a float. Only a word can be infinite: digits that spell too large a
number are none. -/
def isFloat (cs : List Char) : Bool :=
  let rest := (sign cs).2
  rest = ['i', 'n', 'f'] || rest = ['n', 'a', 'n'] || (float? cs).any (!·.overflows)

/-- A number of exactly `count` digits within bounds. -/
def bounded (count low high : Nat) (cs : List Char) : Bool :=
  cs.length = count && cs.all Char.isDigit && low ≤ ofDigits 10 cs && ofDigits 10 cs ≤ high

/-- The number of days of a month. -/
def daysIn (year month : Nat) : Nat :=
  if month = 2 then
    if year % 4 = 0 && (year % 100 ≠ 0 || year % 400 = 0) then 29 else 28
  else if month = 4 || month = 6 || month = 9 || month = 11 then 30
  else 31

/-- Whether the characters are a day of the calendar. -/
def isDay (cs : List Char) : Bool :=
  match cs with
  | [y1, y2, y3, y4, '-', m1, m2, '-', d1, d2] =>
    bounded 4 0 9999 [y1, y2, y3, y4] && bounded 2 1 12 [m1, m2] &&
      bounded 2 1 (daysIn (ofDigits 10 [y1, y2, y3, y4]) (ofDigits 10 [m1, m2])) [d1, d2]
  | _ => false

/-- Whether the characters are hours and minutes. -/
def isClock (cs : List Char) : Bool :=
  match cs with
  | [h1, h2, ':', m1, m2] => bounded 2 0 23 [h1, h2] && bounded 2 0 59 [m1, m2]
  | _ => false

/-- Whether the characters are a time of day; seconds and their fraction may be left out. -/
def isTime (cs : List Char) : Bool :=
  isClock (cs.take 5) &&
    match cs.drop 5 with
    | [] => true
    | [':', s1, s2] => bounded 2 0 60 [s1, s2]
    | ':' :: s1 :: s2 :: '.' :: fraction =>
      bounded 2 0 60 [s1, s2] && !fraction.isEmpty && fraction.all Char.isDigit
    | _ => false

/-- Whether the characters are the distance from universal time. -/
def isOffset : List Char → Bool
  | [c] => c == 'Z' || c == 'z'
  | c :: rest => (c == '+' || c == '-') && isClock rest
  | [] => false

/-- Whether the characters are a date, a time, or both. -/
def isDate (cs : List Char) : Bool :=
  isTime cs || isDay cs ||
    match cs.drop 10 with
    | c :: rest =>
      let inTime (c : Char) : Bool := c.isDigit || c == ':' || c == '.'
      isDay (cs.take 10) && (c == 'T' || c == 't' || c == ' ') &&
        isTime (rest.takeWhile inTime) &&
        ((rest.dropWhile inTime).isEmpty || isOffset (rest.dropWhile inTime))
    | [] => false

/-- The value of a word that is neither quoted nor bracketed. -/
def value? (cs : List Char) : Option Value :=
  if cs = "true".toList then some (.boolean true)
  else if cs = "false".toList then some (.boolean false)
  else
    match integer? cs with
    | some n => some (.integer n)
    | none => if isFloat cs then some .float else if isDate cs then some .date else none

end TreeEdit.Toml.Scalar
