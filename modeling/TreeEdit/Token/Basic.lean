import TreeEdit.Text.Pos

/-!
# Tokens and reading errors

A document is a sequence of brackets, atoms, strings and comments. Reading can fail in four ways,
each at one position; every wording stands in `ReadError.message`.

Some atoms are numbers: after at most one sign, either a fraction of two digit runs or a decimal
numeral, which is a digit run with an optional point somewhere in it and an optional exponent.
Digits are ASCII digits. The first character after the sign is a digit or a point.
-/

namespace TreeEdit

/-- The two pairs of brackets. They mean the same and must not be mixed. -/
inductive Bracket where
  | round
  | square
deriving DecidableEq, Repr

namespace Bracket

/-- The opening character. -/
def opener : Bracket → Char
  | round => '('
  | square => '['

/-- The closing character. -/
def closer : Bracket → Char
  | round => ')'
  | square => ']'

end Bracket

/-- What a token is. -/
inductive TokenKind where
  | opening (bracket : Bracket)
  | closing (bracket : Bracket)
  | atom
  | string
  | comment
deriving DecidableEq, Repr

/-- A token with its text and the place it was read from. -/
structure Token where
  kind : TokenKind
  text : String
  span : Span
deriving DecidableEq, Repr

/-- Why a text is not a document. -/
inductive ReadCause where
  | unterminatedString
  | unclosed (opened : Bracket)
  | mismatched (opened closed : Bracket)
  | unexpected (closed : Bracket)
deriving DecidableEq, Repr

/-- A reading error and where it is reported. -/
structure ReadError where
  cause : ReadCause
  pos : Pos
deriving DecidableEq, Repr

namespace ReadError

/-- The wording, without the position. -/
def message (e : ReadError) : String :=
  match e.cause with
  | .unterminatedString => "unterminated string"
  | .unclosed b => s!"unclosed `{b.opener}`"
  | .mismatched b c => s!"`{b.opener}` closed by `{c.closer}`"
  | .unexpected c => s!"unexpected `{c.closer}`"

/-- The wording with the position. -/
def display (e : ReadError) : String := s!"{e.message} at {e.pos.display}"

end ReadError

namespace Numeral

/-- The characters after one sign, if there is one. -/
def dropSign : List Char → List Char
  | '-' :: cs => cs
  | '+' :: cs => cs
  | cs => cs

/-- A nonempty run of digits. -/
def isDigits (cs : List Char) : Bool := !cs.isEmpty && cs.all Char.isDigit

/-- Nothing, or a mark, an optional sign and digits. -/
def isExponent : List Char → Bool
  | [] => true
  | c :: cs => (c == 'e' || c == 'E') && isDigits (dropSign cs)

/-- Digits with at most one point, at least one digit, and an optional exponent. -/
def isDecimal (cs : List Char) : Bool :=
  let whole := cs.takeWhile Char.isDigit
  match cs.dropWhile Char.isDigit with
  | '.' :: rest =>
    (!whole.isEmpty || !(rest.takeWhile Char.isDigit).isEmpty) &&
      isExponent (rest.dropWhile Char.isDigit)
  | rest => !whole.isEmpty && isExponent rest

/-- Whether an atom is a number. -/
def isNumber (atom : String) : Bool :=
  match dropSign atom.toList with
  | [] => false
  | c :: cs =>
    if !(c.isDigit || c == '.') then false
    else if (c :: cs).contains '/' then
      isDigits ((c :: cs).takeWhile (· ≠ '/')) && isDigits (((c :: cs).dropWhile (· ≠ '/')).drop 1)
    else isDecimal (c :: cs)

end Numeral

end TreeEdit
