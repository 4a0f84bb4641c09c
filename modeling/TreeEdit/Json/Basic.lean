/-!
# JSON

Values and their text over several lines: two spaces for each level, one element or field on a line,
fields in the order given. Nothing stands between the brackets of an empty array.
-/

namespace TreeEdit

/-- A JSON value; numbers are whole. -/
inductive JsonValue where
  | null
  | natural (n : Nat)
  | string (text : String)
  | array (items : List JsonValue)
  | object (fields : List (String × JsonValue))

namespace JsonValue

/-- A hexadecimal digit. -/
def hexDigit (n : Nat) : Char := "0123456789abcdef".toList.getD n '0'

/-- A character inside a string. -/
def escape (c : Char) : List Char :=
  if c = '"' then ['\\', '"']
  else if c = '\\' then ['\\', '\\']
  else if c = '\n' then ['\\', 'n']
  else if c = '\r' then ['\\', 'r']
  else if c = '\t' then ['\\', 't']
  else if c.toNat = 0x08 then ['\\', 'b']
  else if c.toNat = 0x0C then ['\\', 'f']
  else if c.toNat < 0x20 then
    ['\\', 'u', '0', '0', hexDigit (c.toNat / 16), hexDigit (c.toNat % 16)]
  else [c]

/-- A string in quotes. -/
def quote (text : String) : String :=
  String.ofList ('"' :: text.toList.flatMap escape ++ ['"'])

/-- The start of a line at a depth. -/
def lineStart (depth : Nat) : String := "\n" ++ String.ofList (List.replicate (2 * depth) ' ')

/-- Texts in brackets, each on a line one deeper than the brackets. -/
def enclose (opener closer : String) (depth : Nat) : List String → String
  | [] => opener ++ closer
  | items =>
    opener ++ ",".intercalate (items.map (lineStart (depth + 1) ++ ·)) ++ lineStart depth ++ closer

mutual

/-- The text of a value at a depth. -/
def prettyAt (depth : Nat) : JsonValue → String
  | null => "null"
  | natural n => toString n
  | string text => quote text
  | array items => enclose "[" "]" depth (prettyItems (depth + 1) items)
  | object fields => enclose "\x7b" "\x7d" depth (prettyFields (depth + 1) fields)

/-- The texts of the elements of an array. -/
def prettyItems (depth : Nat) : List JsonValue → List String
  | [] => []
  | item :: rest => prettyAt depth item :: prettyItems depth rest

/-- The texts of the fields of an object. -/
def prettyFields (depth : Nat) : List (String × JsonValue) → List String
  | [] => []
  | (name, value) :: rest =>
    (quote name ++ ": " ++ prettyAt depth value) :: prettyFields depth rest

end

/-- The text of a value. -/
def pretty (value : JsonValue) : String := prettyAt 0 value

end JsonValue

end TreeEdit
