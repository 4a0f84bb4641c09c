/-!
# TOML values

What a TOML document holds. Floats and dates are recognised but carry no content, since nothing
here reads one.

A table remembers how it came about, because that decides what may still be added to it: a header
opens a table once, a path in a header or a dotted key opens the tables on the way, and an inline
table is closed when it is written.
-/

namespace TreeEdit.Toml

/-- How a table came about. -/
inductive Origin where
  | header
  | headerPath
  | dottedKey
  | inline
deriving DecidableEq, Repr

/-- A TOML value. `tables` is an array of tables written with headers; its elements stand latest
first. -/
inductive Value where
  | string (text : String)
  | integer (value : Int)
  | float
  | boolean (value : Bool)
  | date
  | array (items : List Value)
  | table (origin : Origin) (entries : List (String × Value))
  | tables (items : List Value)
deriving Repr

/-- The entries of a table, in the order they were first written. -/
abbrev Entries := List (String × Value)

namespace Entries

/-- The value of a key. -/
def get? (entries : Entries) (key : String) : Option Value :=
  (entries.find? (·.1 == key)).map Prod.snd

/-- The entries with the value of a key set. -/
def set (entries : Entries) (key : String) (value : Value) : Entries :=
  if entries.any (·.1 == key) then
    entries.map fun entry => if entry.1 == key then (key, value) else entry
  else entries ++ [(key, value)]

end Entries

namespace Value

/-- The text of a string. -/
def string? : Value → Option String
  | string text => some text
  | _ => none

/-- The value of an integer that is not negative. -/
def natural? : Value → Option Nat
  | integer (.ofNat n) => some n
  | _ => none

/-- The elements of an array, however it was written. -/
def items? : Value → Option (List Value)
  | array items => some items
  | tables items => some items.reverse
  | _ => none

end Value

end TreeEdit.Toml
