/-!
# Blank characters

Tokens are separated by blank characters, and comment text loses the blanks at its end. Blank
means the Unicode property `White_Space`: the ASCII controls from tab to carriage return, the
space, and the wider spaces and line separators beyond ASCII.
-/

namespace TreeEdit

/-- The property `White_Space`. Zero-width characters such as U+200B are not in it. -/
def isBlank (c : Char) : Bool :=
  (0x09 ≤ c.toNat && c.toNat ≤ 0x0D) || c.toNat == 0x20 || c.toNat == 0x85 || c.toNat == 0xA0 ||
    c.toNat == 0x1680 || (0x2000 ≤ c.toNat && c.toNat ≤ 0x200A) || c.toNat == 0x2028 ||
    c.toNat == 0x2029 || c.toNat == 0x202F || c.toNat == 0x205F || c.toNat == 0x3000

/-- The characters without the blanks at their end. -/
def dropBlanksEnd (cs : List Char) : List Char :=
  (cs.reverse.dropWhile isBlank).reverse

/-- Whether a text holds nothing but blanks. -/
def allBlank (text : String) : Bool :=
  text.toList.all isBlank

/-- The lines of a text: what stands between its newlines, the last line included. -/
def splitLines : List Char → List (List Char)
  | [] => [[]]
  | c :: cs =>
    if c = '\n' then [] :: splitLines cs
    else
      match splitLines cs with
      | [] => [[c]]
      | line :: rest => (c :: line) :: rest

/-- The lines of a text as strings. -/
def linesOf (text : String) : List String :=
  (splitLines text.toList).map String.ofList

/-- Lines put back into one text, with a newline between neighbours. -/
def joinLines (lines : List String) : String :=
  "\n".intercalate lines

end TreeEdit
