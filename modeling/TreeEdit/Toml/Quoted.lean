import TreeEdit.Text.Numbers

/-!
# TOML strings

Four ways of quoting: basic strings with escapes, literal strings without, and both over several
lines. Each reader takes the characters after the opening quotes and gives the text and what follows
the closing quotes. Control characters other than the tab, and in strings over several lines the
newline, must be escaped. A carriage return stands only before a newline.
-/

namespace TreeEdit.Toml.Quoted

/-- The control characters that must not stand in a text: all but the tab. -/
def isForbidden (c : Char) : Bool := (c.toNat < 0x20 && c != '\t') || c.toNat == 0x7F

/-- The character with a code point given by hexadecimal digits, if it is one. -/
def hexChar? (digits : List Char) : Option Char :=
  let n := ofDigits 16 digits
  if h : digits.all (isDigitIn 16) ∧ n.isValidChar then some (Char.ofNatAux n h.2) else none

/-- The character of an escape after its backslash, and what follows it. -/
def escape? : List Char → Option (Char × List Char)
  | 'b' :: rest => some ('\x08', rest)
  | 't' :: rest => some ('\t', rest)
  | 'n' :: rest => some ('\n', rest)
  | 'f' :: rest => some ('\x0c', rest)
  | 'r' :: rest => some ('\r', rest)
  | 'e' :: rest => some ('\x1b', rest)
  | '"' :: rest => some ('"', rest)
  | '\\' :: rest => some ('\\', rest)
  | 'x' :: rest => long 2 rest
  | 'u' :: rest => long 4 rest
  | 'U' :: rest => long 8 rest
  | _ => none
where
  /-- A character by its code point in a fixed number of digits. -/
  long (count : Nat) (rest : List Char) : Option (Char × List Char) :=
    if rest.length < count then none
    else (hexChar? (rest.take count)).map fun c => (c, rest.drop count)

theorem escape?_length {cs rest : List Char} {c : Char} (h : escape? cs = some (c, rest)) :
    rest.length < cs.length := by
  have hlong : ∀ {count : Nat} {ds : List Char},
      escape?.long count ds = some (c, rest) → rest.length ≤ ds.length := by
    intro count ds hd
    unfold escape?.long at hd
    split at hd
    · cases hd
    · obtain ⟨d, -, he⟩ := Option.map_eq_some_iff.1 hd
      cases he
      simp
  unfold escape? at h
  split at h
  all_goals first
    | contradiction
    | (cases h; simp)
    | (have hle := hlong h
       simp only [List.length_cons]
       omega)

/-- The blanks inside a line. -/
def isSpace (c : Char) : Bool := c == ' ' || c == '\t'

/-- The characters after a newline, if the given ones start with one. -/
def afterNewline? : List Char → Option (List Char)
  | '\n' :: rest => some rest
  | '\r' :: '\n' :: rest => some rest
  | _ => none

/-- The characters after blanks and newlines. -/
def skipLines : List Char → List Char
  | '\n' :: rest => skipLines rest
  | '\r' :: '\n' :: rest => skipLines rest
  | c :: rest => if isSpace c then skipLines rest else c :: rest
  | [] => []

theorem skipLines_length (cs : List Char) : (skipLines cs).length ≤ cs.length := by
  fun_induction skipLines cs with
  | case1 rest ih =>
    rw [List.length_cons]
    omega
  | case2 rest ih =>
    rw [List.length_cons, List.length_cons]
    omega
  | case3 c rest _ _ _ ih =>
    rw [List.length_cons]
    omega
  | case4 => exact Nat.le_refl _
  | case5 => exact Nat.le_refl _

/-- What follows a backslash at the end of a line: all blanks and newlines are passed over. -/
def afterLineEnd? (cs : List Char) : Option (List Char) :=
  (afterNewline? (cs.dropWhile isSpace)).map skipLines

theorem afterLineEnd?_length {cs rest : List Char} (h : afterLineEnd? cs = some rest) :
    rest.length < cs.length := by
  obtain ⟨ds, hds, rfl⟩ := Option.map_eq_some_iff.1 h
  have hlt : ds.length < (cs.dropWhile isSpace).length := by
    unfold afterNewline? at hds
    split at hds
    · rename_i heq
      cases hds
      simp [heq]
    · rename_i heq
      cases hds
      rw [heq]
      simp only [List.length_cons]
      omega
    · cases hds
  have hle : (cs.dropWhile isSpace).length ≤ cs.length := (List.dropWhile_sublist _).length_le
  have hle' := skipLines_length ds
  omega

/-- A basic string on one line. -/
def basic (cs : List Char) : Option (List Char × List Char) :=
  match cs with
  | [] => none
  | '"' :: rest => some ([], rest)
  | '\\' :: rest =>
    match h : escape? rest with
    | none => none
    | some (c, after) =>
      have := escape?_length h
      (basic after).map fun (body, after) => (c :: body, after)
  | c :: rest =>
    if isForbidden c then none else (basic rest).map fun (body, after) => (c :: body, after)
termination_by cs.length

/-- A literal string on one line. -/
def literal : List Char → Option (List Char × List Char)
  | [] => none
  | c :: rest =>
    if c = '\'' then some ([], rest)
    else if isForbidden c then none
    else (literal rest).map fun (body, after) => (c :: body, after)

/-- The closing quotes of a string over several lines: up to two more of them belong to the text. -/
def closing? (quote : Char) (cs : List Char) : Option (List Char × List Char) :=
  let quotes := (cs.takeWhile (· = quote)).take 5
  if 3 ≤ quotes.length then some (quotes.drop 3, cs.drop quotes.length) else none

/-- A character that stands for itself in a string over several lines. -/
def standsInLines (c : Char) (rest : List Char) : Bool :=
  !isForbidden c || c = '\n' || (c = '\r' && rest.head? = some '\n')

/-- A basic string over several lines. -/
def basicLines (cs : List Char) : Option (List Char × List Char) :=
  match closing? '"' cs with
  | some found => some found
  | none =>
    match cs with
    | [] => none
    | '\\' :: rest =>
      match hline : afterLineEnd? rest with
      | some after =>
        have := afterLineEnd?_length hline
        basicLines after
      | none =>
        match h : escape? rest with
        | none => none
        | some (c, after) =>
          have := escape?_length h
          (basicLines after).map fun (body, after) => (c :: body, after)
    | c :: rest =>
      if standsInLines c rest then
        (basicLines rest).map fun (body, after) => (c :: body, after)
      else none
termination_by cs.length

/-- A literal string over several lines. -/
def literalLines : List Char → Option (List Char × List Char)
  | [] => none
  | c :: rest =>
    match closing? '\'' (c :: rest) with
    | some found => some found
    | none =>
      if standsInLines c rest then
        (literalLines rest).map fun (body, after) => (c :: body, after)
      else none

/-- The characters without a newline at their start. -/
def dropFirstNewline (cs : List Char) : List Char := (afterNewline? cs).getD cs

/-- A string on one line, from its opening quote on. -/
def line? : List Char → Option (String × List Char)
  | '"' :: rest => (basic rest).map fun (body, after) => (String.ofList body, after)
  | c :: rest =>
    if c = '\'' then (literal rest).map fun (body, after) => (String.ofList body, after) else none
  | [] => none

/-- Any string, from its opening quotes on. -/
def string? (cs : List Char) : Option (String × List Char) :=
  let found :=
    if cs.take 3 = ['"', '"', '"'] then basicLines (dropFirstNewline (cs.drop 3))
    else if cs.take 3 = ['\'', '\'', '\''] then literalLines (dropFirstNewline (cs.drop 3))
    else none
  if cs.take 3 = ['"', '"', '"'] || cs.take 3 = ['\'', '\'', '\''] then
    found.map fun (body, after) => (String.ofList body, after)
  else line? cs

end TreeEdit.Toml.Quoted
