import TreeEdit.Text.Blank
import TreeEdit.Token.Basic

/-!
# Cutting a text into tokens

The scanner walks over the characters with the position of the next one. Blanks separate tokens.
A bracket is a token of its own; a comment runs to the end of its line and loses the blanks at its
end; a string runs to the closing quote, where a backslash protects the next character; everything
else is an atom, up to the next delimiter.
-/

namespace TreeEdit

/-- The characters that end an atom. -/
def isDelimiter (c : Char) : Bool :=
  isBlank c || c == '(' || c == ')' || c == '[' || c == ']' || c == '"' || c == ';'

/-- The characters of a string after its opening quote, the closing quote included, and what
follows them; `none` if the closing quote is missing. -/
def stringBody : List Char → Option (List Char × List Char)
  | [] => none
  | '"' :: rest => some (['"'], rest)
  | ['\\'] => none
  | '\\' :: c :: rest => (stringBody rest).map fun (body, after) => ('\\' :: c :: body, after)
  | c :: rest => (stringBody rest).map fun (body, after) => (c :: body, after)

/-- A string body and what follows it make up the characters read. -/
theorem stringBody_append {cs body after : List Char} (h : stringBody cs = some (body, after)) :
    body ++ after = cs := by
  fun_induction stringBody cs generalizing body after with
  | case1 => cases h
  | case2 rest => cases h; rfl
  | case3 => cases h
  | case4 c rest ih =>
    obtain ⟨⟨b, a⟩, hb, he⟩ := Option.map_eq_some_iff.1 h
    cases he
    simp [ih hb]
  | case5 c rest _ _ _ ih =>
    obtain ⟨⟨b, a⟩, hb, he⟩ := Option.map_eq_some_iff.1 h
    cases he
    simp [ih hb]

/-- The bracket a character opens, if any. -/
def Bracket.ofOpener? : Char → Option Bracket
  | '(' => some .round
  | '[' => some .square
  | _ => none

/-- The bracket a character closes, if any. -/
def Bracket.ofCloser? : Char → Option Bracket
  | ')' => some .round
  | ']' => some .square
  | _ => none

/-- A token whose text is exactly the characters read. -/
def Token.ofChars (kind : TokenKind) (p : Pos) (cs : List Char) : Token :=
  ⟨kind, String.ofList cs, ⟨p, p.advanceOver cs⟩⟩

/-- The token that starts with the non-blank character `c` at `p`, the characters that belong to
it beyond the first, and the characters after them. -/
def Token.next (p : Pos) (c : Char) (rest : List Char) :
    Except ReadError (Token × List Char × List Char) :=
  match Bracket.ofOpener? c, Bracket.ofCloser? c with
  | some b, _ => .ok (.ofChars (.opening b) p [c], [], rest)
  | none, some b => .ok (.ofChars (.closing b) p [c], [], rest)
  | none, none =>
    if c = ';' then
      let body := rest.takeWhile (· ≠ '\n')
      .ok (.ofChars .comment p (dropBlanksEnd (c :: body)), body, rest.dropWhile (· ≠ '\n'))
    else if c = '"' then
      match stringBody rest with
      | none => .error ⟨.unterminatedString, p⟩
      | some (body, after) => .ok (.ofChars .string p (c :: body), body, after)
    else
      let body := rest.takeWhile (!isDelimiter ·)
      .ok (.ofChars .atom p (c :: body), body, rest.dropWhile (!isDelimiter ·))

/-- The characters of a token and those after it make up the characters read. -/
theorem Token.next_append {p : Pos} {c : Char} {rest body after : List Char} {t : Token}
    (h : Token.next p c rest = .ok (t, body, after)) : body ++ after = rest := by
  unfold Token.next at h
  grind [stringBody_append, List.takeWhile_append_dropWhile]

/-- What follows a token is no longer than what stood after its first character. -/
theorem Token.next_length_le {p : Pos} {c : Char} {rest body after : List Char} {t : Token}
    (h : Token.next p c rest = .ok (t, body, after)) : after.length ≤ rest.length := by
  rw [← Token.next_append h, List.length_append]
  omega

/-- The tokens of the characters that start at a position. -/
def tokensFrom (p : Pos) (cs : List Char) : Except ReadError (List Token) :=
  match cs with
  | [] => .ok []
  | c :: rest =>
    if isBlank c then tokensFrom (p.advance c) rest
    else
      match h : Token.next p c rest with
      | .error e => .error e
      | .ok (t, body, after) =>
        have : after.length ≤ rest.length := Token.next_length_le h
        match tokensFrom (p.advanceOver (c :: body)) after with
        | .error e => .error e
        | .ok ts => .ok (t :: ts)
termination_by cs.length

/-- The tokens of a text. -/
def tokenize (text : String) : Except ReadError (List Token) :=
  tokensFrom .zero text.toList

end TreeEdit
