import TreeEdit.Reader.Forms
import TreeEdit.Token.Lexer

/-!
# Reading a document

The reader walks over the tokens with a stack of the brackets that are open. An opening bracket
puts the elements read so far aside; the matching closing bracket turns the elements of the list
into one node and takes up where the bracket was opened. A closing bracket that does not match
the innermost open one, or has none, is an error at its place; a bracket still open at the end is
an error where it was opened, the innermost first. Nothing else fails.
-/

namespace TreeEdit

namespace Reader

/-- A bracket that is open: where it stands, and the elements before it in its own list, latest
first. -/
structure Frame where
  bracket : Bracket
  start : Pos
  before : List Element

/-- The node of an atom or a string. -/
def leaf (t : Token) : Node :=
  Node.make (if t.kind = .string then .literal t.text .string else .ofAtom t.text) t.span

/-- The node of a closed list; its elements are given latest first. -/
def list (elements : List Element) (span : Span) : Node :=
  Node.make (recognise (Element.attach elements.reverse)) span

/-- The elements at the top level, from the open brackets and the elements of the innermost list,
latest first. -/
def elementsFrom : List Token → List Frame → List Element → Except ReadError (List Element)
  | [], [], elements => .ok elements.reverse
  | [], f :: _, _ => .error ⟨.unclosed f.bracket, f.start⟩
  | t :: ts, stack, elements =>
    match t.kind with
    | .opening b => elementsFrom ts (⟨b, t.span.start, elements⟩ :: stack) []
    | .closing b =>
      match stack with
      | [] => .error ⟨.unexpected b, t.span.start⟩
      | f :: stack =>
        if f.bracket = b then
          elementsFrom ts stack (.expr (list elements ⟨f.start, t.span.stop⟩) :: f.before)
        else .error ⟨.mismatched f.bracket b, t.span.start⟩
    | .comment => elementsFrom ts stack (.note ⟨t.span, t.text⟩ :: elements)
    | .atom | .string => elementsFrom ts stack (.expr (leaf t) :: elements)

end Reader

/-- The roots of a document, not identified yet. -/
def readDocument (text : String) : Except ReadError (List Node) :=
  match tokenize text with
  | .error e => .error e
  | .ok tokens => (Reader.elementsFrom tokens [] []).map Element.attach

end TreeEdit
