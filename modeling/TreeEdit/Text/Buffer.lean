import TreeEdit.Edit.Error
import TreeEdit.Text.Offset

/-!
# Text buffers

A text buffer holds the live text of a document. It can be read at any time; the only way to
change it is to replace a range. A plain text is a buffer. A `RefusingBuffer` counts the
replacements and refuses some of them, as the buffer of a host editor may do.
-/

namespace TreeEdit

/-- What stands before and after a range, if the range is one of the text. -/
def around (text : String) (span : Span) : Except EditError (List Char × List Char × List Char) :=
  if span.stop < span.start then .error (.range span.start span.stop .inverted)
  else
    match cut? text.toList span.start, cut? text.toList span.stop with
    | some (a, _), some (b, rest) => .ok (a, b.drop a.length, rest)
    | _, _ => .error (.range span.start span.stop .outside)

/-- The text in a range. -/
def rangeText (text : String) (span : Span) : Except EditError String :=
  (around text span).map fun (_, inside, _) => String.ofList inside

/-- A text with a range replaced. -/
def replaceIn (text : String) (replacement : String) (span : Span) : Except EditError String :=
  (around text span).map fun (a, _, rest) => String.ofList (a ++ replacement.toList ++ rest)

/-- A holder of text that can be read, and changed by replacing a range. A replacement that fails
leaves the text as it was, though it may change what else the buffer holds. -/
class TextBuffer (β : Type) where
  text : β → String
  replace : β → String → Span → Except EditError Unit × β

instance : TextBuffer String where
  text := id
  replace text replacement span :=
    match replaceIn text replacement span with
    | .ok new => (.ok (), new)
    | .error e => (.error e, text)

/-- A text whose replacements are counted from one; those with a number in `refused` fail. -/
structure RefusingBuffer where
  text : String
  calls : Nat
  refused : List Nat

instance : TextBuffer RefusingBuffer where
  text := RefusingBuffer.text
  replace b replacement span :=
    let call := b.calls + 1
    let counted := { b with calls := call }
    if b.refused.contains call then (.error (.buffer s!"call {call} refused"), counted)
    else
      match replaceIn b.text replacement span with
      | .ok new => (.ok (), { counted with text := new })
      | .error e => (.error e, counted)

end TreeEdit
