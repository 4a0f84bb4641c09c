import TreeEdit.Node.Fingerprint
import TreeEdit.Text.Blank

/-!
# Hanging comments on expressions

The elements of a list are expressions and comments. A comment on the line where the expression
before it ends belongs to that expression. Any other comment belongs to the next expression, or to
the last one if none follows. In a list without expressions there is nothing to hang a comment on.
-/

namespace TreeEdit

/-- A comment of the text before it hangs on a node. -/
structure Note where
  span : Span
  text : String
deriving DecidableEq, Repr

/-- The note a comment was made of. -/
def Comment.note (c : Comment) : Note := ⟨c.span, c.text⟩

/-- Several notes as one comment: their lines in the given order, over the whole of their spans. -/
def Comment.ofNotes (first : Note) (rest : List Note) : Comment :=
  .make (joinLines ((first :: rest).map Note.text))
    (rest.foldl (fun span note => span.union note.span) first.span)

/-- Notes in the order of the text; of two at one place the first given stays first. -/
def Note.sorted (notes : List Note) : List Note :=
  notes.mergeSort fun a b => decide (a.span.start ≤ b.span.start)

/-- More notes hung on a node, in the order of the text. -/
def Node.addNotes (n : Node) (notes : List Note) : Node :=
  if notes.isEmpty then n
  else
    match Note.sorted (notes ++ (n.comment.map Comment.note).toList) with
    | [] => n
    | first :: rest => n.withComment (some (.ofNotes first rest))

/-- An element of a list as it was read. -/
inductive Element where
  | expr (node : Node)
  | note (note : Note)

namespace Element

/-- The state of a walk over elements: the expressions so far, latest first, and the notes that
wait for the next expression. -/
structure Walk where
  done : List Node
  waiting : List Note

/-- One element. -/
def Walk.step (w : Walk) : Element → Walk
  | expr n => ⟨n.addNotes w.waiting :: w.done, []⟩
  | note t =>
    match w.waiting, w.done with
    | [], prev :: before =>
      if prev.span.stop.line = t.span.start.line then ⟨prev.addNotes [t] :: before, []⟩
      else ⟨w.done, [t]⟩
    | waiting, done => ⟨done, waiting ++ [t]⟩

/-- The expressions at the end of a walk: notes still waiting go to the last one. -/
def Walk.finish (w : Walk) : List Node :=
  match w.done with
  | [] => []
  | prev :: before => (prev.addNotes w.waiting :: before).reverse

/-- The expressions of a list with the comments hung on them. -/
def attach (elements : List Element) : List Node :=
  (elements.foldl Walk.step ⟨[], []⟩).finish

end Element

end TreeEdit
