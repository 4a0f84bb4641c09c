import TreeEdit.Reader.Document
import TreeEdit.Text.Buffer

/-!
# Text changes

A text change replaces a range of a text. Several changes of one text are put in order, latest
first, so that applying one does not move the ranges still to come. They must not overlap; two that
touch do not.
-/

namespace TreeEdit

/-- The replacement of a range by a text. -/
structure TextChange where
  start : Pos
  stop : Pos
  text : String
deriving DecidableEq, Repr

namespace TextChange

/-- The range of a change. -/
def span (c : TextChange) : Span := ⟨c.start, c.stop⟩

/-- Whether a change puts text in. -/
def addsText (c : TextChange) : Bool := !c.text.isEmpty

end TextChange

/-- The order of ranges by start, then by end. -/
def rangeLe (a b : Span) : Bool := a.start < b.start || (a.start = b.start && a.stop ≤ b.stop)

/-- Changes latest first; of two with one range the first given stays first. -/
def latestFirst (changes : List TextChange) : List TextChange :=
  changes.mergeSort fun a b => rangeLe b.span a.span

/-- Refuses changes, given latest first, of which one ends after the next one starts. -/
def refuseOverlap : List TextChange → Except EditError Unit
  | [] => .ok ()
  | [_] => .ok ()
  | later :: earlier :: rest =>
    if later.start < earlier.stop then .error (.range earlier.start later.stop .overlapping)
    else refuseOverlap (earlier :: rest)

/-- A change with its range as two counts of characters from the start of the text. -/
structure Splice where
  start : Nat
  stop : Nat
  text : List Char

namespace Splice

/-- The characters with the range replaced. -/
def apply (cs : List Char) (s : Splice) : List Char :=
  cs.take s.start ++ s.text ++ cs.drop s.stop

/-- A change resolved in a text. -/
def resolve (text : String) (c : TextChange) : Except EditError Splice :=
  (around text c.span).map fun (a, inside, _) =>
    ⟨a.length, a.length + inside.length, c.text.toList⟩

end Splice

/-- The text with all changes made. All ranges are those of the given text. -/
def applyChanges (text : String) (changes : List TextChange) : Except EditError String := do
  let sorted := latestFirst changes
  refuseOverlap sorted
  let splices ← sorted.mapM (Splice.resolve text)
  return String.ofList (splices.foldl Splice.apply text.toList)

/-- A text that has been read before anything is changed for it. -/
structure Draft where
  text : String
  roots : List Node

/-- A text read ahead. -/
def Draft.ofText (text : String) : Except EditError Draft :=
  match readDocument text with
  | .ok roots => .ok ⟨text, roots⟩
  | .error e => .error (.read e)

/-- The changed text read ahead. -/
def Draft.ofChanges (text : String) (changes : List TextChange) : Except EditError Draft := do
  Draft.ofText (← applyChanges text changes)

end TreeEdit
