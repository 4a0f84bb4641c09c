import TreeEdit.Edit.Basic
import TreeEdit.Session.History
import TreeEdit.Text.Blank
import TreeEdit.Text.Numbers

/-!
# Edit scripts

A script is a list of edits that are carried out together. It names nodes by address, so it can be
written down before the document is read. Before it runs it is checked for faults that do not depend
on a document, and all of them are reported at once.

An address is a dotted path: `0.2.1` is the second child of the third child of the first root.
Blanks around an index do not count.
-/

namespace TreeEdit

namespace Address

/-- The parts of a text between its points. -/
def splitDots : List Char → List (List Char)
  | [] => [[]]
  | '.' :: cs => [] :: splitDots cs
  | c :: cs =>
    match splitDots cs with
    | part :: parts => (c :: part) :: parts
    | [] => [[c]]

/-- The path that an address spells; `none` if it is malformed. -/
def path? (address : String) : Option Path :=
  if allBlank address then none
  else
    (splitDots address.toList).mapM fun part =>
      natural? (dropBlanksEnd (part.dropWhile isBlank))

end Address

/-- One edit of a script. Without a parent, an insertion goes between the roots. -/
inductive ScriptEdit where
  | insert (parent field : Option String) (index : Nat) (text : String)
  | delete (target : String)
  | replace (target text : String)
  | overwrite (start stop : Pos) (text : String)
  | drop (source : String) (parent field : Option String) (index : Nat)
deriving DecidableEq, Repr

/-- Edits to be carried out together. -/
structure Script where
  edits : List ScriptEdit
deriving DecidableEq, Repr

/-- A fault found before a script runs or settings take effect. Edits count from zero. -/
inductive Issue where
  | emptyScript
  | missingField (edit : Nat) (field : String)
  | malformedAddress (edit : Nat) (address : String)
  | backwards (edit : Nat) (start stop : Pos)
  | tooNarrow (width : Nat)
deriving DecidableEq, Repr

namespace Issue

/-- The least width that settings may ask for. -/
def leastWidth : Nat := 10

/-- What is wrong with the combination or the value an issue is about. -/
def reason : Issue → String
  | backwards _ start stop => s!"`from` {start.display} is after `to` {stop.display}"
  | tooNarrow width => s!"must be at least {leastWidth}, got {width}"
  | _ => ""

/-- An issue in words. -/
def message (i : Issue) : String :=
  match i with
  | emptyScript => "edit script contains no edits"
  | missingField edit field => s!"edit #{edit} missing required field '{field}'"
  | malformedAddress edit address => s!"edit #{edit} has malformed node path '{address}'"
  | backwards edit _ _ => s!"edit #{edit} has invalid configuration: {i.reason}"
  | tooNarrow _ => s!"invalid value for 'pretty_width': {i.reason}"

end Issue

/-- Issues in words, one on each line. -/
def issuesMessage (issues : List Issue) : String := joinLines (issues.map Issue.message)

/-- The issues of settings. -/
def Settings.issues (s : Settings) : List Issue :=
  if s.prettyWidth < Issue.leastWidth then [.tooNarrow s.prettyWidth] else []

/-- The issue of an address, if it is malformed. -/
def addressIssues (edit : Nat) (address : String) : List Issue :=
  if (Address.path? address).isNone then [.malformedAddress edit address] else []

/-- The issue of a parent without the name of a place in it. -/
def placeIssues (edit : Nat) (parent field : Option String) : List Issue :=
  if parent.isSome && field.isNone then [.missingField edit "field"] else []

/-- The issues of the edit at an index. -/
def ScriptEdit.issues (edit : Nat) : ScriptEdit → List Issue
  | insert parent field _ text =>
    parent.toList.flatMap (addressIssues edit) ++
      (if allBlank text then [.missingField edit "text"] else []) ++
      placeIssues edit parent field
  | delete target => addressIssues edit target
  | replace target _ => addressIssues edit target
  | overwrite start stop _ => if stop < start then [.backwards edit start stop] else []
  | drop source parent field _ =>
    addressIssues edit source ++ parent.toList.flatMap (addressIssues edit) ++
      placeIssues edit parent field

/-- The issues of a script, in the order of its edits. -/
def Script.issues (s : Script) : List Issue :=
  (if s.edits.isEmpty then [.emptyScript] else []) ++
    s.edits.zipIdx.flatMap fun (e, i) => e.issues i

end TreeEdit
