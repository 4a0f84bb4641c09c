import TreeEdit.Edit.Graft
import TreeEdit.Layout.Node

/-!
# From edits to text changes

Edits inside nodes are grouped by the node that has to be printed again: the parent of an edit, or
an outer parent that another edit of the batch needs anyway. Each group becomes one text change,
which replaces the range of that node by the text of an edited copy. Edits between the roots are
text changes as they are.
-/

namespace TreeEdit

/-- Whether a string literal is open at the end of a line, given whether one was at its start. A
comment ends the scan. -/
def endsInString : Bool → List Char → Bool
  | inside, [] => inside
  | true, ['\\'] => true
  | true, '\\' :: _ :: cs => endsInString true cs
  | inside, '"' :: cs => endsInString (!inside) cs
  | false, ';' :: _ => false
  | inside, _ :: cs => endsInString inside cs

/-- The lines after the first shifted to the right; lines that start inside a string literal, and
blank lines, stay as they are. -/
def indentRest (column : Nat) : Bool → List (List Char) → List (List Char)
  | _, [] => []
  | inside, line :: rest =>
    let shifted :=
      if !inside && !line.all isBlank then List.replicate column ' ' ++ line else line
    shifted :: indentRest column (endsInString inside line) rest

/-- A text with every line after the first shifted to the right. -/
def hangingIndent (text : String) (column : Nat) : String :=
  if column = 0 then text
  else
    match splitLines text.toList with
    | [] => text
    | first :: rest =>
      let lines := first :: indentRest column (endsInString false first) rest
      joinLines (lines.map String.ofList)

/-- Edits that share the node to be printed again. -/
structure EditGroup where
  ancestor : NodeId
  /-- The range of the ancestor in the tree the edits were made against. -/
  range : Span
  /-- Indices into the list of edits the group was made from. -/
  members : List Nat
  /-- The text change, once it has been made. -/
  cached : Option TextChange
deriving DecidableEq, Repr

namespace EditGroup

/-- Edits carried out on a copy one after the other. An edit whose node is not in the copy is
passed over, and the next one is carried out on what it left. -/
def graftAll (copy : Node) : List Edit → Except EditError Node
  | [] => .ok copy
  | e :: rest =>
    match e.graftOnto copy with
    | (.ok (), new) => graftAll new rest
    | (.error (.lookup ..), left) => graftAll left rest
    | (.error err, _) => .error err

/-- The text change of a group that has not been made yet: the edits are carried out latest first on
a copy of the ancestor, and the copy is printed over the ancestor's range in the columns left. -/
def reprint (g : EditGroup) (t : Tree) (edits : List Edit) (width : Nat) :
    Except EditError TextChange :=
  match t.get? g.ancestor with
  | none => .error (.lookup g.ancestor .ancestorNotInTree)
  | some ancestor => do
    let copy ← graftAll ancestor (Edit.latestFirst (g.members.filterMap (edits[·]?)))
    let column := g.range.start.ch
    let text := hangingIndent (copy.pretty (max (width - column) 1)) column
    return ⟨g.range.start, g.range.stop, text⟩

/-- The text change of a group, made once and kept. -/
def toTextChange (g : EditGroup) (t : Tree) (edits : List Edit) (width : Nat) :
    Except EditError TextChange × EditGroup :=
  match g.cached with
  | some change => (.ok change, g)
  | none =>
    match g.reprint t edits width with
    | .ok change => (.ok change, { g with cached := some change })
    | .error e => (.error e, g)

end EditGroup

/-- The node that is printed again for an edit in a place of `parent`. The parameter list of a
function definition has no brackets of its own, so the definition is printed. -/
def reprintedNode (t : Tree) (parent : NodeId) : Except EditError Node :=
  match t.get? parent with
  | none => .error (.lookup parent .parentNotInTree)
  | some n =>
    match t.parent? parent with
    | some outer =>
      match outer.kind with
      | .functionDef _ params _ => .ok (if params.id = parent then outer else n)
      | _ => .ok n
    | none => .ok n

/-- The groups with one more edit: it joins the first group whose range contains its node, or
starts a group that takes in all groups inside its node. -/
def joinGroups (groups : List EditGroup) (anchor : Node) (member : Nat) : List EditGroup :=
  match groups.findIdx? (·.range.contains anchor.range) with
  | some i => groups.modify i fun g => { g with members := g.members ++ [member] }
  | none =>
    let (inner, outer) := groups.partition (anchor.range.contains ·.range)
    outer ++ [⟨anchor.id, anchor.range, inner.flatMap EditGroup.members ++ [member], none⟩]

/-- The groups of the edits inside nodes. -/
def groupEdits (t : Tree) (edits : List Edit) : Except EditError (List EditGroup) :=
  edits.zipIdx.foldlM (fun groups (e, i) =>
    match e.parent? with
    | none => .ok groups
    | some parent => do return joinGroups groups (← reprintedNode t parent) i) []

/-- The text changes of a batch of edits, latest first. -/
def textChanges (t : Tree) (edits : List Edit) (width : Nat) :
    Except EditError (List TextChange) := do
  let sorted := Edit.latestFirst edits
  let groups ← groupEdits t sorted
  let printed ← groups.mapM fun g => (g.toTextChange t sorted width).1
  return latestFirst (sorted.filterMap Edit.rootChange? ++ printed)

end TreeEdit
