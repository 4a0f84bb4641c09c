import TreeEdit.Json.Basic
import TreeEdit.Tree.Basic

/-!
# Listings of a tree

Two ways of writing a tree down: an outline with one node on a line, indented by its depth, and a
JSON value that holds everything known about each node.
-/

namespace TreeEdit

/-- The line of a node in an outline. -/
def Node.outlineLine (n : Node) (depth : Nat) : String :=
  let indent := String.ofList (List.replicate (2 * depth) ' ')
  let label := n.kind.name ++ ((n.symbol?.map (" " ++ ·)).getD "")
  s!"{indent}{n.id.display} {label} {n.span.display}"

/-- The lines of the outline of a tree, in preorder. -/
def Tree.outline (t : Tree) : List String :=
  (Forest.paths t.roots).map fun (path, n) => n.outlineLine (path.length - 1)

namespace JsonValue

/-- A position. -/
def ofPos (p : Pos) : JsonValue := .object [("line", .natural p.line), ("ch", .natural p.ch)]

/-- A span. -/
def ofSpan (s : Span) : JsonValue := .object [("from", ofPos s.start), ("to", ofPos s.stop)]

/-- What all nodes and comments have in common. -/
def ofParts (id : NodeId) (span : Span) (hash : UInt64) (kind : List (String × JsonValue))
    (rest : List (String × JsonValue)) : JsonValue :=
  .object ([("id", .natural id.val.toNat), ("span", ofSpan span),
    ("hash", .natural hash.toNat), ("kind", .object kind)] ++ rest)

/-- A comment. -/
def ofComment (c : Comment) : JsonValue :=
  ofParts c.id c.span c.hash [("type", .string "Comment"), ("text", .string c.text)] []

/-- What a kind holds besides children. -/
def ofPayload : Kind JsonValue → List (String × JsonValue)
  | .literal value type => [("value", .string value), ("data_type", .string type.name)]
  | .letIn form _ _ => [("form", .string form.name)]
  | .guarded form _ _ => [("form", .string form.name)]
  | .pasted text => [("text", .string text)]
  | _ => []

/-- A place of a kind; the second branch of a conditional is called `otherwise`. -/
def ofSlot : Slot JsonValue → String × JsonValue
  | .required field value => (field, value)
  | .optional field value => (if field = "else" then "otherwise" else field, value.getD .null)
  | .list field values => (field, .array values)

/-- A kind, from the values of its children. -/
def ofKind (k : Kind JsonValue) : List (String × JsonValue) :=
  ("type", .string k.name) :: (ofPayload k ++ k.slots.map ofSlot)

/-- A node. -/
def ofNode (n : Node) : JsonValue :=
  n.fold fun n below =>
    ofParts n.id n.span n.hash (ofKind below)
      (n.comment.map fun c => ("comment", ofComment c)).toList

/-- A tree. -/
def ofTree (t : Tree) : JsonValue := .object [("roots", .array (t.roots.map ofNode))]

end JsonValue

end TreeEdit
