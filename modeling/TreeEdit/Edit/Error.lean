import TreeEdit.Node.Basic
import TreeEdit.Token.Basic

/-!
# Editing errors

An edit fails because the edited document could not be read, because a node it needs is not there,
because a range makes no sense, or because the text buffer refused. Each cause is a constructor;
the wording stands in `message`.
-/

namespace TreeEdit

/-- Why a node was not found. -/
inductive LookupCause where
  | notInTree
  | ancestorNotInTree
  | parentNotInTree
  | kindWithoutSlot (kind field : String)
  | notChildOf (parent : NodeId)
  | rootLevel
  | parentNotInCopy
  | withoutSlot (field : String)
  | notInSlot (field : String)
  | notInList (field : String)
  | slotRefuses (field : String)
deriving DecidableEq, Repr

/-- The wording of a lookup failure. -/
def LookupCause.message : LookupCause → String
  | notInTree => "not in the current tree"
  | ancestorNotInTree => "group ancestor is not in the tree"
  | parentNotInTree => "edit parent is not in the tree"
  | kindWithoutSlot kind field => s!"{kind} has no `{field}` slot"
  | notChildOf parent => s!"not a child of {parent.display}"
  | rootLevel => "root-level edit has no tree form"
  | parentNotInCopy => "parent missing from ancestor clone"
  | withoutSlot field => s!"no `{field}` slot"
  | notInSlot field => s!"not in `{field}` slot"
  | notInList field => s!"not in `{field}` list"
  | slotRefuses field => s!"`{field}` slot cannot take this edit"

/-- Why a range was refused. -/
inductive RangeCause where
  | inverted
  | outside
  | overlapping
  | insideRoot (root : NodeId)
  | optionalFilled (field : String)
  | requiredSlot (field : String)
  | cutsThrough (root : NodeId) (range : Span)
  | insideItself
deriving DecidableEq, Repr

/-- The wording of a refused range. -/
def RangeCause.message : RangeCause → String
  | inverted => "inverted range"
  | outside => "range is outside the document"
  | overlapping => "overlapping text changes"
  | insideRoot root => s!"root insertion point is inside {root.display}"
  | optionalFilled field => s!"optional slot `{field}` is already filled"
  | requiredSlot field => s!"cannot insert into required slot `{field}`"
  | cutsThrough root range => s!"range cuts through {root.display} at {range.display}"
  | insideItself => "cannot drop a node inside itself"

/-- Why an edit failed. -/
inductive EditError where
  | read (error : ReadError)
  | lookup (id : NodeId) (cause : LookupCause)
  | range (start stop : Pos) (cause : RangeCause)
  | buffer (reason : String)
deriving DecidableEq, Repr

/-- The wording of an error. -/
def EditError.message : EditError → String
  | read e => s!"edited document does not parse: {e.display}"
  | lookup id cause => s!"node {id.display} not found: {cause.message}"
  | range start stop cause => s!"invalid range {start.display}..{stop.display}: {cause.message}"
  | buffer reason => s!"text buffer error: {reason}"

end TreeEdit
