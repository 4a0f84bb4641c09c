import TreeEdit.Edit.Group
import TreeEdit.Identity.Reconcile
import TreeEdit.Session.Focus
import TreeEdit.Session.History

/-!
# Editing sessions

A session holds a text buffer, the tree of its text, and what belongs to them: the source of
identities, the focus, the collapsed nodes and the history. An edit is turned into text changes, the
changed text is read ahead, and only if that succeeds is the buffer written and everything else
brought up to date. If the buffer refuses a write, what was written is taken back.

Every operation returns its result and the session after it. A failed operation returns the session
as it was, but for the buffer, which may have counted a refused write.
-/

namespace TreeEdit

/-- One document under edit. -/
structure Session (β : Type) where
  buffer : β
  tree : Tree
  ids : IdSource
  settings : Settings
  collapsed : List NodeId
  focus : Option NodeId
  history : History

namespace Session

variable {β : Type} [TextBuffer β]

/-- A session on a buffer; fails if its text is no document. -/
def start (buffer : β) (settings : Settings) : Except EditError (Session β) :=
  match readDocument (TextBuffer.text buffer) with
  | .error e => .error (.read e)
  | .ok roots =>
    let (tree, ids) := reconcile .empty roots .new
    .ok {
      buffer, tree, ids, settings
      collapsed := []
      focus := none
      history := .withLimit settings.historyLimit }

/-- The text of the buffer. -/
def text (s : Session β) : String := TextBuffer.text s.buffer

/-- The focus set to a node, or to the collapsed node around it; `false` if the tree has no such
node. -/
def setFocus (s : Session β) (id : NodeId) : Bool × Session β :=
  if s.tree.contains id then
    (true, { s with focus := some (Focus.visible s.tree id s.collapsed) })
  else (false, s)

/-- A node collapsed; `false` if the tree has no such node. -/
def collapse (s : Session β) (id : NodeId) : Bool × Session β :=
  if s.tree.contains id then
    let collapsed := if s.collapsed.contains id then s.collapsed else id :: s.collapsed
    (true, {
      s with
      collapsed := collapsed
      focus := s.focus.map fun f => Focus.visible s.tree f collapsed })
  else (false, s)

/-- A node no longer collapsed; `false` if it was not. -/
def expand (s : Session β) (id : NodeId) : Bool × Session β :=
  (s.collapsed.contains id, { s with collapsed := s.collapsed.filter (· != id) })

/-- The text of a node with its comment. -/
def nodeText (s : Session β) (id : NodeId) : Except EditError String := do
  rangeText s.text (← s.tree.find id).range

/-- A new tree and focus put in place; collapsed nodes that are gone are forgotten. -/
def install (s : Session β) (tree : Tree) (ids : IdSource) (focus : Option NodeId) : Session β :=
  { s with
    tree := tree
    ids := ids
    focus := focus
    collapsed := s.collapsed.filter tree.contains }

/-- Changes written to a buffer one after the other, up to the first that fails. -/
def writeAll (b : β) : List TextChange → Except EditError Unit × β
  | [] => (.ok (), b)
  | c :: rest =>
    match TextBuffer.replace b c.text c.span with
    | (.ok (), b) => writeAll b rest
    | (.error e, b) => (.error e, b)

/-- The whole text of a buffer replaced. -/
def overwriteAll (b : β) (text : String) : Except EditError Unit × β :=
  TextBuffer.replace b text ⟨.zero, endPos (TextBuffer.text b)⟩

/-- What a commit writes: the changes latest first, and the new text read ahead. -/
def prepare (s : Session β) (changes : List TextChange) (ahead : Option Draft) :
    Except EditError (List TextChange × Draft) := do
  let sorted := latestFirst changes
  refuseOverlap sorted
  match ahead with
  | some draft => return (sorted, draft)
  | none => return (sorted, ← Draft.ofChanges s.text sorted)

/-- Text changes committed: the buffer written, the new tree identified, the focus chosen, the
history extended. The new text may have been read ahead already. -/
def commit (s : Session β) (changes : List TextChange) (hint : Option (Tree → FocusHint))
    (ahead : Option Draft) : Except EditError Committed × Session β :=
  match s.prepare changes ahead with
  | .error e => (.error e, s)
  | .ok (sorted, draft) =>
    let old := s.text
    match writeAll s.buffer sorted with
    | (.error e, b) => (.error e, { s with buffer := (overwriteAll b old).2 })
    | (.ok (), b) =>
      let (tree, ids) := reconcile s.tree draft.roots s.ids
      let focus := Focus.resolve tree hint old draft.text sorted s.collapsed
      let entry : HistoryEntry := {
        oldFocus := .ofFocus s.tree s.focus
        newFocus := .ofFocus tree focus
        textBefore := old
        textAfter := draft.text }
      let s := { s with buffer := b, history := s.history.record entry }
      (.ok ⟨focus, sorted⟩, s.install tree ids focus)

/-- The text changes of a batch of edits, and the new text read ahead. -/
def plan (s : Session β) (edits : List Edit) :
    Except EditError (List TextChange × Draft) := do
  let changes ← textChanges s.tree edits s.settings.prettyWidth
  return (changes, ← Draft.ofChanges s.text changes)

/-- A batch of edits carried out as one commit. An empty batch does nothing. -/
def perform (s : Session β) (edits : List Edit) : Except EditError Committed × Session β :=
  match edits with
  | [] => (.ok ⟨s.focus, []⟩, s)
  | _ =>
    match s.plan edits with
    | .error e => (.error e, s)
    | .ok (changes, draft) =>
      let hint :=
        match edits with
        | [edit] => some edit.focusHint
        | _ => none
      s.commit changes hint (some draft)

/-- A node moved as one commit. -/
def drop (s : Session β) (source : NodeId) (target : DropTarget) :
    Except EditError Committed × Session β :=
  match s.nodeText source with
  | .error e => (.error e, s)
  | .ok text =>
    match Edit.move s.tree text source target with
    | .error e => (.error e, s)
    | .ok edits => s.perform edits

/-- The whole text replaced by one from the history, with the focus that goes with it. -/
def restore (s : Session β) (text : String) (mark : FocusMark) :
    Except EditError Unit × Session β :=
  match readDocument text with
  | .error e => (.error (.read e), s)
  | .ok roots =>
    match overwriteAll s.buffer text with
    | (.error e, b) => (.error e, { s with buffer := b })
    | (.ok (), b) =>
      let (tree, ids) := reconcile s.tree roots s.ids
      let focus := (mark.resolve tree).or (tree.roots.head?.map Node.id)
      let focus := focus.map fun id => Focus.visible tree id s.collapsed
      (.ok (), { s with buffer := b }.install tree ids focus)

/-- The latest commit taken back; `false` if there is none. -/
def undo (s : Session β) : Except EditError Bool × Session β :=
  match s.history.nextUndo? with
  | none => (.ok false, s)
  | some entry =>
    match s.restore entry.textBefore entry.oldFocus with
    | (.error e, s) => (.error e, s)
    | (.ok (), s) => (.ok true, { s with history := s.history.undo.2 })

/-- The commit taken back last done again; `false` if there is none. -/
def redo (s : Session β) : Except EditError Bool × Session β :=
  match s.history.nextRedo? with
  | none => (.ok false, s)
  | some entry =>
    match s.restore entry.textAfter entry.newFocus with
    | (.error e, s) => (.error e, s)
    | (.ok (), s) => (.ok true, { s with history := s.history.redo.2 })

/-- The buffer read again after it was changed from outside. -/
def refresh (s : Session β) : Except EditError Unit × Session β :=
  match readDocument s.text with
  | .error e => (.error (.read e), s)
  | .ok roots =>
    let (tree, ids) := reconcile s.tree roots s.ids
    (.ok (), s.install tree ids (s.focus.filter tree.contains))

end Session

end TreeEdit
