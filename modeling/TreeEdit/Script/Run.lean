import TreeEdit.Script.Basic
import TreeEdit.Session.Basic

/-!
# Running scripts

All addresses of a script are looked up in the tree as it was before the script ran, so no edit sees
what another one does. The edits are then performed as one.
-/

namespace TreeEdit

/-- Why a script could not be run: an edit names no node, an edit is refused, or the edits are
refused together. -/
inductive ScriptError where
  | unknownAddress (index : Nat) (address : String)
  | refused (index : Nat) (source : EditError)
  | rejected (source : EditError)
deriving DecidableEq, Repr

namespace ScriptError

/-- The refusal behind the error. -/
def source? : ScriptError → Option EditError
  | unknownAddress .. => none
  | refused _ source => some source
  | rejected source => some source

/-- A script error in words. -/
def message : ScriptError → String
  | unknownAddress index address => s!"edit #{index}: no node at path '{address}'"
  | refused index source => s!"edit #{index}: {source.message}"
  | rejected source => s!"script rejected: {source.message}"

end ScriptError

/-- The node at an address of the edit at an index. -/
def Tree.atAddress (t : Tree) (index : Nat) (address : String) : Except ScriptError NodeId :=
  match (Address.path? address).bind t.at? with
  | some n => .ok n.id
  | none => .error (.unknownAddress index address)

/-- The parent at an address, if one is given. -/
def Tree.parentAt (t : Tree) (index : Nat) : Option String → Except ScriptError (Option NodeId)
  | none => .ok none
  | some address => (t.atAddress index address).map some

namespace ScriptEdit

/-- The edits that one edit of a script stands for. -/
def resolve (t : Tree) (text : String) (i : Nat) (e : ScriptEdit) :
    Except ScriptError (List Edit) := do
  let refuse {α : Type} (r : Except EditError α) : Except ScriptError α := r.mapError (.refused i)
  match e with
  | insert parent field index new =>
    let parent ← t.parentAt i parent
    return [← refuse (Edit.insertAt t new parent (field.getD "") index)]
  | delete target => return [← refuse (Edit.delete t (← t.atAddress i target))]
  | replace target new => return [← refuse (Edit.replace t new (← t.atAddress i target))]
  | overwrite start stop new => return [← refuse (Edit.overwrite t new start stop)]
  | drop source parent field index =>
    let source ← t.atAddress i source
    let parent ← t.parentAt i parent
    let field := field.getD ""
    let pos ← refuse (t.landingPos parent field index)
    let target : DropTarget :=
      match parent with
      | some id => .child id field pos
      | none => .root pos
    let moved := ((t.get? source).bind fun n => slice? text n.range).getD ""
    refuse (Edit.move t moved source target)

end ScriptEdit

/-- The edits that a script stands for in a tree. -/
def Script.resolve (s : Script) (t : Tree) (text : String) : Except ScriptError (List Edit) := do
  return (← s.edits.zipIdx.mapM fun (e, i) => e.resolve t text i).flatten

/-- A script carried out in a session. -/
def Session.runScript {β : Type} [TextBuffer β] (s : Session β) (script : Script) :
    Except ScriptError Committed × Session β :=
  match script.resolve s.tree s.text with
  | .error e => (.error e, s)
  | .ok edits =>
    let (result, s) := s.perform edits
    (result.mapError .rejected, s)

end TreeEdit
