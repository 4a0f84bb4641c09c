import TreeEdit.Tree.Basic

/-!
# Undo and redo

Each commit leaves an entry with the text and the focus on either side of it. Undo moves the latest
entry to the other stack and redo moves it back; a new commit empties the redo stack. With a limit,
the oldest entry is forgotten when there are too many.

A focus is remembered both by identity and by path, since nodes that undo brings back have fresh
identities.

The settings of a session say how many commits can be undone, and the width documents are printed in.
-/

namespace TreeEdit

/-- The settings of an editing session. -/
structure Settings where
  prettyWidth : Nat
  historyLimit : Nat
deriving DecidableEq, Repr

/-- The settings if nothing else is said. -/
def Settings.default : Settings := ⟨80, 100⟩

instance : Inhabited Settings := ⟨.default⟩

/-- A remembered focus. -/
structure FocusMark where
  id : Option NodeId
  path : Option Path
deriving DecidableEq, Repr

namespace FocusMark

/-- A focus in a tree. -/
def ofFocus (t : Tree) (focus : Option NodeId) : FocusMark := ⟨focus, focus.bind t.pathOf?⟩

/-- The marked node in a tree: by identity if the tree has it, else what is at the path. -/
def resolve (m : FocusMark) (t : Tree) : Option NodeId :=
  (m.id.filter t.contains).or ((m.path.bind t.at?).map Node.id)

end FocusMark

/-- A commit as undo and redo see it. -/
structure HistoryEntry where
  oldFocus : FocusMark
  newFocus : FocusMark
  textBefore : String
  textAfter : String
deriving DecidableEq, Repr

/-- The entries that can be undone and redone, the next one first, and how many are kept at most;
no limit is written as zero. -/
structure History where
  undoable : List HistoryEntry
  redoable : List HistoryEntry
  limit : Nat
deriving DecidableEq, Repr

namespace History

/-- An empty history with a limit. -/
def withLimit (limit : Nat) : History := ⟨[], [], limit⟩

/-- An empty history with the usual limit. -/
def new : History := withLimit 100

/-- A commit recorded. -/
def record (h : History) (entry : HistoryEntry) : History :=
  let entries := entry :: h.undoable
  let tooMany := 0 < h.limit && h.limit < entries.length
  { h with undoable := if tooMany then entries.dropLast else entries, redoable := [] }

/-- The entry that undo would take back. -/
def nextUndo? (h : History) : Option HistoryEntry := h.undoable.head?

/-- The entry that redo would do again. -/
def nextRedo? (h : History) : Option HistoryEntry := h.redoable.head?

/-- The latest entry taken back. -/
def undo (h : History) : Option HistoryEntry × History :=
  match h.undoable with
  | [] => (none, h)
  | e :: rest => (some e, { h with undoable := rest, redoable := e :: h.redoable })

/-- The entry taken back last done again. -/
def redo (h : History) : Option HistoryEntry × History :=
  match h.redoable with
  | [] => (none, h)
  | e :: rest => (some e, { h with undoable := e :: h.undoable, redoable := rest })

end History

end TreeEdit
