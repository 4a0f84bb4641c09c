import TreeEdit.Edit.Basic

/-!
# Choosing the focus

After a commit the focus goes to the node that the edit points at, if it points at one. Otherwise
the text changes decide. With any text put in, the last such change wins, and the focus is the node
that ends where its text ends in the new document; with none, it is the node before the first
change. If that finds nothing it is the first root. A focus inside a collapsed node moves out to
the outermost collapsed one.
-/

namespace TreeEdit

namespace Focus

/-- Changes earliest first; of two with one range the first given stays first. -/
def earliestFirst (changes : List TextChange) : List TextChange :=
  changes.mergeSort fun a b => rangeLe a.span b.span

/-- By how many bytes a change makes a text longer. A range that is none of the text counts as
empty, and so does one that runs backwards. -/
def growth (old : String) (c : TextChange) : Int :=
  let removed : Nat :=
    match offset? old c.start, offset? old c.stop with
    | some a, some b => b - a
    | _, _ => 0
  (c.text.utf8ByteSize : Int) - (removed : Int)

/-- The last change that puts text in, and the changes before it, from changes earliest first. -/
def lastInsertion? (changes : List TextChange) : Option (List TextChange × TextChange) :=
  match changes.reverse.dropWhile (!·.addsText) with
  | [] => none
  | c :: earlier => some (earlier.reverse, c)

/-- The byte offset in the new text at which the text of a change ends, given the changes before
it. -/
def endOffset? (old : String) (earlier : List TextChange) (c : TextChange) : Option Nat := do
  let start ← offset? old c.start
  let shifted := earlier.foldl (fun shifted e => shifted + growth old e) (start : Int)
  if shifted < 0 then none else some (shifted.toNat + c.text.utf8ByteSize)

/-- The position that decides the focus. -/
def position? (old new : String) (changes : List TextChange) : Option Pos :=
  let sorted := earliestFirst changes
  match lastInsertion? sorted with
  | some (earlier, c) => (endOffset? old earlier c).map (posOfOffset new)
  | none => sorted.head?.map TextChange.start

/-- The focus that the changes suggest; there is none only in an empty tree. -/
def ofChanges (t : Tree) (old new : String) (changes : List TextChange) : Option NodeId :=
  (((position? old new changes).bind t.before?).or t.roots.head?).map Node.id

/-- The outermost collapsed ancestor of a node, or the node itself. -/
def visible (t : Tree) (focus : NodeId) (collapsed : List NodeId) : NodeId :=
  match (t.ancestors focus).find? fun a => collapsed.contains a.id with
  | some a => a.id
  | none => focus

/-- The node a hint points at, if it is in the tree. -/
def ofHint? (t : Tree) (hint : Option (Tree → FocusHint)) : Option NodeId :=
  hint.bind fun suggest =>
    match suggest t with
    | .node id => if t.contains id then some id else none
    | .fallback => none

/-- The focus after a commit. -/
def resolve (t : Tree) (hint : Option (Tree → FocusHint)) (old new : String)
    (changes : List TextChange) (collapsed : List NodeId) : Option NodeId :=
  ((ofHint? t hint).or (ofChanges t old new changes)).map fun id => visible t id collapsed

end Focus

/-- What a commit did: the focus after it, and its text changes, latest first. -/
structure Committed where
  focus : Option NodeId
  changes : List TextChange
deriving DecidableEq, Repr

end TreeEdit
