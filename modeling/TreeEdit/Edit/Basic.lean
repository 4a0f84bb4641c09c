import TreeEdit.Change.Basic
import TreeEdit.Tree.Basic

/-!
# Structural edits

An edit is made against one tree. Between the roots it inserts, deletes, replaces or overwrites
text; inside a node it inserts into, deletes from or replaces in one place of a parent. The range of
an edit is what it removes; an insertion has an empty one.
-/

namespace TreeEdit

/-- What an edit does. -/
inductive EditKind where
  | insertRoot (text : String)
  | deleteRoot (node : NodeId)
  | replaceRoot (node : NodeId) (text : String)
  | overwrite (text : String)
  | insertChild (parent : NodeId) (field : String) (index : Nat) (text : String)
  | deleteChild (node parent : NodeId) (field : String) (index : Nat)
  | replaceChild (node parent : NodeId) (field : String) (index : Nat) (text : String)
deriving DecidableEq, Repr

/-- An edit with the range it removes. -/
structure Edit where
  start : Pos
  stop : Pos
  kind : EditKind
deriving DecidableEq, Repr

/-- Which node takes the focus after an edit: one it knows, or the one the text changes suggest. -/
inductive FocusHint where
  | node (id : NodeId)
  | fallback
deriving DecidableEq, Repr

/-- Where a moved node lands. -/
inductive DropTarget where
  | root (pos : Pos)
  | child (parent : NodeId) (field : String) (pos : Pos)
deriving DecidableEq, Repr

/-- The node with an identity, or an error. -/
def Tree.find (t : Tree) (id : NodeId) : Except EditError Node :=
  match t.get? id with
  | some n => .ok n
  | none => .error (.lookup id .notInTree)

/-- The place of a node with a name, or an error. -/
def Node.slot (n : Node) (field : String) : Except EditError (Slot Node) :=
  match n.kind.slot? field with
  | some s => .ok s
  | none => .error (.lookup n.id (.kindWithoutSlot n.kind.name field))

namespace Tree

/-- The end of what stands before a place of a node: the last child in an earlier place, or the
opening bracket. -/
def slotStart (n : Node) (field : String) : Pos :=
  let earlier := n.kind.slots.takeWhile (·.field != field)
  match (earlier.flatMap Slot.nodes).getLast? with
  | some child => child.range.stop
  | none => ⟨n.span.start.line, n.span.start.ch + 1⟩

/-- The position at an index of a list of nodes: before the node at the index, after the last node
if there is none, or at a given place if the list is empty. -/
def indexPos (nodes : List Node) (index : Nat) (ifEmpty : Pos) : Pos :=
  match nodes[index]?, nodes.getLast? with
  | some n, _ => n.range.start
  | none, some last => last.range.stop
  | none, none => ifEmpty

/-- The position where an insertion lands at an index of a place, or of the roots. -/
def landingPos (t : Tree) (parent : Option NodeId) (field : String) (index : Nat) :
    Except EditError Pos :=
  match parent with
  | none => .ok (indexPos t.roots index .zero)
  | some id => do
    let n ← t.find id
    let slot ← n.slot field
    return indexPos slot.nodes index (slotStart n field)

end Tree

/-- The first place of a node that holds a child with an identity, by its name, and the index of
the child in it. -/
def Node.locate (n : Node) (id : NodeId) : Except EditError (String × Nat) :=
  let found := n.kind.slots.findSome? fun slot =>
    (slot.nodes.findIdx? (·.id == id)).map fun index => (slot.field, index)
  match found with
  | some place => .ok place
  | none => .error (.lookup id (.notChildOf n.id))

namespace Edit

/-- The range an edit removes. -/
def span (e : Edit) : Span := ⟨e.start, e.stop⟩

/-- Text between the roots. -/
def insertRoot (t : Tree) (text : String) (pos : Pos) : Except EditError Edit :=
  match t.roots.find? (·.range.strictlyContains pos) with
  | some root => .error (.range pos pos (.insideRoot root.id))
  | none => .ok ⟨pos, pos, .insertRoot text⟩

/-- The index at which an insertion at a position goes into a place. -/
def slotIndex (slot : Slot Node) (pos : Pos) : Except EditError Nat :=
  match slot with
  | .list _ nodes => .ok (nodes.findIdx fun n => pos ≤ n.range.start)
  | .optional _ none => .ok 0
  | .optional field (some _) => .error (.range pos pos (.optionalFilled field))
  | .required field _ => .error (.range pos pos (.requiredSlot field))

/-- Text at a position, between the roots or in a place of a parent. -/
def insert (t : Tree) (text : String) (parent : Option NodeId) (field : String) (pos : Pos) :
    Except EditError Edit :=
  match parent with
  | none => insertRoot t text pos
  | some id => do
    let n ← t.find id
    let slot ← n.slot field
    let index ← slotIndex slot pos
    return ⟨pos, pos, .insertChild id slot.field index text⟩

/-- Text at an index of the roots or of a place of a parent. -/
def insertAt (t : Tree) (text : String) (parent : Option NodeId) (field : String) (index : Nat) :
    Except EditError Edit := do
  insert t text parent field (← t.landingPos parent field index)

/-- A node taken away. -/
def delete (t : Tree) (id : NodeId) : Except EditError Edit := do
  let range := (← t.find id).range
  match t.parent? id with
  | none => return ⟨range.start, range.stop, .deleteRoot id⟩
  | some parent =>
    let (field, index) ← parent.locate id
    return ⟨range.start, range.stop, .deleteChild id parent.id field index⟩

/-- A node replaced by text; empty text takes it away. -/
def replace (t : Tree) (text : String) (id : NodeId) : Except EditError Edit := do
  if text.isEmpty then delete t id
  else
    let range := (← t.find id).range
    match t.parent? id with
    | none => return ⟨range.start, range.stop, .replaceRoot id text⟩
    | some parent =>
      let (field, index) ← parent.locate id
      return ⟨range.start, range.stop, .replaceChild id parent.id field index text⟩

/-- A range replaced by text, with neither end inside a root. -/
def overwrite (t : Tree) (text : String) (start stop : Pos) : Except EditError Edit :=
  if stop < start then .error (.range start stop .inverted)
  else
    let cuts (root : Node) : Bool :=
      root.range.strictlyContains start || root.range.strictlyContains stop
    match t.roots.find? cuts with
    | some root => .error (.range start stop (.cutsThrough root.id root.range))
    | none => .ok ⟨start, stop, .overwrite text⟩

/-- A node taken away and its text put in elsewhere. -/
def move (t : Tree) (text : String) (source : NodeId) (target : DropTarget) :
    Except EditError (List Edit) := do
  let n ← t.find source
  let put ←
    match target with
    | .root pos =>
      if n.range.strictlyContains pos then .error (.range pos pos .insideItself)
      else insert t ("\n" ++ text ++ "\n") none "" pos
    | .child parent field pos =>
      if n.containsId parent then .error (.range pos pos .insideItself)
      else insert t text (some parent) field pos
  return [← delete t source, put]

/-- The parent whose place an edit changes; an edit between the roots has none. -/
def parent? (e : Edit) : Option NodeId :=
  match e.kind with
  | .insertChild parent .. => some parent
  | .deleteChild _ parent .. => some parent
  | .replaceChild _ parent .. => some parent
  | _ => none

/-- The text change of an edit between the roots. -/
def rootChange? (e : Edit) : Option TextChange :=
  match e.kind with
  | .insertRoot text => some ⟨e.start, e.stop, text⟩
  | .replaceRoot _ text => some ⟨e.start, e.stop, text⟩
  | .overwrite text => some ⟨e.start, e.stop, text⟩
  | .deleteRoot _ => some ⟨e.start, e.stop, ""⟩
  | _ => none

/-- Edits latest first; of two with one range the first given stays first. -/
def latestFirst (edits : List Edit) : List Edit :=
  edits.mergeSort fun a b => rangeLe b.span a.span

/-- The node at an index of a place in a tree. -/
def nodeInSlot? (t : Tree) (parent : NodeId) (field : String) (index : Nat) : Option NodeId := do
  let n ← t.get? parent
  let slot ← n.kind.slot? field
  (slot.nodes[index]?).map Node.id

/-- Whether a place of a parent in a tree is a list. -/
def slotIsList (t : Tree) (parent : NodeId) (field : String) : Bool :=
  match (t.get? parent).bind (·.kind.slot? field) with
  | some (.list ..) => true
  | _ => false

/-- The node an edit leads to in the tree after it: what it put in, the sibling before what it took
away, or the parent. -/
def focusTarget? (e : Edit) (t : Tree) : Option NodeId :=
  match e.kind with
  | .insertChild parent field index _ => nodeInSlot? t parent field index
  | .replaceChild _ parent field index _ => nodeInSlot? t parent field index
  | .deleteChild _ parent field index =>
    let sibling :=
      if slotIsList t parent field && 0 < index then nodeInSlot? t parent field (index - 1)
      else none
    sibling.or ((t.get? parent).map Node.id)
  | _ => none

/-- The focus an edit suggests in the tree after it. -/
def focusHint (e : Edit) (t : Tree) : FocusHint :=
  match e.focusTarget? t with
  | some id => .node id
  | none => .fallback

end Edit

end TreeEdit
