import Std.Data.HashMap
import TreeEdit.Node.Basic

/-!
# Trees

A tree is the list of roots of a document together with an index that gives the path of each node
by its identity. The index is a field so that it is built once, and `index_eq` says that it is the
one the roots determine, so two trees with the same roots are equal. Comments are not indexed.
-/

namespace TreeEdit

namespace Forest

/-- The nodes of a list of roots in preorder. -/
def nodes (roots : List Node) : List Node := roots.flatMap Node.walk

/-- The nodes of a list of roots in preorder, each with its path. -/
def paths (roots : List Node) : List (Path × Node) :=
  roots.zipIdx.flatMap fun (r, i) => r.paths.map fun (p, n) => (i :: p, n)

/-- The node at a path; the first index picks a root. -/
def at? (roots : List Node) : Path → Option Node
  | [] => none
  | i :: path => roots[i]?.bind fun r => r.at? path

/-- The path of each identity; if an identity occurs twice, its last place in preorder. -/
def index (roots : List Node) : Std.HashMap NodeId Path :=
  Std.HashMap.ofList ((paths roots).map fun (p, n) => (n.id, p))

end Forest

/-- The roots of a document with the places of their nodes. -/
structure Tree where
  roots : List Node
  index : Std.HashMap NodeId Path
  index_eq : index = Forest.index roots

namespace Tree

/-- The tree of some roots. -/
def ofRoots (roots : List Node) : Tree := ⟨roots, Forest.index roots, rfl⟩

/-- The tree of the empty document. -/
def empty : Tree := ofRoots []

instance : Inhabited Tree := ⟨empty⟩

theorem ext {s t : Tree} (h : s.roots = t.roots) : s = t := by
  obtain ⟨r, i, hi⟩ := s
  obtain ⟨r', i', hi'⟩ := t
  subst hi hi'
  cases h
  rfl

/-- The number of nodes in the index. -/
def size (t : Tree) : Nat := t.index.size

/-- Whether an identity is in the tree. -/
def contains (t : Tree) (id : NodeId) : Bool := t.index.contains id

/-- The path of an identity. -/
def pathOf? (t : Tree) (id : NodeId) : Option Path := t.index[id]?

/-- The node at a path. -/
def at? (t : Tree) (path : Path) : Option Node := Forest.at? t.roots path

/-- The node with an identity. -/
def get? (t : Tree) (id : NodeId) : Option Node := (t.pathOf? id).bind t.at?

/-- The parent of a node; a root has none. -/
def parent? (t : Tree) (id : NodeId) : Option Node :=
  (t.pathOf? id).bind fun path => t.at? path.dropLast

/-- The ancestors of a node, outermost first. -/
def ancestors (t : Tree) (id : NodeId) : List Node :=
  match t.pathOf? id with
  | none => []
  | some path => (List.range path.length).filterMap fun depth => t.at? (path.take depth)

/-- All nodes in preorder. -/
def nodes (t : Tree) : List Node := Forest.nodes t.roots

/-- All identities of nodes in preorder. -/
def ids (t : Tree) : List NodeId := t.nodes.map Node.id

/-- The identities of all comments, in the preorder of their nodes. -/
def commentIds (t : Tree) : List NodeId := t.nodes.filterMap fun n => n.comment.map Comment.id

/-- The greatest identity of a node. -/
def maxId? (t : Tree) : Option NodeId :=
  (t.ids.map NodeId.val).max?.map NodeId.mk

/-- The answer for a list of siblings, given the answer inside each: the last one that ends at or
before the position; or, for one that the position cuts, the answer inside it, or else itself. -/
def nearest (pos : Pos) (best : Option Node) : List (Node × Option Node) → Option Node
  | [] => best
  | (n, inside) :: rest =>
    if pos ≤ n.range.start then best
    else if n.range.stop ≤ pos then nearest pos (some n) rest
    else inside.or (some n)

/-- The node nearest before a position among the descendants of a node. -/
def nearestInside (pos : Pos) (n : Node) : Option Node :=
  n.fold fun n below => nearest pos none (n.children.zip below.children)

/-- The node nearest before a position: the outermost node that ends at or before it, looked for
inside any node that the position cuts. -/
def before? (t : Tree) (pos : Pos) : Option Node :=
  nearest pos none (t.roots.map fun r => (r, nearestInside pos r))

end Tree

end TreeEdit
