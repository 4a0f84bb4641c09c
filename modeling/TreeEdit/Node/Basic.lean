import TreeEdit.Node.Kind
import TreeEdit.Text.Pos

/-!
# Nodes

A node is a kind over nodes together with an identity, a span, a fingerprint and possibly a
comment. `Node.fold` is the one recursion over nodes: it gives a step function the node and the
kind of the results for its children. Everything that visits a whole node is defined through it,
and `Node.induct` is the matching induction: a property that passes from children to parent holds
of every node.

Main statements: `fold_eq` unfolds one level; `walk` and `paths` list a node and its descendants
in preorder, and `at?_of_mem_paths` and `mem_paths_of_at?` say that `paths` and navigation by path
agree.
-/

namespace TreeEdit

universe u

/-- The identity of a node, a 64-bit word. -/
structure NodeId where
  val : UInt64
deriving DecidableEq, Repr, Hashable

namespace NodeId

/-- The identity of nodes that have not been identified yet. -/
def unassigned : NodeId := ⟨0⟩

instance : Inhabited NodeId := ⟨unassigned⟩

/-- Whether the identity is a real one. -/
def isAssigned (id : NodeId) : Bool := id != unassigned

/-- Identities are written with a number sign. -/
def display (id : NodeId) : String := s!"#{id.val.toNat}"

end NodeId

/-- A comment hung on a node: all its lines, and the span from the first to the last. -/
structure Comment where
  id : NodeId
  text : String
  span : Span
  hash : UInt64
deriving DecidableEq, Repr

/-- One expression of a document. -/
structure Node where
  id : NodeId
  span : Span
  hash : UInt64
  kind : Kind Node
  comment : Option Comment

/-- The indices of children on the way down from a root or a node. -/
abbrev Path := List Nat

namespace Node

variable {β : Type u}

mutual

/-- Recursion over a node: `step` sees the node and the results for its children. -/
def fold (step : Node → Kind β → β) : Node → β
  | ⟨id, span, hash, kind, comment⟩ => step ⟨id, span, hash, kind, comment⟩ (foldKind step kind)

/-- The results for the children of a kind. -/
def foldKind (step : Node → Kind β → β) : Kind Node → Kind β
  | .literal value type => .literal value type
  | .blank => .blank
  | .app func args => .app (fold step func) (foldList step args)
  | .identifiers ids => .identifiers (foldList step ids)
  | .variableDef name body => .variableDef (fold step name) (fold step body)
  | .functionDef name params body =>
    .functionDef (fold step name) (fold step params) (fold step body)
  | .lambda args body => .lambda (fold step args) (fold step body)
  | .structDef name fields => .structDef (fold step name) (fold step fields)
  | .conditional test yes no =>
    .conditional (fold step test) (fold step yes) (foldOption step no)
  | .cond clauses => .cond (foldList step clauses)
  | .clause test body => .clause (fold step test) (foldList step body)
  | .letIn form bindings body => .letIn form (foldList step bindings) (fold step body)
  | .binding name value => .binding (fold step name) (fold step value)
  | .guarded form predicate exprs => .guarded form (fold step predicate) (foldList step exprs)
  | .sequence exprs => .sequence (foldList step exprs)
  | .unknown elts => .unknown (foldList step elts)
  | .pasted text => .pasted text
  | .vacated => .vacated

/-- The results for a list of nodes. -/
def foldList (step : Node → Kind β → β) : List Node → List β
  | [] => []
  | n :: ns => fold step n :: foldList step ns

/-- The result for a node that may be missing. -/
def foldOption (step : Node → Kind β → β) : Option Node → Option β
  | none => none
  | some n => some (fold step n)

end

theorem foldList_eq (step : Node → Kind β → β) (ns : List Node) :
    foldList step ns = ns.map (fold step) := by
  induction ns with
  | nil => rfl
  | cons n ns ih => simp [foldList, ih]

theorem foldOption_eq (step : Node → Kind β → β) (n : Option Node) :
    foldOption step n = n.map (fold step) := by
  cases n <;> rfl

theorem foldKind_eq (step : Node → Kind β → β) (k : Kind Node) :
    foldKind step k = k.map (fold step) := by
  cases k <;> simp [foldKind, Kind.map, foldList_eq, foldOption_eq]

/-- One level of a recursion over a node. -/
theorem fold_eq (step : Node → Kind β → β) (n : Node) :
    n.fold step = step n (n.kind.map (fold step)) := by
  obtain ⟨id, span, hash, kind, comment⟩ := n
  rw [fold, foldKind_eq]

/-- The children of a node from left to right; its comment is not among them. -/
def children (n : Node) : List Node := n.kind.children

theorem sizeOf_lt_of_mem_children {n c : Node} (h : c ∈ n.children) : sizeOf c < sizeOf n := by
  obtain ⟨id, span, hash, kind, comment⟩ := n
  have : sizeOf c < sizeOf kind := Kind.sizeOf_lt_of_mem_children h
  simp only [mk.sizeOf_spec]
  omega

/-- A property that passes from the children of a node to the node holds of every node. -/
theorem induct {P : Node → Prop} (step : ∀ n : Node, (∀ c ∈ n.children, P c) → P n) (n : Node) :
    P n :=
  step n fun c _ => induct step c
termination_by sizeOf n
decreasing_by exact sizeOf_lt_of_mem_children ‹_›

/-- A node and its descendants in preorder. -/
def walk (n : Node) : List Node :=
  n.fold fun n below => n :: below.children.flatten

theorem walk_eq (n : Node) : n.walk = n :: n.children.flatMap walk := by
  rw [walk, fold_eq, Kind.children_map, ← List.flatMap_def]
  rfl

/-- A node and its descendants in preorder, each with its path below the node. -/
def paths (n : Node) : List (Path × Node) :=
  n.fold fun n below =>
    ([], n) :: below.children.zipIdx.flatMap fun (ps, i) => ps.map fun (p, m) => (i :: p, m)

theorem paths_eq (n : Node) :
    n.paths = ([], n) :: n.children.zipIdx.flatMap fun (c, i) =>
      c.paths.map fun (p, m) => (i :: p, m) := by
  rw [paths, fold_eq, Kind.children_map, List.zipIdx_map, List.flatMap_map]
  rfl

/-- The node at a path below a node. -/
def at? (n : Node) : Path → Option Node
  | [] => some n
  | i :: path => n.children[i]?.bind fun c => c.at? path

@[simp] theorem at?_nil (n : Node) : n.at? [] = some n := rfl

@[simp] theorem at?_cons (n : Node) (i : Nat) (path : Path) :
    n.at? (i :: path) = n.children[i]?.bind fun c => c.at? path := rfl

theorem at?_of_mem_paths {n m : Node} {p : Path} (h : (p, m) ∈ n.paths) : n.at? p = some m := by
  induction n using induct generalizing p with
  | step n ih =>
    rw [paths_eq] at h
    rcases List.mem_cons.1 h with he | h
    · cases he; rfl
    · obtain ⟨⟨c, i⟩, hc, hp⟩ := List.mem_flatMap.1 h
      obtain ⟨⟨q, m'⟩, hq, he⟩ := List.mem_map.1 hp
      cases he
      have hi : n.children[i]? = some c := List.mk_mem_zipIdx_iff_getElem?.1 hc
      simp [hi, ih c (List.mem_of_getElem? hi) hq]

theorem mem_paths_of_at? {n m : Node} {p : Path} (h : n.at? p = some m) : (p, m) ∈ n.paths := by
  induction p generalizing n with
  | nil => cases h; rw [paths_eq]; exact List.mem_cons_self
  | cons i p ih =>
    obtain ⟨c, hc, hm⟩ := Option.bind_eq_some_iff.1 h
    rw [paths_eq]
    refine List.mem_cons_of_mem _ (List.mem_flatMap.2 ⟨(c, i), ?_, ?_⟩)
    · exact List.mk_mem_zipIdx_iff_getElem?.2 hc
    · exact List.mem_map.2 ⟨(p, m), ih hm, rfl⟩

/-- The text of a symbol. -/
def symbol? (n : Node) : Option String :=
  match n.kind with
  | .literal value .symbol => some value
  | _ => none

/-- Whether the node was put in by an edit. -/
def isMade (n : Node) : Bool :=
  match n.kind with
  | .pasted _ | .vacated => true
  | _ => false

/-- The span of a node, widened to cover its comment. -/
def range (n : Node) : Span :=
  match n.comment with
  | some c => n.span.union c.span
  | none => n.span

/-- Whether an identity occurs in a node. -/
def containsId (n : Node) (id : NodeId) : Bool :=
  n.walk.any (·.id == id)

/-- The path to the first node with an identity, in preorder. -/
def pathTo? (n : Node) (id : NodeId) : Option Path :=
  (n.paths.find? (·.2.id == id)).map Prod.fst

/-- The node at a path replaced by its image; the node itself if the path leads nowhere. -/
def modifyAt (n : Node) (path : Path) (f : Node → Node) : Node :=
  match path with
  | [] => f n
  | i :: path => { n with kind := n.kind.modifyChild i (·.modifyAt path f) }

end Node

end TreeEdit
