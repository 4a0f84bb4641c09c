import TreeEdit.Tree.Basic

/-!
# Carrying identities over

A document that was read again has new nodes, and this module gives them the identities of the
nodes they continue. Every new node first gets a fresh identity. Then siblings are compared with
the old siblings in their place. A new sibling takes the first old one, not taken yet, with the same
fingerprint, and the identities of the two run in parallel all the way down. If some sibling was
taken so, or at most one new sibling is left over, the siblings left over are paired in order: the
new one takes the old identity, and their children are compared in turn. All others stay fresh.

Fresh identities are handed out in increasing order, starting at one. They are 64-bit words, so the
count wraps around after 2^64 of them.
-/

namespace TreeEdit

/-- The next identity to be handed out. -/
structure IdSource where
  next : UInt64
deriving DecidableEq, Repr

namespace IdSource

/-- A source that has handed out nothing. -/
def new : IdSource := ⟨1⟩

instance : Inhabited IdSource := ⟨new⟩

/-- A fresh identity. -/
def fresh : StateM IdSource NodeId := fun s => (⟨s.next⟩, ⟨s.next + 1⟩)

/-- The source made to hand out nothing up to and including an identity. -/
def reserve (s : IdSource) (id : NodeId) : IdSource := ⟨max s.next (id.val + 1)⟩

end IdSource

namespace Identity

/-- The identity of a comment carried over, if there was one. -/
def inheritComment (old new : Option Comment) : Option Comment :=
  match old, new with
  | some o, some c => some { c with id := o.id }
  | _, c => c

/-- Fresh identities for a node, its comment and its descendants, in preorder. -/
def numberFresh (n : Node) : StateM IdSource Node :=
  n.fold fun n below => do
    let id ← IdSource.fresh
    let comment ← n.comment.mapM fun c => return { c with id := ← IdSource.fresh }
    let kind ← below.mapM fun child => child
    return { n with id := id, comment := comment, kind := kind }

/-- The source moved past all identities of a node, its comment and its descendants. -/
def reserveNode (s : IdSource) (n : Node) : IdSource :=
  n.walk.foldl (fun s m =>
    let s := s.reserve m.id
    match m.comment with
    | none => s
    | some c => s.reserve c.id) s

/-- The identities of an old node, its comment and its descendants given to a new node, place by
place. Where there is no old node the new one stays as it is. -/
def takeIds (new : Node) : Option Node → Node :=
  new.fold fun n below old =>
    match old with
    | none => n
    | some o =>
      { n with
        id := o.id
        comment := inheritComment o.comment n.comment
        kind := below.mapIdx fun i child => child o.children[i]? }

/-- What a new sibling continues. -/
inductive Partner where
  | whole (old : Node)
  | paired (old : Node)
  | fresh

/-- The first node with a fingerprint, and the others. -/
def takeFirst (hash : UInt64) : List Node → Option (Node × List Node)
  | [] => none
  | n :: ns =>
    if n.hash = hash then some (n, ns)
    else (takeFirst hash ns).map fun (found, others) => (found, n :: others)

/-- For each new fingerprint in turn the first old sibling with it that is not taken yet, and the
old siblings left over. -/
def takeWhole (old : List Node) : List UInt64 → List (Option Node) × List Node
  | [] => ([], old)
  | hash :: rest =>
    match takeFirst hash old with
    | some (found, others) =>
      let (taken, left) := takeWhole others rest
      (some found :: taken, left)
    | none =>
      let (taken, left) := takeWhole old rest
      (none :: taken, left)

/-- The new siblings that took nothing paired in order with the old siblings left over. -/
def pairLeft : List (Option Node) → List Node → List Partner
  | [], _ => []
  | some o :: rest, left => .whole o :: pairLeft rest left
  | none :: rest, o :: left => .paired o :: pairLeft rest left
  | none :: rest, [] => .fresh :: pairLeft rest []

/-- Whether the siblings left over are paired in order. -/
def pairsLeft (taken : List (Option Node)) : Bool :=
  taken.any Option.isSome || taken.countP Option.isNone ≤ 1

/-- What each new sibling continues, from the old siblings and the new fingerprints. -/
def partners (old : List Node) (new : List UInt64) : List Partner :=
  let (taken, left) := takeWhole old new
  pairLeft taken (if pairsLeft taken then left else [])

/-- How much was carried over: nodes taken whole, nodes paired in order, and new siblings left
fresh where nothing was taken or paired. -/
structure Stats where
  matched : Nat := 0
  paired : Nat := 0
  unmatched : Nat := 0
deriving DecidableEq, Repr

instance : Add Stats :=
  ⟨fun a b => ⟨a.matched + b.matched, a.paired + b.paired, a.unmatched + b.unmatched⟩⟩

/-- The new siblings left fresh at one level, if none was taken or paired there. -/
def freshCount (old : List Node) (new : List UInt64) : Stats :=
  let taken := (takeWhole old new).1
  if pairsLeft taken then {} else { unmatched := taken.length }

/-- A new node with the identities it continues. -/
def inherit (new : Node) : Partner → Node × Stats :=
  new.fold fun n below partner =>
    match partner with
    | .fresh => (n, {})
    | .whole o => (takeIds n (some o), { matched := 1 })
    | .paired o =>
      let hashes := n.children.map Node.hash
      let chosen := partners o.children hashes
      let results := below.mapIdx fun i child => child (chosen.getD i .fresh)
      ({ n with
          id := o.id
          comment := inheritComment o.comment n.comment
          kind := results.map Prod.fst },
       (results.children.map Prod.snd).foldl (· + ·)
         ({ paired := 1 } + freshCount o.children hashes))

/-- New siblings with the identities they continue. -/
def inheritAll (old new : List Node) : List Node × Stats :=
  let hashes := new.map Node.hash
  let results := List.zipWith inherit new (partners old hashes)
  (results.map Prod.fst, (results.map Prod.snd).foldl (· + ·) (freshCount old hashes))

end Identity

open Identity in
/-- The tree of newly read roots, with identities carried over from an old tree, and how much was
carried over. -/
def reconcileCounted (old : Tree) (roots : List Node) (ids : IdSource) :
    Tree × Stats × IdSource :=
  let ids := old.roots.foldl reserveNode ids
  let (labelled, ids) := (roots.mapM numberFresh).run ids
  let (inherited, stats) := inheritAll old.roots labelled
  (.ofRoots inherited, stats, ids)

/-- The tree of newly read roots, with identities carried over from an old tree. -/
def reconcile (old : Tree) (roots : List Node) (ids : IdSource) : Tree × IdSource :=
  let (tree, _, ids) := reconcileCounted old roots ids
  (tree, ids)

/-- The identities of the first tree that the second one has too. -/
def commonIds (a b : Tree) : List NodeId := a.ids.filter b.contains

/-- The tree of a document read for the first time. -/
def identify (roots : List Node) : Tree := (reconcile .empty roots .new).1

end TreeEdit
