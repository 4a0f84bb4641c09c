import TreeEdit.Identity.Reconcile
import TreeEdit.Proofs.Anonymous
import TreeEdit.Proofs.Inheritance

/-!
# Fingerprints of what was read

A node is `Stamped` if the fingerprints in it are those its content asks for. Every node that was read
is stamped (`readDocument_stamped`), and a stamped node has the fingerprint of its bare form
(`Stamped.hash_eq`), so nodes that are structurally equal carry the same one. Roots that are
structurally equal to those of a tree, and stamped like them, therefore take over every identity when
they are reconciled with it: `reconcile_keeps_labels`.
-/

namespace TreeEdit

open Reader

namespace Node

/-- The fingerprints of a node and of all its descendants and comments are those of their content. -/
inductive Stamped : Node → Prop
  | intro {n : Node} (hash : n.hash = n.kind.fingerprint n.comment)
      (comment : ∀ c ∈ n.comment, c.hash = Xxh3.hash (Fingerprint.bytesOfComment c.text))
      (children : ∀ m ∈ n.children, m.Stamped) : Stamped n

/-- The fingerprint that the content of a node asks for. -/
def stamp (n : Node) : UInt64 :=
  n.fold fun n below => Xxh3.hash (Fingerprint.bytes below
    (n.comment.map fun c => Xxh3.hash (Fingerprint.bytesOfComment c.text)))

theorem stamp_eq (n : Node) : n.stamp = Xxh3.hash (Fingerprint.bytes (n.kind.map stamp)
    (n.comment.map fun c => Xxh3.hash (Fingerprint.bytesOfComment c.text))) := by
  rw [stamp, fold_eq]
  rfl

theorem stamp_bare (n : Node) : n.bare.stamp = n.stamp := by
  induction n using induct with
  | step n ih =>
      have hkind : (n.kind.map bare).map stamp = n.kind.map stamp := by
        rw [Kind.map_map]
        exact Kind.map_congr_left ih
      rw [stamp_eq, stamp_eq n, bare_kind, hkind, bare_comment, Option.map_map]
      rfl

theorem Stamped.hash_eq {n : Node} (h : n.Stamped) : n.hash = n.stamp := by
  induction h with
  | @intro n hash comment _ ih =>
      have hcomment : n.comment.map Comment.hash =
          n.comment.map fun c => Xxh3.hash (Fingerprint.bytesOfComment c.text) :=
        Option.map_congr comment
      rw [hash, stamp_eq, Kind.fingerprint, Kind.map_congr_left ih, hcomment]

theorem map_hash_of_bare {ns ms : List Node} (hns : ∀ n ∈ ns, n.Stamped) (hms : ∀ m ∈ ms, m.Stamped)
    (h : ns.map bare = ms.map bare) : ns.map hash = ms.map hash := by
  have hstamp : ∀ roots : List Node, (∀ n ∈ roots, n.Stamped) →
      roots.map hash = (roots.map bare).map stamp := by
    intro roots hroots
    rw [List.map_map]
    refine List.map_congr_left fun n hn => ?_
    rw [Function.comp_apply, stamp_bare, (hroots n hn).hash_eq]
  rw [hstamp ns hns, hstamp ms hms, h]

/-! ## The reader stamps what it makes -/

theorem Stamped.child {n m : Node} (h : n.Stamped) (hm : m ∈ n.children) : m.Stamped := by
  obtain ⟨_, _, hchildren⟩ := h
  exact hchildren m hm

theorem stamped_make {k : Kind Node} (h : ∀ m ∈ k.children, m.Stamped) (span : Span) :
    (make k span).Stamped :=
  .intro rfl (by simp [make]) h

theorem stamped_withComment {n : Node} (h : ∀ m ∈ n.children, m.Stamped) {comment : Option Comment}
    (hcomment : ∀ c ∈ comment, c.hash = Xxh3.hash (Fingerprint.bytesOfComment c.text)) :
    (n.withComment comment).Stamped :=
  .intro rfl hcomment h

theorem Stamped.comment_hash {n : Node} (h : n.Stamped) :
    ∀ c ∈ n.comment, c.hash = Xxh3.hash (Fingerprint.bytesOfComment c.text) := by
  obtain ⟨_, hcomment, _⟩ := h
  exact hcomment

theorem Stamped.addNotes {n : Node} (h : n.Stamped) (notes : List Note) :
    (n.addNotes notes).Stamped := by
  unfold Node.addNotes
  split
  · exact h
  · split
    · exact h
    · refine stamped_withComment (fun m hm => h.child hm) ?_
      rintro c ⟨⟩
      rfl

theorem Stamped.rekind {n : Node} (hn : n.Stamped) {k : Kind Node} (hk : ∀ m ∈ k.children, m.Stamped) :
    (rekind n k).Stamped :=
  stamped_withComment (n := make k n.span) hk hn.comment_hash

end Node

theorem Reader.inherited_stamped : Inherited Node.Stamped fun _ => True where
  child hn hm := hn.child hm
  note _ _ := trivial
  hang hn _ := hn.addNotes _
  uncommented hn := Node.stamped_withComment (fun _ hm => hn.child hm) (by simp)
  rekind {n k} hn hkind := by
    refine hn.rekind fun m hm => hn.child ?_
    rw [Node.children, hkind]
    rwa [Kind.children_raw]
  params {n name ids} hn hkind _ := by
    refine Node.stamped_make (fun m hm => hn.child ?_) _
    rw [Node.children, hkind]
    simp only [Kind.children, Kind.slots, Slot.nodes, List.flatMap_cons, List.flatMap_nil, List.append_nil]
      at hm ⊢
    exact List.mem_cons_of_mem _ hm

/-- Every root of a document that was read is stamped. -/
theorem readDocument_stamped {text : String} {roots : List Node} (h : readDocument text = .ok roots) :
    ∀ n ∈ roots, n.Stamped := by
  refine inherited_stamped.roots ?_ ?_ h
  · intro t
    exact .intro rfl (by simp [leaf, Node.make]) (by simp [leaf_children])
  · intro items span hchildren
    exact Node.stamped_make hchildren span

/-! ## Identities carried over to structurally equal roots -/

/-- The identity of a node and that of its comment. -/
def Node.label (n : Node) : NodeId × Option NodeId := (n.id, n.comment.map Comment.id)

theorem Node.bare_anonymous (n : Node) : n.anonymous.bare = n.bare := by
  induction n using Node.induct with
  | step n ih =>
      rw [bare_eq, bare_eq n, anonymous_eq]
      simp only [Kind.map_map, Option.map_map]
      rw [Kind.map_congr_left (f := bare ∘ anonymous) (g := bare) ih]
      rfl

theorem Node.hash_anonymous (n : Node) : n.anonymous.hash = n.hash := by rw [anonymous_eq]

theorem map_eq_of_anonymous {β : Type} {f : Node → β} (hf : ∀ n : Node, f n.anonymous = f n)
    {ns ms : List Node} (h : ns.map Node.anonymous = ms.map Node.anonymous) : ns.map f = ms.map f := by
  have hmap := congrArg (List.map f) h
  simpa only [List.map_map, Function.comp_def, hf] using hmap

theorem Node.exists_getElem?_of_anonymous {ns ns' : List Node} (h : ns.map Node.anonymous = ns'.map Node.anonymous)
    {i : Nat} {n : Node} (hn : ns[i]? = some n) : ∃ n', ns'[i]? = some n' ∧ n.anonymous = n'.anonymous := by
  have hget := congrArg (·[i]?) h
  simp only [List.getElem?_map, hn, Option.map_some] at hget
  obtain ⟨n', hn', hsame⟩ := Option.map_eq_some_iff.1 hget.symm
  exact ⟨n', hn', hsame.symm⟩

theorem Node.children_of_anonymous {n n' : Node} (h : n.anonymous = n'.anonymous) :
    n.children.map Node.anonymous = n'.children.map Node.anonymous := by
  have hkids := congrArg Node.children h
  simpa only [Node.anonymous_eq, Node.children, Kind.children_map] using hkids

namespace Identity

/-- A node takes over every identity of a node that is structurally equal to it. -/
theorem takeIds_labels {n o : Node} (h : n.bare = o.bare) :
    (takeIds n (some o)).walk.map Node.label = o.walk.map Node.label := by
  induction n using Node.induct generalizing o with
  | step n ih =>
      obtain ⟨hkind, hcomment⟩ := Node.bare_eq_bare_iff.1 h
      have hchildren : n.children.map Node.bare = o.children.map Node.bare := by
        rw [Node.children, Node.children, ← Kind.children_map, hkind, Kind.children_map]
      have hlabel : (inheritComment o.comment n.comment).map Comment.id = o.comment.map Comment.id := by
        cases hn : n.comment <;> cases ho : o.comment <;> simp_all [inheritComment]
      have hbelow : (n.children.mapIdx fun i c => takeIds c o.children[i]?).map
          (fun c => c.walk.map Node.label) = o.children.map fun c => c.walk.map Node.label := by
        have hlen : n.children.length = o.children.length := by
          simpa using congrArg List.length hchildren
        refine List.ext_getElem (by simp [hlen]) ?_
        intro i hi ho
        have hi' : i < n.children.length := by simpa using hi
        have ho' : i < o.children.length := by simpa using ho
        have hbare : n.children[i].bare = o.children[i].bare := by
          have hget := congrArg (·[i]?) hchildren
          simpa [hi', ho'] using hget
        simpa [ho'] using ih n.children[i] (List.getElem_mem hi') hbare
      have hroot : (takeIds n (some o)).label = o.label := by
        rw [takeIds_some, Node.label, hlabel]
        rfl
      have hkids : (takeIds n (some o)).children =
          n.children.mapIdx fun i c => takeIds c o.children[i]? := by
        rw [takeIds_some]
        exact Kind.children_mapIdx (fun i c => takeIds c o.children[i]?) n.kind
      rw [Node.walk_eq, Node.walk_eq o, List.map_cons, List.map_cons, List.map_flatMap,
        List.map_flatMap, List.flatMap_def, List.flatMap_def, hkids, hbelow, hroot]

theorem takeWhole_self (old : List Node) : takeWhole old (old.map Node.hash) = (old.map some, []) := by
  induction old with
  | nil => rfl
  | cons o old ih => simp [takeWhole, takeFirst, ih]

theorem pairLeft_some (taken left : List Node) : pairLeft (taken.map some) left = taken.map .whole := by
  induction taken with
  | nil => rfl
  | cons o taken ih => simp [pairLeft, ih]

theorem partners_self (old : List Node) : partners old (old.map Node.hash) = old.map .whole := by
  rw [partners, takeWhole_self]
  exact pairLeft_some old _

theorem inheritAll_labels {old new : List Node} (hbare : new.map Node.bare = old.map Node.bare)
    (hhash : new.map Node.hash = old.map Node.hash) :
    (Forest.nodes (inheritAll old new).1).map Node.label = (Forest.nodes old).map Node.label := by
  have hall : (inheritAll old new).1 = List.zipWith (fun n o => takeIds n (some o)) new old := by
    simp only [inheritAll, hhash, partners_self]
    rw [List.zipWith_map_right, List.map_zipWith]
    simp only [inherit_whole]
  rw [hall]
  clear hall hhash
  induction new generalizing old with
  | nil =>
      rw [List.map_nil, eq_comm, List.map_eq_nil_iff] at hbare
      rw [hbare]
      rfl
  | cons n new ih =>
      cases old with
      | nil => cases hbare
      | cons o old =>
          obtain ⟨hn, hnew⟩ := List.cons.inj hbare
          have htail := ih hnew
          simp only [Forest.nodes] at htail ⊢
          rw [List.zipWith_cons_cons, List.flatMap_cons, List.flatMap_cons, List.map_append,
            List.map_append, takeIds_labels hn, htail]

end Identity

open Identity in
/-- Roots that are structurally equal to those of a tree, and stamped like them, take over every
identity. -/
theorem reconcile_keeps_labels {tree : Tree} {roots : List Node} (ids : IdSource)
    (hbare : roots.map Node.bare = tree.roots.map Node.bare)
    (hhash : roots.map Node.hash = tree.roots.map Node.hash) :
    (reconcile tree roots ids).1.nodes.map Node.label = tree.nodes.map Node.label := by
  have hfresh : ((roots.mapM numberFresh (tree.roots.foldl reserveNode ids)).1).map Node.anonymous =
      roots.map Node.anonymous :=
    map_fst_list_mapM (fun n _ s => numberFresh_anonymous n s) _
  exact inheritAll_labels ((map_eq_of_anonymous Node.bare_anonymous hfresh).trans hbare)
    ((map_eq_of_anonymous Node.hash_anonymous hfresh).trans hhash)

end TreeEdit
