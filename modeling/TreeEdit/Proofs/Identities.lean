import Mathlib
import TreeEdit.Proofs.Agreement
import TreeEdit.Proofs.Anonymous

/-!
# Identities are used once

A tree that was read again gets its identities from three places: fresh numbers, old subtrees taken
over as a whole, and old siblings paired in order, the last two on top of the first. What matters of
all this is counted here: the new tree has an identity no oftener than the fresh numbers and the old
tree together do (`inheritAll_count_le`), whatever the fingerprints are. The fresh numbers lie above
all identities that were ever handed out, so a tree whose identities are distinct is followed by one
whose identities are distinct, and an identity that one tree has lost is in none that comes after it.
-/

namespace TreeEdit

/-! ## The identities in a node -/

/-- The identity of a node, and that of its comment. -/
def Node.ownIds (n : Node) : List NodeId := n.id :: (n.comment.map Comment.id).toList

/-- All identities in a node, those of comments included, in preorder. -/
def Node.allIds (n : Node) : List NodeId := n.walk.flatMap ownIds

theorem Node.allIds_eq (n : Node) : n.allIds = n.ownIds ++ n.children.flatMap allIds := by
  rw [allIds, walk_eq, List.flatMap_cons, List.flatMap_assoc]
  rfl

/-- All identities in a list of siblings. -/
def Forest.allIds (ns : List Node) : List NodeId := ns.flatMap Node.allIds

theorem Forest.allIds_cons (n : Node) (ns : List Node) :
    allIds (n :: ns) = n.allIds ++ allIds ns := List.flatMap_cons

/-- All identities of a tree: those of its nodes and those of its comments. -/
def Tree.identities (t : Tree) : List NodeId := t.ids ++ t.commentIds

theorem Tree.identities_perm (t : Tree) : t.identities.Perm (Forest.allIds t.roots) := by
  have hsplit : ∀ ns : List Node, (ns.map Node.id ++ ns.filterMap fun n => n.comment.map Comment.id).Perm
      (ns.flatMap Node.ownIds) := by
    intro ns
    induction ns with
    | nil => exact .nil
    | cons n ns ih =>
        rw [List.flatMap_cons, Node.ownIds, List.map_cons, List.cons_append, List.cons_append]
        refine .cons _ ?_
        rw [List.filterMap_cons]
        cases n.comment.map Comment.id with
        | none => exact ih
        | some id => exact List.perm_middle.trans (.cons _ ih)
  have hforest : Forest.allIds t.roots = (Forest.nodes t.roots).flatMap Node.ownIds := by
    rw [Forest.allIds, Forest.nodes, List.flatMap_assoc]
    rfl
  rw [hforest]
  exact hsplit _

/-! ## Fresh identities -/

namespace IdSource

/-- The source after some identities were handed out. -/
def after (s : IdSource) (count : Nat) : IdSource := ⟨s.next + UInt64.ofNat count⟩

/-- The next identities that a source hands out. -/
def series (s : IdSource) : Nat → List NodeId
  | 0 => []
  | count + 1 => ⟨s.next⟩ :: series ⟨s.next + 1⟩ count

@[simp] theorem after_zero (s : IdSource) : s.after 0 = s := by
  simp [after]

theorem after_succ (s : IdSource) (count : Nat) : s.after (count + 1) = after ⟨s.next + 1⟩ count := by
  simp only [after, mk.injEq, UInt64.ofNat_add]
  grind

theorem after_after (s : IdSource) (a b : Nat) : (s.after a).after b = s.after (a + b) := by
  simp only [after, mk.injEq, UInt64.ofNat_add]
  grind

theorem series_add (s : IdSource) (a b : Nat) :
    s.series (a + b) = s.series a ++ (s.after a).series b := by
  induction a generalizing s with
  | zero => simp [series]
  | succ a ih => rw [Nat.add_right_comm, series, series, ih, after_succ, List.cons_append]

theorem after_toNat {s : IdSource} {count : Nat} (h : s.next.toNat + count < 2 ^ 64) :
    (s.after count).next.toNat = s.next.toNat + count := by
  rw [after, UInt64.toNat_add, UInt64.toNat_ofNat', Nat.mod_eq_of_lt (show count < 2 ^ 64 by omega),
    Nat.mod_eq_of_lt h]

/-- As long as the count does not wrap around, identities are handed out in increasing order. -/
theorem series_toNat {s : IdSource} {count : Nat} (h : s.next.toNat + count < 2 ^ 64) :
    (s.series count).map (·.val.toNat) = List.range' s.next.toNat count := by
  induction count generalizing s with
  | zero => rfl
  | succ count ih =>
      have hnext : (s.next + 1).toNat = s.next.toNat + 1 := by
        have hone := after_toNat (s := s) (show s.next.toNat + 1 < 2 ^ 64 by omega)
        exact hone
      rw [series, List.map_cons, List.range'_succ, ih (by rw [hnext]; omega), hnext]

theorem mem_series {s : IdSource} {count : Nat} (h : s.next.toNat + count < 2 ^ 64) {id : NodeId}
    (hid : id ∈ s.series count) :
    s.next.toNat ≤ id.val.toNat ∧ id.val.toNat < s.next.toNat + count := by
  have hmem : id.val.toNat ∈ (s.series count).map (·.val.toNat) := List.mem_map_of_mem hid
  rwa [series_toNat h, List.mem_range'_1] at hmem

theorem series_nodup {s : IdSource} {count : Nat} (h : s.next.toNat + count < 2 ^ 64) :
    (s.series count).Nodup := by
  refine List.Nodup.of_map (fun id : NodeId => id.val.toNat) ?_
  rw [series_toNat h]
  exact List.nodup_range'

end IdSource

namespace Identity

/-- The action hands out a number of identities, and its result has just these. -/
def Draws {α : Type} (x : StateM IdSource α) (ids : α → List NodeId) (count : Nat) : Prop :=
  ∀ s, ids (x s).1 = s.series count ∧ (x s).2 = s.after count

/-- The children that an action on each of them leaves, and the state after it. -/
theorem children_mapM {σ α β : Type} (f : α → StateM σ β) (k : Kind α) (s : σ) :
    (k.mapM f s).1.children = (k.children.mapM f s).1 ∧ (k.mapM f s).2 = (k.children.mapM f s).2 := by
  cases k with
  | conditional test yes no =>
      cases no <;> simp [Kind.mapM, Kind.children, Kind.slots, Slot.nodes, bind_apply, map_apply]
  | _ => simp [Kind.mapM, Kind.children, Kind.slots, Slot.nodes, bind_apply, pure_apply, map_apply]

theorem draws_list_mapM {α β : Type} {f : α → StateM IdSource β} {ids : β → List NodeId}
    {size : α → Nat} {cs : List α} (h : ∀ c ∈ cs, Draws (f c) ids (size c)) :
    Draws (cs.mapM f) (List.flatMap ids) (cs.map size).sum := by
  induction cs with
  | nil =>
      intro s
      simp [pure_apply, IdSource.series]
  | cons c cs ih =>
      intro s
      obtain ⟨hids, hafter⟩ := h c List.mem_cons_self s
      obtain ⟨hrest, hend⟩ := ih (fun d hd => h d (List.mem_cons_of_mem c hd)) (s.after (size c))
      simp only [List.mapM_cons, bind_apply, pure_apply, List.flatMap_cons, List.map_cons, List.sum_cons]
      rw [hafter, hids, hrest, hend, IdSource.series_add, IdSource.after_after]
      exact ⟨rfl, rfl⟩

theorem draws_fresh : Draws IdSource.fresh (fun id => [id]) 1 := fun _ => ⟨rfl, rfl⟩

theorem draws_comment (c : Option Comment) :
    Draws (c.mapM fun c => do return { c with id := ← IdSource.fresh })
      (fun c => (c.map Comment.id).toList) c.toList.length := by
  intro s
  cases c with
  | none => exact ⟨rfl, (IdSource.after_zero s).symm⟩
  | some c => exact draws_fresh s

/-- Numbering a node hands out as many identities as there are places for them. -/
theorem numberFresh_draws (n : Node) : Draws (numberFresh n) Node.allIds n.allIds.length := by
  induction n using Node.induct with
  | step n ih =>
      intro s
      have hsize : n.allIds.length =
          1 + (n.comment.toList.length + (n.children.map fun c => c.allIds.length).sum) := by
        rw [Node.allIds_eq, List.length_append, List.length_flatMap, Node.ownIds, List.length_cons]
        cases n.comment with
        | none => simp
        | some c => simp only [Option.map_some, Option.toList_some, List.length_singleton]; omega
      obtain ⟨hid, hafter⟩ := draws_fresh s
      obtain ⟨hcomment, hnext⟩ := draws_comment n.comment (s.after 1)
      obtain ⟨hkids, hstate⟩ := children_mapM numberFresh n.kind ((s.after 1).after n.comment.toList.length)
      obtain ⟨hids, hend⟩ := draws_list_mapM ih ((s.after 1).after n.comment.toList.length)
      rw [numberFresh_eq, hsize, IdSource.series_add, IdSource.series_add, ← IdSource.after_after,
        ← IdSource.after_after]
      simp only [bind_apply, pure_apply]
      rw [hafter, hnext, hstate]
      refine ⟨?_, hend⟩
      rw [Node.allIds_eq, Node.ownIds, Node.children, hkids, ← hid, ← hids, ← hcomment]
      simp [Node.children]

/-- Numbering roots hands out as many identities as there are places for them. -/
theorem mapM_numberFresh_draws (roots : List Node) :
    Draws (roots.mapM numberFresh) Forest.allIds (Forest.allIds roots).length := by
  rw [Forest.allIds, List.length_flatMap]
  exact draws_list_mapM fun n _ => numberFresh_draws n

/-! ## Identities carried over -/

/-- A comment that takes over an identity uses no identity oftener than the two comments together. -/
theorem inheritComment_count_le (old new : Option Comment) (id : NodeId) :
    ((inheritComment old new).map Comment.id).toList.count id ≤
      (new.map Comment.id).toList.count id + (old.map Comment.id).toList.count id := by
  cases old <;> cases new <;> simp [inheritComment]

/-- The identities of the node that a sibling continues. -/
def Partner.allIds : Partner → List NodeId
  | .whole old => old.allIds
  | .paired old => old.allIds
  | .fresh => []

/-- If each node of a list has an identity no oftener than the node it comes of and what stands beside
that one, so has the list. -/
theorem count_allIds_mapIdx_le {α : Type} {f : Nat → Node → Node} {given : α → List NodeId}
    {ns : List Node} {xs : List α} {id : NodeId}
    (h : ∀ i, ∀ n ∈ ns, (f i n).allIds.count id ≤ n.allIds.count id + (xs[i]?.elim [] given).count id) :
    (Forest.allIds (ns.mapIdx f)).count id ≤
      (Forest.allIds ns).count id + (xs.flatMap given).count id := by
  induction ns generalizing f xs with
  | nil => simp [Forest.allIds]
  | cons n ns ih =>
      have hhead := h 0 n List.mem_cons_self
      rw [List.mapIdx_cons, Forest.allIds_cons, Forest.allIds_cons, List.count_append, List.count_append]
      cases xs with
      | nil =>
          have htail := @ih (fun i => f (i + 1)) [] fun i m hm => h (i + 1) m (List.mem_cons_of_mem n hm)
          simp only [List.getElem?_nil, Option.elim_none, List.flatMap_nil, List.count_nil] at hhead htail ⊢
          omega
      | cons x xs =>
          have htail := @ih (fun i => f (i + 1)) xs fun i m hm => h (i + 1) m (List.mem_cons_of_mem n hm)
          simp only [List.getElem?_cons_zero, Option.elim_some, List.flatMap_cons, List.count_append]
            at hhead htail ⊢
          omega

/-- A node that takes over the identity of an old one and of its comment has an identity no oftener than
the two together, if this is so below them. -/
theorem count_allIds_over_le {n o : Node} {f : Nat → Node → Node} {id : NodeId}
    (hbelow : (Forest.allIds (n.children.mapIdx f)).count id ≤
      (Forest.allIds n.children).count id + (Forest.allIds o.children).count id) :
    ({ n with
        id := o.id
        comment := inheritComment o.comment n.comment
        kind := n.kind.mapIdx f } : Node).allIds.count id ≤ n.allIds.count id + o.allIds.count id := by
  have hkids : ({ n with
      id := o.id
      comment := inheritComment o.comment n.comment
      kind := n.kind.mapIdx f } : Node).children = n.children.mapIdx f := Kind.children_mapIdx f n.kind
  have hown := inheritComment_count_le o.comment n.comment id
  rw [Node.allIds_eq, hkids, Node.allIds_eq n, Node.allIds_eq o]
  simp only [Node.ownIds, Forest.allIds, List.count_append, List.count_cons] at hown hbelow ⊢
  omega

theorem takeIds_count_le (n : Node) (old : Option Node) (id : NodeId) :
    (takeIds n old).allIds.count id ≤ n.allIds.count id + (old.elim [] Node.allIds).count id := by
  induction n using Node.induct generalizing old with
  | step n ih =>
      cases old with
      | none =>
          rw [takeIds_none]
          exact Nat.le_add_right _ _
      | some o =>
          rw [takeIds_some]
          exact count_allIds_over_le (count_allIds_mapIdx_le fun i c hc => ih c hc o.children[i]?)

theorem takeFirst_perm {hash : UInt64} {old others : List Node} {found : Node}
    (h : takeFirst hash old = some (found, others)) : old.Perm (found :: others) := by
  induction old generalizing others with
  | nil => cases h
  | cons o old ih =>
      rw [takeFirst] at h
      split at h
      · cases h
        exact .refl _
      · obtain ⟨⟨m, ms⟩, htake, hm⟩ := Option.map_eq_some_iff.1 h
        cases hm
        exact (List.Perm.cons o (ih htake)).trans (.swap _ _ _)

/-- The old siblings taken and those left over are the old siblings. -/
theorem takeWhole_perm (old : List Node) (hashes : List UInt64) :
    old.Perm ((takeWhole old hashes).1.reduceOption ++ (takeWhole old hashes).2) := by
  induction hashes generalizing old with
  | nil => exact .refl _
  | cons hash rest ih =>
      rw [takeWhole]
      cases htake : takeFirst hash old with
      | none => simpa using ih old
      | some taken =>
          obtain ⟨found, others⟩ := taken
          simpa using (takeFirst_perm htake).trans (.cons found (ih others))

theorem pairLeft_count_le (taken : List (Option Node)) (left : List Node) (id : NodeId) :
    ((pairLeft taken left).flatMap Partner.allIds).count id ≤
      (Forest.allIds (taken.reduceOption ++ left)).count id := by
  fun_induction pairLeft taken left with
  | case1 => simp
  | case2 left o rest ih =>
      simp only [List.flatMap_cons, List.count_append, Partner.allIds, List.reduceOption_cons_of_some,
        List.cons_append, Forest.allIds_cons] at ih ⊢
      omega
  | case3 rest o left ih =>
      simp only [Forest.allIds, List.flatMap_cons, List.count_append, Partner.allIds,
        List.reduceOption_cons_of_none, List.flatMap_append] at ih ⊢
      omega
  | case4 rest ih => simpa [Partner.allIds] using ih

/-- No old sibling is continued twice. -/
theorem partners_count_le (old : List Node) (hashes : List UInt64) (id : NodeId) :
    ((partners old hashes).flatMap Partner.allIds).count id ≤ (Forest.allIds old).count id := by
  have hperm := (takeWhole_perm old hashes).flatMap_right Node.allIds
  have hpair := pairLeft_count_le (takeWhole old hashes).1
    (if pairsLeft (takeWhole old hashes).1 then (takeWhole old hashes).2 else []) id
  rw [partners]
  refine hpair.trans ?_
  rw [Forest.allIds, Forest.allIds, hperm.count_eq, List.flatMap_append, List.flatMap_append,
    List.count_append, List.count_append]
  split
  · exact le_rfl
  · simp

theorem inherit_count_le (n : Node) (p : Partner) (id : NodeId) :
    (inherit n p).1.allIds.count id ≤ n.allIds.count id + p.allIds.count id := by
  induction n using Node.induct generalizing p with
  | step n ih =>
      cases p with
      | fresh =>
          rw [inherit_fresh]
          exact Nat.le_add_right _ _
      | whole o =>
          rw [inherit_whole]
          exact takeIds_count_le n (some o) id
      | paired o =>
          let ps := partners o.children (n.children.map Node.hash)
          have hbelow : (Forest.allIds (n.children.mapIdx fun i c => (inherit c (ps.getD i .fresh)).1)).count
              id ≤ (Forest.allIds n.children).count id + (ps.flatMap Partner.allIds).count id := by
            refine count_allIds_mapIdx_le fun i c hc => ?_
            have hchild := ih c hc (ps.getD i .fresh)
            rw [List.getD_eq_getElem?_getD] at hchild ⊢
            cases hp : ps[i]? with
            | none => simpa [hp, Partner.allIds] using hchild
            | some p => simpa [hp] using hchild
          have hpartners := partners_count_le o.children (n.children.map Node.hash) id
          rw [inherit_paired]
          exact count_allIds_over_le (hbelow.trans (Nat.add_le_add_left hpartners _))

/-- Siblings that take over identities have none oftener than they and the old siblings had it
together. -/
theorem inheritAll_count_le (old new : List Node) (id : NodeId) :
    (Forest.allIds (inheritAll old new).1).count id ≤
      (Forest.allIds new).count id + (Forest.allIds old).count id := by
  have hzip : ∀ (ns : List Node) (ps : List Partner),
      (Forest.allIds ((List.zipWith inherit ns ps).map Prod.fst)).count id ≤
        (Forest.allIds ns).count id + (ps.flatMap Partner.allIds).count id := by
    intro ns
    induction ns with
    | nil => simp [Forest.allIds]
    | cons n ns ih =>
        intro ps
        cases ps with
        | nil => simp [Forest.allIds]
        | cons p ps =>
            have hhead := inherit_count_le n p id
            have htail := ih ps
            simp only [List.zipWith_cons_cons, List.map_cons, Forest.allIds_cons, List.flatMap_cons,
              List.count_append]
            omega
  have hpartners := partners_count_le old (new.map Node.hash) id
  have hall := hzip new (partners old (new.map Node.hash))
  simp only [inheritAll]
  omega

theorem reserve_of_lt {s : IdSource} {id : NodeId} (h : id.val.toNat < s.next.toNat) :
    s.reserve id = s := by
  have hnext := s.next.toNat_lt
  have hsucc : (id.val + 1).toNat = id.val.toNat + 1 := by
    rw [UInt64.toNat_add]
    exact Nat.mod_eq_of_lt (by simpa using by omega)
  obtain ⟨next⟩ := s
  have hmax : max next (id.val + 1) = if next ≤ id.val + 1 then id.val + 1 else next := rfl
  rw [IdSource.reserve, hmax]
  split
  · rename_i hle
    rw [UInt64.le_iff_toNat_le] at hle
    exact congrArg IdSource.mk (UInt64.toNat_inj.1 (by simp only at h; omega))
  · rfl

theorem foldl_eq_self {σ α : Type} {f : σ → α → σ} {s : σ} {xs : List α} (h : ∀ x ∈ xs, f s x = s) :
    xs.foldl f s = s := by
  induction xs with
  | nil => rfl
  | cons x xs ih =>
      obtain ⟨hx, hxs⟩ := List.forall_mem_cons.1 h
      rw [List.foldl_cons, hx, ih hxs]

/-- A source that is past all identities in a node need not be moved. -/
theorem reserveNode_of_lt {s : IdSource} {n : Node} (h : ∀ id ∈ n.allIds, id.val.toNat < s.next.toNat) :
    reserveNode s n = s := by
  refine foldl_eq_self fun m hm => ?_
  have hown : ∀ id ∈ m.ownIds, id.val.toNat < s.next.toNat :=
    fun id hid => h id (List.mem_flatMap.2 ⟨m, hm, hid⟩)
  rw [Node.ownIds, List.forall_mem_cons] at hown
  obtain ⟨hid, hcomment⟩ := hown
  simp only [reserve_of_lt hid]
  cases hc : m.comment with
  | none => rfl
  | some c => exact reserve_of_lt (hcomment c.id (by simp [hc]))

end Identity

/-! ## Documents read one after the other -/

/-- All identities of a tree are distinct, assigned, and below what its source hands out next. -/
structure Tree.Numbered (t : Tree) (ids : IdSource) : Prop where
  started : 0 < ids.next.toNat
  nodup : (Forest.allIds t.roots).Nodup
  pos : ∀ id ∈ Forest.allIds t.roots, 0 < id.val.toNat
  lt : ∀ id ∈ Forest.allIds t.roots, id.val.toNat < ids.next.toNat

theorem Tree.numbered_empty : Tree.empty.Numbered .new where
  started := by decide
  nodup := List.nodup_nil
  pos := by simp [empty, ofRoots, Forest.allIds]
  lt := by simp [empty, ofRoots, Forest.allIds]

section Step

open Identity

variable {t : Tree} {ids : IdSource}

/-- What is read next has an identity no oftener than the fresh ones and the old tree together, and
leaves the source past the fresh ones. -/
theorem reconcile_draws (h : t.Numbered ids) (roots : List Node) :
    (∀ id, (Forest.allIds (reconcile t roots ids).1.roots).count id ≤
      (ids.series (Forest.allIds roots).length).count id + (Forest.allIds t.roots).count id) ∧
    (reconcile t roots ids).2 = ids.after (Forest.allIds roots).length := by
  have hreserve : t.roots.foldl reserveNode ids = ids := by
    refine foldl_eq_self fun n hn => reserveNode_of_lt fun id hid => ?_
    exact h.lt id (List.mem_flatMap.2 ⟨n, hn, hid⟩)
  have hreconcile : reconcile t roots ids =
      (.ofRoots (inheritAll t.roots (roots.mapM numberFresh ids).1).1, (roots.mapM numberFresh ids).2) := by
    conv_rhs => rw [← hreserve]
    rfl
  obtain ⟨hfresh, hnext⟩ := mapM_numberFresh_draws roots ids
  rw [← hfresh, hreconcile, hnext]
  exact ⟨inheritAll_count_le t.roots _, rfl⟩

/-- What is read next is numbered again, and each identity it has is one of the tree before it or one
that was never handed out. -/
theorem reconcile_numbered (h : t.Numbered ids) (roots : List Node)
    (hfew : ids.next.toNat + (Forest.allIds roots).length < 2 ^ 64) :
    (reconcile t roots ids).1.Numbered (reconcile t roots ids).2 ∧
      (reconcile t roots ids).2.next.toNat = ids.next.toNat + (Forest.allIds roots).length ∧
      ∀ id ∈ Forest.allIds (reconcile t roots ids).1.roots,
        id ∈ Forest.allIds t.roots ∨ ids.next.toNat ≤ id.val.toNat := by
  obtain ⟨hcount, hafter⟩ := reconcile_draws h roots
  have hnext : (reconcile t roots ids).2.next.toNat = ids.next.toNat + (Forest.allIds roots).length := by
    rw [hafter, IdSource.after_toNat hfew]
  have hmem : ∀ id ∈ Forest.allIds (reconcile t roots ids).1.roots,
      id ∈ Forest.allIds t.roots ∨ (ids.next.toNat ≤ id.val.toNat ∧
        id.val.toNat < ids.next.toNat + (Forest.allIds roots).length) := by
    intro id hid
    have hpos := List.count_pos_iff.2 hid
    have hle := hcount id
    by_cases hold : id ∈ Forest.allIds t.roots
    · exact .inl hold
    · rw [List.count_eq_zero_of_not_mem hold] at hle
      exact .inr (IdSource.mem_series hfew (List.count_pos_iff.1 (by omega)))
  refine ⟨⟨?_, ?_, ?_, ?_⟩, hnext, ?_⟩
  · rw [hnext]
    exact Nat.add_pos_left h.started _
  · rw [List.nodup_iff_count_le_one]
    intro id
    have hle := hcount id
    have hfresh := List.nodup_iff_count_le_one.1 (IdSource.series_nodup hfew) id
    have hold := List.nodup_iff_count_le_one.1 h.nodup id
    -- No identity is both fresh and old.
    by_cases hid : id ∈ Forest.allIds t.roots
    · have hlt := h.lt id hid
      have hnot : id ∉ ids.series (Forest.allIds roots).length :=
        fun hin => absurd (IdSource.mem_series hfew hin).1 (by omega)
      rw [List.count_eq_zero_of_not_mem hnot] at hle
      omega
    · rw [List.count_eq_zero_of_not_mem hid] at hle
      omega
  · intro id hid
    rcases hmem id hid with hold | ⟨hge, -⟩
    · exact h.pos id hold
    · exact h.started.trans_le hge
  · intro id hid
    rw [hnext]
    rcases hmem id hid with hold | ⟨-, hlt⟩
    · exact (h.lt id hold).trans_le (Nat.le_add_right _ _)
    · exact hlt
  · intro id hid
    exact (hmem id hid).imp_right And.left

end Step

/-- The tree and the source of identities after documents were read one after the other, each taking
over identities from the one before it. -/
def readInTurn (docs : List (List Node)) : Tree × IdSource :=
  docs.foldl (fun last roots => reconcile last.1 roots last.2) (.empty, .new)

/-- How many identities were handed out for documents: one for each node and one for each comment. -/
def handedOut (docs : List (List Node)) : Nat :=
  (docs.map fun roots => (Forest.allIds roots).length).sum

theorem readInTurn_concat (docs : List (List Node)) (roots : List Node) :
    readInTurn (docs ++ [roots]) = reconcile (readInTurn docs).1 roots (readInTurn docs).2 := by
  rw [readInTurn, List.foldl_append]
  rfl

theorem handedOut_concat (docs : List (List Node)) (roots : List Node) :
    handedOut (docs ++ [roots]) = handedOut docs + (Forest.allIds roots).length := by
  simp [handedOut]

theorem handedOut_singleton (roots : List Node) : handedOut [roots] = (Forest.allIds roots).length := by
  simp [handedOut]

theorem handedOut_append (docs more : List (List Node)) :
    handedOut (docs ++ more) = handedOut docs + handedOut more := by
  simp [handedOut]

theorem readInTurn_numbered (docs : List (List Node)) (hfew : handedOut docs < 2 ^ 64 - 1) :
    (readInTurn docs).1.Numbered (readInTurn docs).2 ∧
      (readInTurn docs).2.next.toNat = handedOut docs + 1 := by
  induction docs using List.reverseRecOn with
  | nil => exact ⟨Tree.numbered_empty, rfl⟩
  | append_singleton docs roots ih =>
      rw [handedOut_concat] at hfew ⊢
      obtain ⟨hnumbered, hnext⟩ := ih (by omega)
      obtain ⟨hnumbered', hnext', -⟩ := reconcile_numbered hnumbered roots (by omega)
      rw [readInTurn_concat]
      exact ⟨hnumbered', by omega⟩

theorem mem_identities {t : Tree} {id : NodeId} : id ∈ t.identities ↔ id ∈ Forest.allIds t.roots :=
  t.identities_perm.mem_iff

/-- All identities of the tree are distinct and assigned. -/
def Tree.Identified (t : Tree) : Prop := t.identities.Nodup ∧ ∀ id ∈ t.identities, id.isAssigned

instance (t : Tree) : Decidable t.Identified :=
  inferInstanceAs (Decidable (t.identities.Nodup ∧ ∀ id ∈ t.identities, id.isAssigned))

theorem readInTurn_identified {docs : List (List Node)} (hfew : handedOut docs < 2 ^ 64 - 1) :
    (readInTurn docs).1.Identified := by
  obtain ⟨hnumbered, -⟩ := readInTurn_numbered _ hfew
  refine ⟨(Tree.identities_perm _).nodup_iff.2 hnumbered.nodup, ?_⟩
  intro id hid
  have hpos := hnumbered.pos id (mem_identities.1 hid)
  rw [NodeId.isAssigned, bne_iff_ne]
  rintro rfl
  exact absurd hpos (by decide)

theorem next_le_next (docs more : List (List Node)) (hfew : handedOut (docs ++ more) < 2 ^ 64 - 1) :
    (readInTurn docs).2.next.toNat ≤ (readInTurn (docs ++ more)).2.next.toNat := by
  have hsum : handedOut (docs ++ more) = handedOut docs + handedOut more := by simp [handedOut]
  rw [(readInTurn_numbered _ hfew).2, (readInTurn_numbered docs (by omega)).2]
  omega

/-- An identity that was handed out and is not in a tree is in none that comes after it. -/
theorem readInTurn_lost {docs more : List (List Node)} (hfew : handedOut (docs ++ more) < 2 ^ 64 - 1)
    {id : NodeId} (hgiven : id.val.toNat < (readInTurn docs).2.next.toNat)
    (hlost : id ∉ (readInTurn docs).1.identities) : id ∉ (readInTurn (docs ++ more)).1.identities := by
  induction more using List.reverseRecOn with
  | nil => rwa [List.append_nil]
  | append_singleton more roots ih =>
      rw [← List.append_assoc, handedOut_concat] at hfew
      obtain ⟨hnumbered, hnext⟩ := readInTurn_numbered (docs ++ more) (by omega)
      have hmono := next_le_next docs more (by omega)
      rw [← List.append_assoc, readInTurn_concat]
      intro hid
      rcases (reconcile_numbered hnumbered roots (by omega)).2.2 id (mem_identities.1 hid) with hold | hnew
      · exact ih (by omega) (mem_identities.2 hold)
      · omega

/-- An identity of an earlier tree that a tree has lost is in none that comes after it. -/
theorem readInTurn_not_recycled {early mid late : List (List Node)}
    (hfew : handedOut (early ++ mid ++ late) < 2 ^ 64 - 1) {id : NodeId}
    (hhad : id ∈ (readInTurn early).1.identities) (hlost : id ∉ (readInTurn (early ++ mid)).1.identities) :
    id ∉ (readInTurn (early ++ mid ++ late)).1.identities := by
  have hsum : handedOut (early ++ mid ++ late) = handedOut early + handedOut mid + handedOut late := by
    simp [handedOut, Nat.add_assoc]
  have hmid : handedOut (early ++ mid) = handedOut early + handedOut mid := by simp [handedOut]
  have hlt := (readInTurn_numbered early (by omega)).1.lt id (mem_identities.1 hhad)
  have hmono := next_le_next early mid (by omega)
  exact readInTurn_lost hfew (by omega) hlost

/-! ## Sessions -/

namespace Session

variable {β : Type} [TextBuffer β]

/-- What can happen to a session: an operation, or a change of its buffer from outside. -/
inductive Event (β : Type) where
  | act (action : Action)
  | outside (buffer : β)

/-- The session after an event. -/
def meet (s : Session β) : Event β → Session β
  | .act action => s.act action
  | .outside buffer => { s with buffer := buffer }

/-- The session after some events. -/
def meetAll (s : Session β) (events : List (Event β)) : Session β := events.foldl meet s

/-- The documents read on the way from a session to the next one: none if it keeps the tree and the
source of identities, or one that gives it its tree. -/
def Reads (s s' : Session β) (docs : List (List Node)) : Prop :=
  (docs = [] ∧ s'.tree = s.tree ∧ s'.ids = s.ids) ∨
    ∃ text roots, readDocument text = .ok roots ∧ docs = [roots] ∧
      (s'.tree, s'.ids) = reconcile s.tree roots s.ids

/-- The same, whether the document was read from a text or comes from elsewhere. -/
def TakesIn (s s' : Session β) (docs : List (List Node)) : Prop :=
  (docs = [] ∧ s'.tree = s.tree ∧ s'.ids = s.ids) ∨
    ∃ roots, docs = [roots] ∧ (s'.tree, s'.ids) = reconcile s.tree roots s.ids

omit [TextBuffer β] in
theorem Reads.takesIn {s s' : Session β} {docs : List (List Node)} (h : s.Reads s' docs) :
    s.TakesIn s' docs := by
  rcases h with hkeep | ⟨text, roots, -, hdocs, hrec⟩
  · exact .inl hkeep
  · exact .inr ⟨roots, hdocs, hrec⟩

omit [TextBuffer β] in
/-- The next tree is numbered again, and the source has moved past what was handed out. -/
theorem TakesIn.numbered {s s' : Session β} {docs : List (List Node)} (h : s.TakesIn s' docs)
    (hnum : s.tree.Numbered s.ids) (hfew : s.ids.next.toNat + handedOut docs < 2 ^ 64) :
    s'.tree.Numbered s'.ids ∧ s'.ids.next.toNat = s.ids.next.toNat + handedOut docs := by
  rcases h with ⟨rfl, htree, hids⟩ | ⟨roots, rfl, hrec⟩
  · rw [htree, hids]
    exact ⟨hnum, rfl⟩
  · have htree : s'.tree = (reconcile s.tree roots s.ids).1 := congrArg Prod.fst hrec
    have hids : s'.ids = (reconcile s.tree roots s.ids).2 := congrArg Prod.snd hrec
    rw [handedOut_singleton] at hfew ⊢
    rw [htree, hids]
    obtain ⟨hnumbered, hnext, -⟩ := reconcile_numbered hnum roots hfew
    exact ⟨hnumbered, hnext⟩

/-- The documents read in the course of some events. -/
def ReadsAll (s : Session β) : List (Event β) → List (List Node) → Prop
  | [], docs => docs = []
  | e :: events, docs => ∃ first more, docs = first ++ more ∧ s.Reads (s.meet e) first ∧
      (s.meet e).ReadsAll events more

omit [TextBuffer β] in
theorem reads_of_keep {s s' : Session β} (htree : s'.tree = s.tree) (hids : s'.ids = s.ids) :
    ∃ docs, s.Reads s' docs := ⟨[], .inl ⟨rfl, htree, hids⟩⟩

omit [TextBuffer β] in
theorem reads_of_reconcile {s s' : Session β} {text : String} {roots : List Node}
    (hread : readDocument text = .ok roots) (h : (s'.tree, s'.ids) = reconcile s.tree roots s.ids) :
    ∃ docs, s.Reads s' docs := ⟨[roots], .inr ⟨text, roots, hread, rfl, h⟩⟩

theorem prepare_reads {s : Session β} {changes sorted : List TextChange} {ahead : Option Draft}
    {draft : Draft} (hahead : ∀ d, ahead = some d → readDocument d.text = .ok d.roots)
    (h : s.prepare changes ahead = .ok (sorted, draft)) : readDocument draft.text = .ok draft.roots := by
  unfold prepare at h
  obtain ⟨⟨⟩, -, h⟩ := bind_eq_ok.1 h
  cases ahead with
  | some d =>
      cases h
      exact hahead _ rfl
  | none =>
      obtain ⟨d, hd, h⟩ := bind_eq_ok.1 h
      cases h
      exact (Draft.ofChanges_eq_ok_iff.1 hd).2

theorem commit_reads (s : Session β) (changes : List TextChange) (hint : Option (Tree → FocusHint))
    {ahead : Option Draft} (hahead : ∀ d, ahead = some d → readDocument d.text = .ok d.roots) :
    ∃ docs, s.Reads (s.commit changes hint ahead).2 docs := by
  rcases s.commit_cases changes hint ahead with ⟨e, -, h⟩ | ⟨sorted, draft, e, b, -, -, h⟩ |
    ⟨sorted, draft, b, hprep, -, h⟩
  all_goals rw [h]
  · exact reads_of_keep rfl rfl
  · exact reads_of_keep rfl rfl
  · exact reads_of_reconcile (prepare_reads hahead hprep) rfl

theorem perform_reads (s : Session β) (edits : List Edit) :
    ∃ docs, s.Reads (s.perform edits).2 docs := by
  rcases s.perform_cases edits with ⟨-, h⟩ | ⟨e, -, h⟩ | ⟨changes, draft, hint, hplan, h⟩
  all_goals rw [h]
  · exact reads_of_keep rfl rfl
  · exact reads_of_keep rfl rfl
  · refine s.commit_reads changes hint ?_
    rintro d ⟨⟩
    obtain ⟨planned, -, hplan⟩ := bind_eq_ok.1 hplan
    obtain ⟨read, hread, hplan⟩ := bind_eq_ok.1 hplan
    cases hplan
    exact (Draft.ofChanges_eq_ok_iff.1 hread).2

theorem restore_reads (s : Session β) (text : String) (mark : FocusMark) :
    ∃ docs, s.Reads (s.restore text mark).2 docs := by
  rcases s.restore_cases text mark with ⟨e, h⟩ | ⟨e, b, -, h⟩ | ⟨roots, b, hread, -, h⟩
  all_goals rw [h]
  · exact reads_of_keep rfl rfl
  · exact reads_of_keep rfl rfl
  · exact reads_of_reconcile hread rfl

theorem act_reads (s : Session β) (a : Action) : ∃ docs, s.Reads (s.act a) docs := by
  by_cases ha : a = .undo ∨ a = .redo
  · rcases s.act_restores ha with h | ⟨text, mark, history, h⟩
    all_goals rw [h]
    · exact reads_of_keep rfl rfl
    · exact s.restore_reads text mark
  cases a with
  | perform edits => exact s.perform_reads edits
  | drop source target =>
      rcases s.drop_cases source target with ⟨e, h⟩ | ⟨text, edits, -, -, h⟩
      all_goals simp only [act, h]
      · exact reads_of_keep rfl rfl
      · exact s.perform_reads edits
  | commit changes hint => exact s.commit_reads changes hint (by simp)
  | undo | redo => simp at ha
  | refresh =>
      rcases s.refresh_cases with ⟨e, h⟩ | ⟨roots, hread, h⟩
      all_goals simp only [act, h]
      · exact reads_of_keep rfl rfl
      · exact reads_of_reconcile hread rfl
  | setFocus id =>
      simp only [act, setFocus]
      split <;> exact reads_of_keep rfl rfl
  | collapse id =>
      simp only [act, collapse]
      split <;> exact reads_of_keep rfl rfl
  | expand id => exact reads_of_keep rfl rfl

/-- Whatever happens to a session, it reads some documents, at most one at each event. -/
theorem readsAll_exists (s : Session β) (events : List (Event β)) : ∃ docs, s.ReadsAll events docs := by
  induction events generalizing s with
  | nil => exact ⟨[], rfl⟩
  | cons e events ih =>
      have hfirst : ∃ docs, s.Reads (s.meet e) docs := by
        cases e with
        | act action => exact s.act_reads action
        | outside buffer => exact reads_of_keep rfl rfl
      obtain ⟨first, hfirst⟩ := hfirst
      obtain ⟨more, hmore⟩ := ih (s.meet e)
      exact ⟨first ++ more, first, more, rfl, hfirst, hmore⟩

/-- The tree of a session is the last of the documents it has read. -/
theorem ReadsAll.tree_eq {s : Session β} {docs more : List (List Node)}
    (hs : (s.tree, s.ids) = readInTurn docs) {events : List (Event β)} (h : s.ReadsAll events more) :
    ((s.meetAll events).tree, (s.meetAll events).ids) = readInTurn (docs ++ more) := by
  induction events generalizing s docs more with
  | nil =>
      cases h
      rwa [List.append_nil]
  | cons e events ih =>
      obtain ⟨first, rest, rfl, hfirst, hrest⟩ := h
      rw [← List.append_assoc]
      refine ih ?_ hrest
      rcases hfirst with ⟨rfl, htree, hids⟩ | ⟨text, roots, -, rfl, hrec⟩
      · rw [htree, hids, hs, List.append_nil]
      · rw [hrec, readInTurn_concat, ← hs]

theorem start_reads {buffer : β} {settings : Settings} {s : Session β}
    (h : start buffer settings = .ok s) :
    ∃ roots, readDocument (TextBuffer.text buffer) = .ok roots ∧ (s.tree, s.ids) = readInTurn [roots] := by
  obtain ⟨roots, hread, rfl⟩ := started_of_start h
  exact ⟨roots, hread, rfl⟩

/-- The tree of a fresh session is numbered. -/
theorem start_numbered {buffer : β} {settings : Settings} {s : Session β} {roots : List Node}
    (h : start buffer settings = .ok s) (hread : readDocument (TextBuffer.text buffer) = .ok roots)
    (hfew : handedOut [roots] < 2 ^ 64 - 1) :
    s.tree.Numbered s.ids ∧ s.ids.next.toNat = handedOut [roots] + 1 := by
  obtain ⟨roots', hread', htree⟩ := start_reads h
  obtain rfl := Except.ok.inj (hread.symm.trans hread')
  obtain ⟨hnum, hnext⟩ := readInTurn_numbered [roots] hfew
  obtain ⟨htree, hids⟩ := Prod.ext_iff.1 htree.symm
  rw [htree, hids] at hnum
  rw [hids] at hnext
  exact ⟨hnum, hnext⟩

end Session

open Session in
/-- However documents are read one after the other, as long as the source of identities does not wrap
around, all identities of a tree are distinct and assigned, and one that a tree has lost is in none that
comes after it. So it is with the trees of a session, whatever happens to it. -/
theorem identities_distinct_and_never_recycled :
    (∀ docs, handedOut docs < 2 ^ 64 - 1 → (readInTurn docs).1.Identified) ∧
    (∀ early mid late, handedOut (early ++ mid ++ late) < 2 ^ 64 - 1 →
      ∀ id ∈ (readInTurn early).1.identities, id ∉ (readInTurn (early ++ mid)).1.identities →
        id ∉ (readInTurn (early ++ mid ++ late)).1.identities) ∧
    ∀ (β : Type) [TextBuffer β] (buffer : β) (settings : Settings) (s : Session β),
      start buffer settings = .ok s →
      ∃ roots, readDocument (TextBuffer.text buffer) = .ok roots ∧
        ∀ early mid late : List (Event β), ∀ s₁ s₂ s₃ : Session β,
          s.meetAll early = s₁ → s₁.meetAll mid = s₂ → s₂.meetAll late = s₃ →
          (∃ d₁ d₂ d₃, s.ReadsAll early d₁ ∧ s₁.ReadsAll mid d₂ ∧ s₂.ReadsAll late d₃) ∧
          ∀ d₁ d₂ d₃, s.ReadsAll early d₁ → s₁.ReadsAll mid d₂ → s₂.ReadsAll late d₃ →
            handedOut ([roots] ++ d₁ ++ d₂ ++ d₃) < 2 ^ 64 - 1 →
            s₃.tree.Identified ∧
              ∀ id ∈ s₁.tree.identities, id ∉ s₂.tree.identities → id ∉ s₃.tree.identities := by
  refine ⟨fun docs hfew => readInTurn_identified hfew,
    fun early mid late hfew id hhad hlost => readInTurn_not_recycled hfew hhad hlost, ?_⟩
  intro β _ buffer settings s hstart
  obtain ⟨roots, hread, hs⟩ := start_reads hstart
  refine ⟨roots, hread, ?_⟩
  rintro early mid late _ _ _ rfl rfl rfl
  refine ⟨?_, ?_⟩
  · obtain ⟨d₁, h₁⟩ := s.readsAll_exists early
    obtain ⟨d₂, h₂⟩ := (s.meetAll early).readsAll_exists mid
    obtain ⟨d₃, h₃⟩ := ((s.meetAll early).meetAll mid).readsAll_exists late
    exact ⟨d₁, d₂, d₃, h₁, h₂, h₃⟩
  · intro d₁ d₂ d₃ h₁ h₂ h₃ hfew
    have hearly := h₁.tree_eq hs
    have hmid := h₂.tree_eq hearly
    have hlate := h₃.tree_eq hmid
    simp only [Prod.ext_iff] at hearly hmid hlate
    rw [hearly.1, hmid.1, hlate.1]
    exact ⟨readInTurn_identified hfew, fun id hhad hlost => readInTurn_not_recycled hfew hhad hlost⟩

/-- A node that goes away with its comment and comes back has other identities. -/
theorem identities_of_a_node_that_comes_back :
    let node := (Node.make (.literal "a" .symbol) default).withComment (some (.make "; c" default))
    handedOut ([[node]] ++ [[]] ++ [[node]]) < 2 ^ 64 - 1 ∧
      (⟨2⟩ : NodeId) ∈ (readInTurn [[node]]).1.identities ∧
      (⟨2⟩ : NodeId) ∉ (readInTurn ([[node]] ++ [[]])).1.identities ∧
      (readInTurn ([[node]] ++ [[]] ++ [[node]])).1.Identified ∧
      (⟨2⟩ : NodeId) ∉ (readInTurn ([[node]] ++ [[]] ++ [[node]])).1.identities := by
  intro node
  have hfew : handedOut ([[node]] ++ [[]] ++ [[node]]) < 2 ^ 64 - 1 := by
    have hfour : handedOut ([[node]] ++ [[]] ++ [[node]]) = 4 := rfl
    omega
  have hhad : (⟨2⟩ : NodeId) ∈ (readInTurn [[node]]).1.identities := by
    have hids : (readInTurn [[node]]).1.identities = [⟨1⟩, ⟨2⟩] := rfl
    simp [hids]
  have hlost : (⟨2⟩ : NodeId) ∉ (readInTurn ([[node]] ++ [[]])).1.identities := by
    have hids : (readInTurn ([[node]] ++ [[]])).1.identities = [] := rfl
    rw [hids]
    exact List.not_mem_nil
  exact ⟨hfew, hhad, hlost, identities_distinct_and_never_recycled.1 _ hfew,
    identities_distinct_and_never_recycled.2.1 _ _ _ hfew _ hhad hlost⟩

end TreeEdit
