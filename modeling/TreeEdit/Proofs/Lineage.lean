import Mathlib
import TreeEdit.Proofs.Identities
import TreeEdit.Proofs.Matching

/-!
# Where an identity comes from

A node of a tree that was read again either has the fresh identity it was given first or continues an old
node, and then the nodes above the two continue one another, level by level (`inheritAll_lineage`). So an
identity keeps its ancestors for as long as it lives.

Which places of two forests can continue one another is a matter of fingerprints alone: `Kin`. The
relation is the same from either side, and a place has at most one kin on the other side.
-/

namespace TreeEdit

/-! ## The way down a path -/

/-- The identities of the nodes on the way down a path. -/
def Forest.trail : List Node → Path → List NodeId
  | _, [] => []
  | ns, i :: path =>
    match ns[i]? with
    | none => []
    | some n => n.id :: trail n.children path

/-- The identities of a node and of the nodes on the way down a path below it. -/
def Node.trail (n : Node) (path : Path) : List NodeId := n.id :: Forest.trail n.children path

namespace Forest

@[simp] theorem at?_nil (ns : List Node) : at? ns [] = none := rfl

@[simp] theorem at?_cons (ns : List Node) (i : Nat) (path : Path) :
    at? ns (i :: path) = ns[i]?.bind fun n => n.at? path := rfl

theorem trail_cons {ns : List Node} {i : Nat} {n : Node} (h : ns[i]? = some n) (path : Path) :
    trail ns (i :: path) = n.trail path := by
  rw [trail, h]
  rfl

end Forest

/-- A map of nodes that maps their children the same way keeps all paths. -/
theorem Node.at?_map {f : Node → Node} (hkids : ∀ n : Node, (f n).children = n.children.map f) (n : Node)
    (path : Path) : (f n).at? path = (n.at? path).map f := by
  induction path generalizing n with
  | nil => rfl
  | cons i path ih =>
      rw [Node.at?_cons, Node.at?_cons, hkids, List.getElem?_map]
      cases n.children[i]? with
      | none => rfl
      | some c => exact ih c

/-- Below a node, a path leads on among its children. -/
theorem Node.at?_eq_children (n : Node) {path : Path} (h : path ≠ []) :
    n.at? path = Forest.at? n.children path := by
  cases path with
  | nil => exact absurd rfl h
  | cons i path => rfl

theorem Node.trail_cons {n c : Node} {i : Nat} (h : n.children[i]? = some c) (path : Path) :
    n.trail (i :: path) = n.id :: c.trail path := by
  rw [trail, Forest.trail_cons h]

/-- The ancestors at a path are the nodes on the way down, the last one excepted. -/
theorem Node.filterMap_at?_take (n : Node) {path : Path} {m : Node} (h : n.at? path = some m) :
    (List.range path.length).filterMap (fun depth => (n.at? (path.take depth)).map Node.id) =
      (n.trail path).dropLast := by
  induction path generalizing n with
  | nil => rfl
  | cons i path ih =>
      obtain ⟨c, hc, hm⟩ := Option.bind_eq_some_iff.1 h
      have htail := ih c hm
      rw [trail_cons hc, List.length_cons, List.range_succ_eq_map, List.filterMap_cons]
      simp only [List.take_zero, at?_nil, Option.map_some, List.filterMap_map, Function.comp_def,
        List.take_succ_cons, at?_cons, hc, Option.bind_some]
      rw [htail, List.dropLast_cons_of_ne_nil (by simp [trail])]

theorem Tree.map_id_ancestors {t : Tree} {id : NodeId} {path : Path} (h : t.pathOf? id = some path) :
    (t.ancestors id).map Node.id = (Forest.trail t.roots path).dropLast := by
  obtain ⟨n, hn, -⟩ := at?_of_pathOf? h
  cases path with
  | nil => cases hn
  | cons i path =>
      obtain ⟨r, hr, hn⟩ := Option.bind_eq_some_iff.1 hn
      have hbelow := r.filterMap_at?_take hn
      simp only [ancestors, h]
      rw [Forest.trail_cons hr, ← hbelow, List.map_filterMap, List.length_cons, List.range_succ_eq_map,
        List.filterMap_cons, List.filterMap_map]
      simp [at?, hr, Function.comp_def]

/-! ## Places that continue one another -/

namespace Identity

/-- Two places at which the second forest may continue the first: below twins the same places, and below
siblings that are left over in the same order the places that are kin among their children. -/
inductive Kin : List Node → List Node → Path → Path → Prop
  | twin {old new : List Node} {i j : Nat}
      (twin : Twin (old.map Node.hash) (new.map Node.hash) i j) (path : Path) :
      Kin old new (i :: path) (j :: path)
  | residual {old new : List Node} {i j : Nat}
      (residual : Residual (old.map Node.hash) (new.map Node.hash) i j) : Kin old new [i] [j]
  | inside {old new : List Node} {i j : Nat} {o n : Node} {p q : Path}
      (residual : Residual (old.map Node.hash) (new.map Node.hash) i j) (ho : old[i]? = some o)
      (hn : new[j]? = some n) (kin : Kin o.children n.children p q) : Kin old new (i :: p) (j :: q)

namespace Kin

theorem symm {old new : List Node} {p q : Path} (h : Kin old new p q) : Kin new old q p := by
  induction h with
  | twin htwin path => exact .twin htwin.symm path
  | residual hres => exact .residual hres.symm
  | inside hres ho hn _ ih => exact .inside hres.symm hn ho ih

theorem ne_nil {old new : List Node} {p q : Path} (h : Kin old new p q) : p ≠ [] := by
  cases h <;> exact List.cons_ne_nil _ _

theorem length_eq {old new : List Node} {p q : Path} (h : Kin old new p q) : p.length = q.length := by
  induction h with
  | twin => rfl
  | residual => rfl
  | inside _ _ _ _ ih => rw [List.length_cons, List.length_cons, ih]

/-- A place continues at most one place. -/
theorem unique {old new : List Node} {p p' q : Path} (h : Kin old new p q) (h' : Kin old new p' q) :
    p = p' := by
  induction h generalizing p' with
  | twin htwin path =>
      cases h' with
      | twin htwin' => rw [htwin.unique htwin']
      | residual hres => exact absurd hres htwin.not_residual
      | inside hres => exact absurd hres htwin.not_residual
  | residual hres =>
      cases h' with
      | twin htwin => exact absurd hres htwin.not_residual
      | residual hres' => rw [hres.unique hres']
      | inside _ _ _ hkin => exact absurd rfl hkin.symm.ne_nil
  | inside hres ho hn hkin ih =>
      cases h' with
      | twin htwin => exact absurd hres htwin.not_residual
      | residual => exact absurd rfl hkin.symm.ne_nil
      | inside hres' ho' hn' hkin' =>
          obtain rfl := hres.unique hres'
          obtain rfl := Option.some.inj (ho.symm.trans ho')
          obtain rfl := Option.some.inj (hn.symm.trans hn')
          rw [ih hkin']

/-- Identities have no part in it. -/
theorem of_anonymous {old old' new new' : List Node} {p q : Path} (h : Kin old new p q)
    (hold : old.map Node.anonymous = old'.map Node.anonymous)
    (hnew : new.map Node.anonymous = new'.map Node.anonymous) : Kin old' new' p q := by
  have hchild : ∀ {ns ns' : List Node} {i : Nat} {n : Node}, ns.map Node.anonymous = ns'.map Node.anonymous →
      ns[i]? = some n → ∃ n', ns'[i]? = some n' ∧
        n.children.map Node.anonymous = n'.children.map Node.anonymous := by
    intro ns ns' i n hns hn
    have hget := congrArg (·[i]?) hns
    simp only [List.getElem?_map, hn, Option.map_some] at hget
    obtain ⟨n', hn', hsame⟩ := Option.map_eq_some_iff.1 hget.symm
    have hkids := congrArg Node.children hsame
    simp only [Node.anonymous_eq, Node.children, Kind.children_map] at hkids
    exact ⟨n', hn', hkids.symm⟩
  induction h generalizing old' new' with
  | twin htwin path =>
      rw [map_eq_of_anonymous Node.hash_anonymous hold, map_eq_of_anonymous Node.hash_anonymous hnew] at htwin
      exact .twin htwin path
  | residual hres =>
      rw [map_eq_of_anonymous Node.hash_anonymous hold, map_eq_of_anonymous Node.hash_anonymous hnew] at hres
      exact .residual hres
  | inside hres ho hn _ ih =>
      rw [map_eq_of_anonymous Node.hash_anonymous hold, map_eq_of_anonymous Node.hash_anonymous hnew] at hres
      obtain ⟨o', ho', hokids⟩ := hchild hold ho
      obtain ⟨n', hn', hnkids⟩ := hchild hnew hn
      exact .inside hres ho' hn' (ih hokids hnkids)

/-- A place of a forest continues itself. -/
theorem self_of_same {ns : List Node} {i : Nat} {n : Node} (h : ns[i]? = some n) (path : Path) :
    Kin ns ns (i :: path) (i :: path) :=
  .twin ⟨n.hash, by simp [h], by simp [h], rfl⟩ path

end Kin

/-! ## Identities by place -/

/-- In a node taken over place by place, what stands at a path stood there before, or has the identity of
the old node there, with those above it. -/
theorem takeIds_lineage {n o r : Node} {path : Path} (h : (takeIds n (some o)).at? path = some r) :
    n.at? path = some r ∨ ∃ old, o.at? path = some old ∧ r.id = old.id ∧
      (takeIds n (some o)).trail path = o.trail path := by
  induction path generalizing n o with
  | nil =>
      cases h
      right
      rw [takeIds_some]
      exact ⟨o, rfl, rfl, rfl⟩
  | cons i path ih =>
      obtain ⟨s, hs, hr⟩ := Option.bind_eq_some_iff.1 h
      have hkid := hs
      rw [children_takeIds, List.getElem?_mapIdx] at hkid
      obtain ⟨c, hc, rfl⟩ := Option.map_eq_some_iff.1 hkid
      cases hd : o.children[i]? with
      | none =>
          rw [hd, takeIds_none] at hr
          left
          rw [Node.at?_cons, hc]
          exact hr
      | some d =>
          rw [hd] at hr hs
          rcases ih hr with hsame | ⟨old, hold, hid, htrail⟩
          · left
            rw [Node.at?_cons, hc]
            exact hsame
          · right
            refine ⟨old, by rw [Node.at?_cons, hd]; exact hold, hid, ?_⟩
            rw [Node.trail_cons hs, Node.trail_cons hd, htrail, takeIds_some]

/-- A node among siblings that were compared with old ones has the identity it had before, or that of an
old node which is kin to it, and then the identities above the two are the same too. -/
theorem inheritAll_lineage {old new : List Node} {q : Path} {r : Node}
    (h : Forest.at? (inheritAll old new).1 q = some r) :
    (∃ n, Forest.at? new q = some n ∧ r.id = n.id) ∨
      ∃ p o, Forest.at? old p = some o ∧ r.id = o.id ∧ Kin old new p q ∧
        Forest.trail old p = Forest.trail (inheritAll old new).1 q := by
  induction q generalizing old new with
  | nil => cases h
  | cons j q ih =>
      obtain ⟨s, hs, hr⟩ := Option.bind_eq_some_iff.1 h
      obtain ⟨n, partner, hn, hpartner, rfl⟩ := inheritAll_getElem? hs
      rw [Forest.trail_cons hs]
      cases partner with
      | fresh =>
          rw [inherit_fresh] at hr
          left
          exact ⟨r, by rw [Forest.at?_cons, hn]; exact hr, rfl⟩
      | whole o =>
          obtain ⟨i, ho, htwin⟩ := partners_whole_iff.1 hpartner
          rw [inherit_whole] at hr ⊢
          rcases takeIds_lineage hr with hsame | ⟨d, hd, hid, htrail⟩
          · left
            exact ⟨r, by rw [Forest.at?_cons, hn]; exact hsame, rfl⟩
          · right
            refine ⟨i :: q, d, by rw [Forest.at?_cons, ho]; exact hd, hid, .twin htwin q, ?_⟩
            rw [Forest.trail_cons ho, htrail]
      | paired o =>
          obtain ⟨-, i, ho, hres⟩ := partners_paired_iff.1 hpartner
          have hid : (inherit n (.paired o)).1.id = o.id := by rw [inherit_paired]
          cases q with
          | nil =>
              cases hr
              right
              exact ⟨[i], o, by simp [ho], hid, .residual hres, by simp [Forest.trail, Node.trail, ho, hid]⟩
          | cons k q =>
              rw [Node.at?_eq_children _ (List.cons_ne_nil k q), children_inherit_paired] at hr
              rcases ih hr with ⟨m, hm, hmid⟩ | ⟨p, d, hd, hdid, hkin, htrail⟩
              · left
                refine ⟨m, ?_, hmid⟩
                rw [Forest.at?_cons, hn, Option.bind_some, Node.at?_eq_children _ (List.cons_ne_nil k q)]
                exact hm
              · right
                refine ⟨i :: p, d, ?_, hdid, .inside hres ho hn hkin, ?_⟩
                · rw [Forest.at?_cons, ho, Option.bind_some, Node.at?_eq_children _ hkin.ne_nil]
                  exact hd
                · rw [Forest.trail_cons ho, Node.trail, Node.trail, hid, children_inherit_paired, htrail]

/-! ## Fresh identities are new -/

theorem reserve_toNat {s : IdSource} {id : NodeId} (h : id.val.toNat + 1 < 2 ^ 64) :
    (s.reserve id).next.toNat = max s.next.toNat (id.val.toNat + 1) := by
  have hsucc : (id.val + 1).toNat = id.val.toNat + 1 := by
    rw [UInt64.toNat_add]
    exact Nat.mod_eq_of_lt (by simpa using h)
  have hmax : (s.reserve id).next = if s.next ≤ id.val + 1 then id.val + 1 else s.next := rfl
  rw [hmax]
  split
  · rename_i hle
    rw [UInt64.le_iff_toNat_le] at hle
    omega
  · rename_i hlt
    rw [UInt64.le_iff_toNat_le] at hlt
    omega

/-- A source moved past some identities is past them all, and no further than it has to be. -/
theorem foldl_reserve {l : List NodeId} {s : IdSource} (bound : Nat) (hbound : bound < 2 ^ 64)
    (hs : s.next.toNat ≤ bound) (hl : ∀ id ∈ l, id.val.toNat + 1 ≤ bound) :
    s.next.toNat ≤ (l.foldl IdSource.reserve s).next.toNat ∧
      (l.foldl IdSource.reserve s).next.toNat ≤ bound ∧
      ∀ id ∈ l, id.val.toNat < (l.foldl IdSource.reserve s).next.toNat := by
  induction l generalizing s with
  | nil => simp [hs]
  | cons id l ih =>
      obtain ⟨hid, hl⟩ := List.forall_mem_cons.1 hl
      have hnext := reserve_toNat (s := s) (show id.val.toNat + 1 < 2 ^ 64 by omega)
      obtain ⟨hle, hend, hall⟩ := ih (s := s.reserve id) (by omega) hl
      rw [List.foldl_cons, List.forall_mem_cons]
      exact ⟨by omega, hend, by omega, hall⟩

theorem reserveNode_eq (s : IdSource) (n : Node) : reserveNode s n = n.allIds.foldl IdSource.reserve s := by
  rw [Node.allIds, List.foldl_flatMap, reserveNode]
  congr 1
  funext s m
  cases hc : m.comment with
  | none => simp [Node.ownIds, hc]
  | some c => simp [Node.ownIds, hc]

theorem foldl_reserveNode (s : IdSource) (ns : List Node) :
    ns.foldl reserveNode s = (Forest.allIds ns).foldl IdSource.reserve s := by
  rw [Forest.allIds, List.foldl_flatMap]
  congr 1
  funext s n
  exact reserveNode_eq s n

end Identity

/-- The source does not wrap around while it numbers some roots, not even after it was moved past all
identities of a tree. -/
def IdSource.Suffices (ids : IdSource) (t : Tree) (roots : List Node) : Prop :=
  ids.next.toNat + (Forest.allIds roots).length < 2 ^ 64 ∧
    ∀ id ∈ t.identities, id.val.toNat + 1 + (Forest.allIds roots).length < 2 ^ 64

open Identity in
/-- The roots that are read get identities that the tree does not have. -/
theorem freshRoots_new {t : Tree} {roots : List Node} {ids : IdSource} (h : ids.Suffices t roots) :
    ∀ id ∈ Forest.allIds (freshRoots t roots ids), id ∉ Forest.allIds t.roots := by
  obtain ⟨hids, ht⟩ := h
  obtain ⟨-, hend, hpast⟩ := foldl_reserve (l := Forest.allIds t.roots) (s := ids)
    (2 ^ 64 - 1 - (Forest.allIds roots).length) (by omega) (by omega)
    (fun id hid => by have hid := ht id (mem_identities.2 hid); omega)
  rw [← foldl_reserveNode] at hend hpast
  intro id hid hold
  rw [freshRoots, (mapM_numberFresh_draws roots _).1] at hid
  have hge := (IdSource.mem_series (by omega) hid).1
  have hlt := hpast id hold
  omega

theorem Forest.id_mem_allIds {ns : List Node} {path : Path} {n : Node} (h : at? ns path = some n) :
    n.id ∈ allIds ns := by
  obtain ⟨root, hroot, hn⟩ := List.mem_flatMap.1 (Forest.mem_nodes_iff.2 ⟨path, h⟩)
  exact List.mem_flatMap.2 ⟨root, hroot, List.mem_flatMap.2 ⟨n, hn, List.mem_cons_self⟩⟩

theorem Tree.mem_identities_of_mem_ids {t : Tree} {id : NodeId} (h : id ∈ t.ids) : id ∈ t.identities :=
  List.mem_append_left _ h

open Identity in
/-- A node that was read again and has an identity that was not handed out for it continues the node with
this identity, and the nodes above the one continue those above the other. -/
theorem reconcile_lineage {t : Tree} {roots : List Node} {ids : IdSource} {q : Path} {r : Node}
    (hr : (reconcile t roots ids).1.at? q = some r) (hid : r.id ∉ Forest.allIds (freshRoots t roots ids)) :
    ∃ p o, t.at? p = some o ∧ r.id = o.id ∧ Kin t.roots roots p q ∧
      Forest.trail t.roots p = Forest.trail (reconcile t roots ids).1.roots q := by
  rcases inheritAll_lineage hr with ⟨n, hn, hsame⟩ | ⟨p, o, ho, hsame, hkin, htrail⟩
  · rw [hsame] at hid
    exact absurd (Forest.id_mem_allIds hn) hid
  · exact ⟨p, o, ho, hsame, hkin.of_anonymous rfl (freshRoots_anonymous t roots ids), htrail⟩

end TreeEdit
