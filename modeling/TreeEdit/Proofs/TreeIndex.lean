import Mathlib
import TreeEdit.Proofs.Lookup

/-!
# The index of a tree is exact

The index of a tree is filled once, on a walk over the whole forest, and every question about an identity is
answered by following the path that it holds. If no two nodes have the same identity, the index holds the path
of each node and nothing else, so the answers are the right ones: the node itself, the nodes around it from the
outside to the inside, and its parent, among whose children it stands at the last index of its path.

Main statement: `Tree.index_is_exact`.
-/

namespace TreeEdit

/-- The paths of what is around a place, outermost first: the beginnings of its path but for the empty one and
the path itself. -/
def outerPaths (path : Path) : List Path := path.inits.filter fun q => q ≠ [] ∧ q ≠ path

theorem inits_eq_map_take (path : Path) : path.inits = (List.range path.length).map path.take ++ [path] := by
  have hall : path.inits = (List.range (path.length + 1)).map path.take := by
    apply List.ext_getElem
    · simp
    · intro d _ _
      simp
  rw [hall, List.range_succ, List.map_append]
  simp

namespace Tree

variable {t : Tree} {path : Path} {n : Node}

/-- Where a path leads to a node, every beginning of it does, but for the empty one. -/
theorem exists_at?_of_prefix (hn : t.at? path = some n) {q : Path} (hq : q <+: path) (hne : q ≠ []) :
    ∃ m, t.at? q = some m := by
  obtain ⟨rest, rfl⟩ := hq
  rw [at?, Forest.at?_append _ hne] at hn
  obtain ⟨m, hm, -⟩ := Option.bind_eq_some_iff.1 hn
  exact ⟨m, hm⟩

theorem map_some_ancestors {id : NodeId} (hpath : t.pathOf? id = some path) (hn : t.at? path = some n) :
    (t.ancestors id).map some = (outerPaths path).map t.at? := by
  -- Of the beginnings shorter than the path, the empty one alone leads nowhere.
  have hsome : ∀ q ∈ (List.range path.length).map path.take, (t.at? q).isSome = decide (q ≠ [] ∧ q ≠ path) := by
    intro q hq
    obtain ⟨d, hd, rfl⟩ := List.mem_map.1 hq
    have hshort : path.take d ≠ path := by
      intro heq
      have hlen := congrArg List.length heq
      rw [List.length_take, Nat.min_eq_left (List.mem_range.1 hd).le] at hlen
      exact absurd hlen (List.mem_range.1 hd).ne
    by_cases hne : path.take d = []
    · rw [hne]
      simp [at?, Forest.at?]
    · obtain ⟨m, hm⟩ := exists_at?_of_prefix hn (List.take_prefix d path) hne
      simp [hm, hne, hshort]
  calc (t.ancestors id).map some
      = (((List.range path.length).map path.take).map t.at?).filter Option.isSome := by
        simp only [ancestors, hpath]
        rw [List.map_filterMap_some_eq_filter_map_isSome, List.map_map]
        rfl
    _ = (((List.range path.length).map path.take).filter fun q => (t.at? q).isSome).map t.at? := by
        rw [List.filter_map]
        rfl
    _ = (outerPaths path).map t.at? := by
        rw [outerPaths, inits_eq_map_take, List.filter_append, List.filter_congr hsome]
        simp

/-- The ancestors of a node end in its parent, if it has one. -/
theorem ancestors_concat {id : NodeId} {outer : Path} {i : Nat} (hpath : t.pathOf? id = some (outer ++ [i])) :
    t.ancestors id =
      (List.range outer.length).filterMap (fun depth => t.at? (outer.take depth)) ++ (t.at? outer).toList := by
  simp only [ancestors, hpath]
  rw [List.length_append, List.length_singleton, List.range_succ, List.filterMap_append]
  congr 1
  · apply List.filterMap_congr
    intro depth hdepth
    rw [List.take_append_of_le_length (List.mem_range.1 hdepth).le]
  · rw [List.filterMap_cons, List.filterMap_nil, List.take_left]
    cases t.at? outer <;> rfl

theorem parent?_eq_getLast?_ancestors {id : NodeId} (hpath : t.pathOf? id = some path) (hn : t.at? path = some n) :
    t.parent? id = (t.ancestors id).getLast? := by
  obtain ⟨outer, i, rfl⟩ := (List.eq_nil_or_concat path).resolve_left (Forest.ne_nil_of_at? hn)
  rw [List.concat_eq_append] at hpath hn
  rw [parent?, hpath, Option.bind_some, List.dropLast_concat, ancestors_concat hpath]
  -- A root has no parent, for the empty path leads nowhere.
  by_cases hroot : outer = []
  · subst hroot
    rfl
  · obtain ⟨p, hp⟩ := exists_at?_of_prefix hn (List.prefix_append outer [i]) hroot
    rw [hp, Option.toList_some, List.getLast?_append, List.getLast?_singleton, Option.some_or]

/-- The index holds every identity of the tree once. -/
theorem keys_perm_ids (h : t.ids.Nodup) : t.index.keys.Perm t.ids := by
  rw [List.perm_ext_iff_of_nodup Std.HashMap.nodup_keys h]
  intro id
  rw [Std.HashMap.mem_keys, Std.HashMap.mem_iff_contains]
  exact contains_iff

/-- An identity that no node has is not found. -/
theorem pathOf?_eq_none {id : NodeId} (h : id ∉ t.ids) : t.pathOf? id = none := by
  rw [Option.eq_none_iff_forall_ne_some]
  intro path hpath
  obtain ⟨n, hn, rfl⟩ := at?_of_pathOf? hpath
  exact h (id_mem_ids hn)

/-- If no two nodes of some roots have the same identity, the index of their tree has one entry for each node in
preorder, and an identity has a path in it exactly if the path leads to the node with this identity. By its
identity this node is found, with the nodes around it, which are those at the beginnings of its path; the last of
them is its parent, and has the node among its children at the last index of the path. Of an identity that no node
has, nothing is found. -/
theorem index_is_exact {roots : List Node} (h : ((Forest.nodes roots).map Node.id).Nodup) :
    let t := ofRoots roots
    t.index.keys.Perm t.ids ∧ t.size = t.nodes.length ∧
    (∀ path id, (∃ n, t.at? path = some n ∧ n.id = id) ↔ t.pathOf? id = some path) ∧
    (∀ path n, t.at? path = some n →
      t.get? n.id = some n ∧
      (t.ancestors n.id).map some = (outerPaths path).map t.at? ∧
      t.parent? n.id = (t.ancestors n.id).getLast? ∧
      ∀ outer i, path = outer ++ [i] → outer ≠ [] →
        ∃ p, t.parent? n.id = some p ∧ t.at? outer = some p ∧ p.children[i]? = some n) ∧
    ∀ id ∉ t.ids, t.pathOf? id = none ∧ t.get? id = none ∧ t.ancestors id = [] ∧ t.parent? id = none := by
  intro t
  have hnodup : t.ids.Nodup := h
  refine ⟨keys_perm_ids hnodup, ?_, fun path id => ⟨?_, at?_of_pathOf?⟩, fun path n hn => ?_, fun id hid => ?_⟩
  · rw [size, ← Std.HashMap.length_keys, (keys_perm_ids hnodup).length_eq, ids, List.length_map]
  · rintro ⟨n, hn, rfl⟩
    exact pathOf?_of_nodup hnodup hn
  · have hpath : t.pathOf? n.id = some path := pathOf?_of_nodup hnodup hn
    refine ⟨?_, map_some_ancestors hpath hn, parent?_eq_getLast?_ancestors hpath hn, ?_⟩
    · rw [get?, hpath, Option.bind_some, hn]
    · -- Both the node and its parent are reached over the path without its last index.
      rintro outer i rfl hroot
      obtain ⟨p, hp⟩ := exists_at?_of_prefix hn (List.prefix_append outer [i]) hroot
      refine ⟨p, ?_, hp, ?_⟩
      · rw [parent?, hpath, Option.bind_some, List.dropLast_concat, hp]
      · rw [← at?_concat hp, hn]
  · have hnone := pathOf?_eq_none hid
    simp [get?, ancestors, parent?, hnone]

/-- The branch of a conditional without an alternative, in the body of a definition behind another root. -/
theorem index_is_exact_branch :
    let leaf : UInt64 → String → Node := fun id s => ⟨⟨id⟩, default, 0, .literal s .symbol, none⟩
    let params : Node := ⟨⟨2⟩, default, 0, .identifiers [leaf 7 "x"], none⟩
    let body : Node := ⟨⟨1⟩, default, 0, .conditional (leaf 8 "x") (leaf 3 "y") none, none⟩
    let whole : Node := ⟨⟨9⟩, default, 0, .functionDef (leaf 4 "f") params body, none⟩
    let roots := [leaf 5 "z", whole]
    let t := ofRoots roots
    ((Forest.nodes roots).map Node.id).Nodup ∧ t.size = 8 ∧ t.pathOf? ⟨3⟩ = some [1, 2, 1] ∧
      t.get? ⟨3⟩ = some (leaf 3 "y") ∧ (t.ancestors ⟨3⟩).map some = [some whole, some body] ∧
      (∃ p, t.parent? ⟨3⟩ = some p ∧ p.children[1]? = some (leaf 3 "y")) ∧ t.get? ⟨6⟩ = none := by
  intro leaf params body whole roots t
  have hnodup : ((Forest.nodes roots).map Node.id).Nodup := by decide
  obtain ⟨-, hsize, hpaths, hfound, habsent⟩ := index_is_exact hnodup
  have hbranch : t.at? [1, 2, 1] = some (leaf 3 "y") := rfl
  obtain ⟨hget, hancestors, -, hparent⟩ := hfound _ _ hbranch
  obtain ⟨p, hp, -, hchild⟩ := hparent [1, 2] 1 rfl (by decide)
  have h6 : (⟨6⟩ : NodeId) ∉ t.ids := by decide
  exact ⟨hnodup, hsize, (hpaths _ _).1 ⟨_, hbranch, rfl⟩, hget, hancestors, ⟨p, hp, hchild⟩, (habsent _ h6).2.1⟩

end Tree

end TreeEdit
