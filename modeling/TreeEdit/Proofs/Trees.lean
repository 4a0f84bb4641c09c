import Mathlib.Data.List.Basic
import Mathlib.Data.List.Nodup
import TreeEdit.Tree.Basic

/-!
# Nodes of a tree by path and by identity

The preorder list, the list of paths and navigation by path show the same nodes, and the index of a
tree knows an identity exactly when one of its nodes has it. No identity has to be unique for this:
where one occurs twice, the index holds one of its places.
-/

namespace TreeEdit

/-! ## Preorder and paths -/

theorem map_snd_below {cs : List Node} (h : ∀ c ∈ cs, c.paths.map Prod.snd = c.walk) (i : Nat) :
    ((cs.zipIdx i).flatMap fun (c, i) => c.paths.map fun (p, m) => (i :: p, m)).map Prod.snd =
      cs.flatMap Node.walk := by
  induction cs generalizing i with
  | nil => rfl
  | cons c cs ih =>
      have hrest := ih (fun d hd => h d (List.mem_cons_of_mem c hd)) (i + 1)
      rw [List.zipIdx_cons, List.flatMap_cons, List.map_append, hrest, List.flatMap_cons,
        ← h c List.mem_cons_self, List.map_map]
      rfl

theorem Node.paths_map_snd (n : Node) : n.paths.map Prod.snd = n.walk := by
  induction n using Node.induct with
  | step n ih => rw [Node.paths_eq, Node.walk_eq, List.map_cons, map_snd_below ih]

namespace Forest

theorem mem_paths_iff {roots : List Node} {p : Path} {n : Node} :
    (p, n) ∈ paths roots ↔ at? roots p = some n := by
  simp only [paths, List.mem_flatMap]
  constructor
  · rintro ⟨⟨r, i⟩, hr, hp⟩
    obtain ⟨⟨q, m⟩, hq, he⟩ := List.mem_map.1 hp
    cases he
    have hi : roots[i]? = some r := List.mk_mem_zipIdx_iff_getElem?.1 hr
    simp [at?, hi, Node.at?_of_mem_paths hq]
  · intro h
    cases p with
    | nil => cases h
    | cons i p =>
        obtain ⟨r, hr, hn⟩ := Option.bind_eq_some_iff.1 h
        exact ⟨(r, i), List.mk_mem_zipIdx_iff_getElem?.2 hr,
          List.mem_map.2 ⟨(p, n), Node.mem_paths_of_at? hn, rfl⟩⟩

theorem paths_map_snd (roots : List Node) : (paths roots).map Prod.snd = nodes roots :=
  map_snd_below (fun c _ => c.paths_map_snd) 0

theorem mem_nodes_iff {roots : List Node} {n : Node} :
    n ∈ nodes roots ↔ ∃ p, at? roots p = some n := by
  rw [← paths_map_snd, List.mem_map]
  constructor
  · rintro ⟨⟨p, m⟩, hm, rfl⟩
    exact ⟨p, mem_paths_iff.1 hm⟩
  · rintro ⟨p, hp⟩
    exact ⟨(p, n), mem_paths_iff.2 hp, rfl⟩

end Forest

/-! ## Identities -/

theorem getElem?_insertMany {l : List (NodeId × Path)} {m : Std.HashMap NodeId Path} {id : NodeId}
    {p : Path} (h : (m.insertMany l)[id]? = some p) : (id, p) ∈ l ∨ m[id]? = some p := by
  induction l generalizing m with
  | nil => exact Or.inr (by simpa using h)
  | cons kv l ih =>
      obtain ⟨k, v⟩ := kv
      rw [Std.HashMap.insertMany_cons] at h
      rcases ih h with hl | hm
      · exact Or.inl (List.mem_cons_of_mem _ hl)
      · rw [Std.HashMap.getElem?_insert] at hm
        by_cases hk : k = id
        · subst hk
          simp only [beq_self_eq_true, if_true, Option.some.injEq] at hm
          exact Or.inl (hm ▸ List.mem_cons_self)
        · simp only [beq_iff_eq, hk, if_false] at hm
          exact Or.inr hm

namespace Tree

theorem contains_iff {t : Tree} {id : NodeId} : t.contains id = true ↔ id ∈ t.ids := by
  rw [contains, t.index_eq, Forest.index, Std.HashMap.contains_ofList, ids, nodes,
    ← Forest.paths_map_snd, List.map_map, List.contains_iff_mem, List.map_map]
  rfl

theorem id_mem_ids {t : Tree} {p : Path} {n : Node} (h : t.at? p = some n) : n.id ∈ t.ids :=
  List.mem_map_of_mem (Forest.mem_nodes_iff.2 ⟨p, h⟩)

/-- The index gives the path of a node with the identity. -/
theorem at?_of_pathOf? {t : Tree} {id : NodeId} {p : Path} (h : t.pathOf? id = some p) :
    ∃ n, t.at? p = some n ∧ n.id = id := by
  rw [pathOf?, t.index_eq, Forest.index, Std.HashMap.ofList_eq_insertMany_empty] at h
  rcases getElem?_insertMany h with hmem | hempty
  · obtain ⟨⟨q, n⟩, hq, he⟩ := List.mem_map.1 hmem
    cases he
    exact ⟨n, Forest.mem_paths_iff.1 hq, rfl⟩
  · simp at hempty

theorem get?_eq_some {t : Tree} {id : NodeId} {n : Node} (h : t.get? id = some n) :
    n.id = id ∧ n ∈ t.nodes := by
  obtain ⟨p, hp, hn⟩ := Option.bind_eq_some_iff.1 h
  obtain ⟨m, hm, hid⟩ := at?_of_pathOf? hp
  cases hm.symm.trans hn
  exact ⟨hid, Forest.mem_nodes_iff.2 ⟨p, hn⟩⟩

/-- If no two nodes share an identity, an identity stands at one path. -/
theorem path_unique_of_nodup {t : Tree} (h : t.ids.Nodup) {p q : Path} {n m : Node}
    (hp : t.at? p = some n) (hq : t.at? q = some m) (hid : n.id = m.id) : p = q := by
  have hnodup : ((Forest.paths t.roots).map (Node.id ∘ Prod.snd)).Nodup := by
    rw [← List.map_map, Forest.paths_map_snd]
    exact h
  exact congrArg Prod.fst (List.inj_on_of_nodup_map hnodup (Forest.mem_paths_iff.2 hp)
    (Forest.mem_paths_iff.2 hq) hid)

theorem exists_pathOf? {t : Tree} {id : NodeId} (h : id ∈ t.ids) : ∃ path, t.pathOf? id = some path := by
  have hsome : t.contains id = true := contains_iff.2 h
  rw [contains, Std.HashMap.contains_eq_isSome_getElem?] at hsome
  exact Option.isSome_iff_exists.1 hsome

/-- If no two nodes share an identity, the index gives the path of every node. -/
theorem pathOf?_of_nodup {t : Tree} (h : t.ids.Nodup) {path : Path} {n : Node} (hat : t.at? path = some n) :
    t.pathOf? n.id = some path := by
  obtain ⟨path', hpath'⟩ := exists_pathOf? (id_mem_ids hat)
  obtain ⟨m, hm, hid⟩ := at?_of_pathOf? hpath'
  rw [hpath', path_unique_of_nodup h hm hat hid]

theorem mem_ids_of_mem_ancestors {t : Tree} {id : NodeId} {n : Node} (h : n ∈ t.ancestors id) :
    n.id ∈ t.ids := by
  unfold ancestors at h
  split at h
  · cases h
  · obtain ⟨depth, -, hn⟩ := List.mem_filterMap.1 h
    exact id_mem_ids hn

theorem head?_id_mem_ids {t : Tree} {r : Node} (h : t.roots.head? = some r) : r.id ∈ t.ids := by
  refine id_mem_ids (p := [0]) ?_
  simp [at?, Forest.at?, ← List.head?_eq_getElem?, h]

/-- What stands nearest before a position is one of the siblings or was found inside one. -/
theorem nearest_mem {pos : Pos} {best : Option Node} {siblings : List (Node × Option Node)} {n : Node}
    (h : nearest pos best siblings = some n) :
    best = some n ∨ ∃ s ∈ siblings, s.1 = n ∨ s.2 = some n := by
  fun_induction nearest pos best siblings with
  | case1 best => exact Or.inl h
  | case2 best m inside rest _ => exact Or.inl h
  | case3 best m inside rest _ _ ih =>
      rcases ih h with hb | ⟨s, hs, hn⟩
      · exact Or.inr ⟨_, List.mem_cons_self, Or.inl (Option.some.inj hb)⟩
      · exact Or.inr ⟨s, List.mem_cons_of_mem _ hs, hn⟩
  | case4 best m inside rest _ _ =>
      refine Or.inr ⟨_, List.mem_cons_self, ?_⟩
      cases inside with
      | none => exact Or.inl (Option.some.inj h)
      | some i => exact Or.inr h

theorem nearestInside_eq (pos : Pos) (n : Node) :
    nearestInside pos n =
      nearest pos none (n.children.map fun c => (c, nearestInside pos c)) := by
  rw [nearestInside, Node.fold_eq, Kind.children_map]
  congr 1
  exact List.map_prod_left_eq_zip.symm

theorem nearestInside_mem {pos : Pos} {n m : Node} (h : nearestInside pos n = some m) :
    m ∈ n.walk := by
  induction n using Node.induct with
  | step n ih =>
      rw [nearestInside_eq] at h
      rw [Node.walk_eq]
      refine List.mem_cons_of_mem _ (List.mem_flatMap.2 ?_)
      rcases nearest_mem h with hnone | ⟨s, hs, hm⟩
      · cases hnone
      · obtain ⟨c, hc, rfl⟩ := List.mem_map.1 hs
        refine ⟨c, hc, ?_⟩
        rcases hm with rfl | hm
        · rw [Node.walk_eq]
          exact List.mem_cons_self
        · exact ih c hc hm

theorem before?_id_mem_ids {t : Tree} {pos : Pos} {n : Node} (h : t.before? pos = some n) :
    n.id ∈ t.ids := by
  rcases nearest_mem h with hnone | ⟨s, hs, hm⟩
  · cases hnone
  · obtain ⟨r, hr, rfl⟩ := List.mem_map.1 hs
    refine List.mem_map_of_mem (List.mem_flatMap.2 ⟨r, hr, ?_⟩)
    rcases hm with rfl | hm
    · rw [Node.walk_eq]
      exact List.mem_cons_self
    · exact nearestInside_mem hm

end Tree

end TreeEdit
