import Mathlib.Data.List.Flatten
import TreeEdit.Proofs.AtOnce

/-!
# Edits carried out one after the other

A copy under edit is the original with the edits so far made at once. One more edit looks for its parent
in the copy by identity, and there changes one place.
-/

namespace TreeEdit

/-! ## A node changed by its identity -/

theorem Kind.mapIdx_eq_map {α β : Type} {f : Nat → α → β} {g : α → β} {k : Kind α}
    (h : ∀ i c, k.children[i]? = some c → f i c = g c) : k.mapIdx f = k.map g := by
  have hlist : ∀ (f : Nat → α → β) (cs : List α), (∀ i c, cs[i]? = some c → f i c = g c) →
      cs.mapIdx f = cs.map g := by
    intro f cs hcs
    refine List.ext_getElem? fun i => ?_
    rw [List.getElem?_mapIdx, List.getElem?_map]
    cases hc : cs[i]? with
    | none => rfl
    | some c => rw [Option.map_some, Option.map_some, hcs i c hc]
  cases k with
  | literal value type => rfl
  | blank => rfl
  | pasted text => rfl
  | vacated => rfl
  | identifiers cs | cond cs | sequence cs | unknown cs =>
      simp only [mapIdx, map]
      rw [hlist f cs (by simpa [children, slots, Slot.nodes] using h)]
  | app c cs | clause c cs | guarded form c cs =>
      simp only [children, slots, Slot.nodes, List.flatMap_cons, List.flatMap_nil, List.append_nil,
        List.singleton_append] at h
      simp only [mapIdx, map]
      rw [h 0 c rfl, hlist _ cs fun i d hd => h (i + 1) d hd]
  | letIn form cs c =>
      simp only [children, slots, Slot.nodes, List.flatMap_cons, List.flatMap_nil, List.append_nil] at h
      simp only [mapIdx, map]
      rw [h cs.length c (by simp), hlist _ cs fun i d hd => h i d ?_]
      rw [List.getElem?_append_left (List.getElem?_eq_some_iff.1 hd).1, hd]
  | conditional test yes no =>
      simp only [mapIdx, map]
      rw [h 0 test rfl, h 1 yes rfl]
      cases no with
      | none => rfl
      | some no => rw [Option.map_some, Option.map_some, h 2 no rfl]
  | functionDef name params body =>
      simp only [mapIdx, map]
      rw [h 0 name rfl, h 1 params rfl, h 2 body rfl]
  | variableDef a b | lambda a b | structDef a b | binding a b =>
      simp only [mapIdx, map]
      rw [h 0 a rfl, h 1 b rfl]

namespace Node

theorem eta (n : Node) : (⟨n.id, n.span, n.hash, n.kind, n.comment⟩ : Node) = n := by
  cases n
  rfl

/-- The kind of a node with each child replaced by itself. -/
theorem with_map_eq_self {n : Node} {g : Node → Node} (h : ∀ c ∈ n.children, g c = c) :
    { n with kind := n.kind.map g } = n := by
  have hkind : n.kind.map g = n.kind.map fun c => c := Kind.map_congr_left h
  rw [hkind, show n.kind.map (fun c => c) = n.kind from n.kind.map_id, eta]

/-- The nodes with an identity changed. -/
def modifyId (target : NodeId) (f : Node → Node) (n : Node) : Node :=
  n.fold fun n below => if n.id = target then f { n with kind := below } else { n with kind := below }

variable {target : NodeId} {f : Node → Node}

theorem modifyId_eq (target : NodeId) (f : Node → Node) (n : Node) :
    n.modifyId target f =
      if n.id = target then f { n with kind := n.kind.map (modifyId target f) }
      else { n with kind := n.kind.map (modifyId target f) } := by
  rw [modifyId, fold_eq]
  rfl

/-- The identities of a node and of the nodes in it. -/
def ids (n : Node) : List NodeId := n.walk.map Node.id

theorem ids_eq (n : Node) : n.ids = n.id :: n.children.flatMap ids := by
  rw [ids, walk_eq, List.map_cons, List.map_flatMap]
  rfl

theorem ids_subset_of_child {n c : Node} (h : c ∈ n.children) : c.ids ⊆ n.ids := by
  intro target htarget
  rw [ids_eq]
  exact List.mem_cons_of_mem _ (List.mem_flatMap.2 ⟨c, h, htarget⟩)

theorem modifyId_of_not_mem {n : Node} (h : target ∉ n.ids) : n.modifyId target f = n := by
  induction n using induct with
  | step n ih =>
      have hsame := with_map_eq_self fun c hc => ih c hc fun hid => h (ids_subset_of_child hc hid)
      rw [ids_eq, List.mem_cons, not_or] at h
      rw [modifyId_eq, if_neg (Ne.symm h.1), hsame]

/-- What occurs at most once among some lists occurs in one of them only. -/
theorem pairwise_of_count_le_one {α : Type} {g : α → List NodeId} {as : List α}
    (h : (as.flatMap g).count target ≤ 1) : as.Pairwise fun a b => ¬ (target ∈ g a ∧ target ∈ g b) := by
  induction as with
  | nil => exact .nil
  | cons a as ih =>
      rw [List.flatMap_cons, List.count_append] at h
      refine List.pairwise_cons.2 ⟨fun b hb => ?_, ih (by omega)⟩
      rintro ⟨ha, hb'⟩
      have hfirst := List.count_pos_iff.2 ha
      have hlater := List.count_pos_iff.2 (List.mem_flatMap.2 ⟨b, hb, hb'⟩)
      omega

theorem index_unique {α : Type} {g : α → List NodeId} {as : List α} (h : (as.flatMap g).count target ≤ 1)
    {i j : Nat} {a b : α} (hi : as[i]? = some a) (hj : as[j]? = some b) (ha : target ∈ g a) (hb : target ∈ g b) :
    i = j := by
  obtain ⟨hilt, rfl⟩ := List.getElem?_eq_some_iff.1 hi
  obtain ⟨hjlt, rfl⟩ := List.getElem?_eq_some_iff.1 hj
  have hpairs := List.pairwise_iff_getElem.1 (pairwise_of_count_le_one h)
  rcases Nat.lt_trichotomy i j with hlt | heq | hgt
  · exact absurd ⟨ha, hb⟩ (hpairs i j hilt hjlt hlt)
  · exact heq
  · exact absurd ⟨hb, ha⟩ (hpairs j i hjlt hilt hgt)

/-- Nothing changes if nothing changes at the path. -/
theorem modifyAt_eq_self {path : Path} {n m : Node} (h : n.at? path = some m) (hf : f m = m) :
    n.modifyAt path f = n := by
  induction path generalizing n with
  | nil =>
      cases h
      exact hf
  | cons i path ih =>
      obtain ⟨c, hc, hm⟩ := Option.bind_eq_some_iff.1 h
      have hkind : n.kind.modifyChild i (fun c => c.modifyAt path f) = n.kind.map fun c => c := by
        refine Kind.mapIdx_eq_map fun j d hd => ?_
        split
        · rename_i hj
          rw [hj] at hd
          obtain rfl := Option.some.inj (hc.symm.trans hd)
          exact ih hm
        · rfl
      rw [modifyAt, hkind, show n.kind.map (fun c => c) = n.kind from n.kind.map_id, eta]

/-- If an identity occurs once, changing the node at its path is changing the node with the identity. -/
theorem modifyAt_eq_modifyId {path : Path} {n m : Node} (hat : n.at? path = some m) (hm : m.id = target)
    (honce : n.ids.count target ≤ 1) : n.modifyAt path f = n.modifyId target f := by
  induction path generalizing n with
  | nil =>
      obtain rfl : n = m := Option.some.inj hat
      rw [ids_eq, List.count_cons, if_pos (by simpa using hm)] at honce
      have hnone : target ∉ n.children.flatMap ids := List.count_eq_zero.1 (by omega)
      rw [modifyAt, modifyId_eq, if_pos hm, with_map_eq_self]
      exact fun c hc => modifyId_of_not_mem fun hid => hnone (List.mem_flatMap.2 ⟨c, hc, hid⟩)
  | cons i path ih =>
      obtain ⟨c, hc, hchildAt⟩ := Option.bind_eq_some_iff.1 hat
      have hin : target ∈ c.ids := List.mem_map.2 ⟨m, (c.paths_map_snd ▸
        List.mem_map.2 ⟨_, mem_paths_of_at? hchildAt, rfl⟩), hm⟩
      have hbelow : (n.children.flatMap ids).count target ≤ 1 := by
        rw [ids_eq, List.count_cons] at honce
        omega
      have hne : n.id ≠ target := by
        rintro rfl
        have hpos := List.count_pos_iff.2 (List.mem_flatMap.2 ⟨c, List.mem_of_getElem? hc, hin⟩)
        rw [ids_eq, List.count_cons, if_pos (by simp)] at honce
        omega
      have hchild : c.ids.count target ≤ 1 := by
        rw [List.flatMap_def] at hbelow
        exact ((List.sublist_flatten_of_mem (List.mem_map_of_mem (List.mem_of_getElem? hc))).count_le target).trans
          hbelow
      have hkind : n.kind.modifyChild i (fun c => c.modifyAt path f) = n.kind.map (modifyId target f) := by
        refine Kind.mapIdx_eq_map fun j d hd => ?_
        by_cases hij : j = i
        · subst hij
          obtain rfl : c = d := Option.some.inj (hc.symm.trans hd)
          rw [if_pos rfl]
          exact ih hchildAt hchild
        · rw [if_neg hij, modifyId_of_not_mem]
          exact fun hmem => hij (index_unique hbelow hd hc hmem hin)
      rw [modifyAt, modifyId_eq, if_neg hne, hkind]

end Node

/-! ## The copy under edit -/

open Edit

theorem Kind.refit_nil (k : Kind Node) : k.refit (Edit.refit []) = k := by
  have hleft : ∀ m, left [] m = some m := fun m => left_eq [] m (by simp)
  have hrequired : ∀ field m, (Edit.refit []).required field m = m := by
    intro field m
    show (left [] m).getD (.vacated m.span) = m
    rw [hleft, Option.getD_some]
  have hoptional : ∀ field m, (Edit.refit []).optional field m = m := by
    intro field m
    cases m with
    | none => rfl
    | some m =>
        show (left [] m).or none = some m
        rw [hleft, Option.some_or]
  have hlist : ∀ field ns, (Edit.refit []).list field ns = ns := by
    intro field ns
    show weave (putIn [] field) (left []) 0 ns = ns
    rw [weave_congr (fun j _ => show putIn [] field j = [] from rfl) fun m _ => hleft m, weave_nil,
      List.filterMap_some]
  cases k <;> simp only [refit, hrequired, hoptional, hlist]

namespace Node

variable {edits : List Edit}

@[simp] theorem id_edited (n : Node) : (n.edited edits).id = n.id := by rw [edited_eq]

@[simp] theorem span_edited (n : Node) : (n.edited edits).span = n.span := by rw [edited_eq]

theorem kind_edited (n : Node) :
    (n.edited edits).kind = (n.kind.map (edited edits)).refit (Edit.refit (inside edits n.id)) := by
  rw [edited_eq]

theorem edited_nil (n : Node) : n.edited [] = n := by
  induction n using induct with
  | step n ih =>
      rw [edited_eq, show Edit.inside [] n.id = [] from rfl, Kind.refit_nil, with_map_eq_self ih]

theorem mem_children_edited {n m : Node} (h : m ∈ (n.edited edits).children) :
    Made edits m ∨ ∃ c ∈ n.children, m = c.edited edits := by
  rw [children, kind_edited, Kind.children, Kind.slots_refit, List.flatMap_map] at h
  obtain ⟨s, hs, hm⟩ := List.mem_flatMap.1 h
  rcases mem_nodes_refit hm with hmade | ⟨hm, -⟩
  · exact .inl (hmade.mono (List.filter_subset_self _))
  · have hchild : m ∈ (n.kind.map (edited edits)).children := List.mem_flatMap.2 ⟨s, hs, hm⟩
    rw [Kind.children_map] at hchild
    obtain ⟨c, hc, rfl⟩ := List.mem_map.1 hchild
    exact .inr ⟨c, hc, rfl⟩

/-- A child that no edit is about stays. -/
theorem edited_mem_children {n c : Node} (hc : c ∈ n.children) (h : ∀ e ∈ edits, e.fateOf? c.id = none) :
    c.edited edits ∈ (n.edited edits).children := by
  have hchild : c.edited edits ∈ (n.kind.map (edited edits)).children := by
    rw [Kind.children_map]
    exact List.mem_map_of_mem hc
  obtain ⟨s, hs, hm⟩ := List.mem_flatMap.1 hchild
  rw [children, kind_edited, Kind.children, Kind.slots_refit, List.flatMap_map]
  refine List.mem_flatMap.2 ⟨s, hs, mem_nodes_refit_of_left hm (left_eq _ _ fun e he => ?_)⟩
  rw [id_edited]
  exact h e (List.mem_filter.1 he).1

theorem mem_walk_edited {n m : Node} (h : m ∈ (n.edited edits).walk) :
    Made edits m ∨ ∃ l ∈ n.walk, m = l.edited edits := by
  induction n using induct with
  | step n ih =>
      rw [walk_eq] at h
      rcases List.mem_cons.1 h with rfl | h
      · exact .inr ⟨n, n.mem_walk_self, rfl⟩
      · obtain ⟨c, hc, hm⟩ := List.mem_flatMap.1 h
        rcases mem_children_edited hc with hmade | ⟨d, hd, rfl⟩
        · rw [walk_eq, hmade.children_eq, List.flatMap_nil, List.mem_singleton] at hm
          exact .inl (hm ▸ hmade)
        · refine (ih d hd hm).imp_right fun ⟨l, hl, hml⟩ => ⟨l, ?_, hml⟩
          exact mem_walk_trans (mem_walk_of_child hd) hl

/-- A node stays if no edit is about it or a node around it. -/
theorem edited_mem_walk {n m : Node} (hm : m ∈ n.walk)
    (h : ∀ l ∈ n.walk, m ∈ l.walk → ∀ e ∈ edits, e.fateOf? l.id = none) :
    m.edited edits ∈ (n.edited edits).walk := by
  induction n using induct with
  | step n ih =>
      rw [walk_eq] at hm
      rcases List.mem_cons.1 hm with rfl | hm
      · exact mem_walk_self _
      · obtain ⟨c, hc, hm⟩ := List.mem_flatMap.1 hm
        have hwalk : ∀ l ∈ c.walk, l ∈ n.walk := fun l hl => mem_walk_trans (mem_walk_of_child hc) hl
        have hchild := edited_mem_children hc (h c (hwalk c c.mem_walk_self) hm)
        exact mem_walk_trans (mem_walk_of_child hchild)
          (ih c hc hm fun l hl => h l (hwalk l hl))

/-! ## An identity that occurs once -/

/-- Of the nodes in which an identity occurs, a place that has been changed has none more than before, and
in the same order. -/
theorem filter_nodes_refit {target : NodeId} (htarget : target ≠ .unassigned) (s : Slot Node) :
    ((s.refit (Edit.refit edits)).nodes.filter (target ∈ ·.ids)).Sublist s.nodes := by
  have hmade : ∀ {m : Node}, Made edits m → target ∉ m.ids := by
    intro m hm
    rw [ids_eq, hm.children_eq, hm.id_eq]
    simpa using htarget
  have hone : ∀ n : Node, ((left edits n).toList.filter (target ∈ ·.ids)).Sublist [n] := by
    intro n
    cases hn : left edits n with
    | none => exact List.nil_sublist _
    | some m =>
        rcases left_eq_some hn with rfl | hm
        · exact List.filter_sublist
        · simp [hmade hm]
  have hnone : ∀ field index, (putIn edits field index).filter (target ∈ ·.ids) = [] := by
    intro field index
    exact List.filter_eq_nil_iff.2 fun m hm => by simpa using hmade (made_of_mem_putIn hm)
  cases s with
  | required field n =>
      simp only [Slot.refit, refit_required, Slot.nodes]
      cases hn : left edits n with
      | none => simp [hmade (.inr ⟨n.span, rfl⟩)]
      | some m => simpa [hn] using hone n
  | optional field n =>
      have hput : (putIn edits field 0).head?.toList.filter (target ∈ ·.ids) = [] := by
        refine List.filter_eq_nil_iff.2 fun m hm => ?_
        simpa using hmade (made_of_mem_putIn (List.mem_of_mem_head? (Option.mem_toList.1 hm)))
      simp only [Slot.refit, refit_optional, Slot.nodes]
      cases hn : n.bind (left edits) with
      | none =>
          rw [Option.none_or, hput]
          exact List.nil_sublist _
      | some m =>
          obtain ⟨n, rfl, hm⟩ := Option.bind_eq_some_iff.1 hn
          simpa [hm] using hone n
  | list field ns =>
      simp only [Slot.refit, refit_list, Slot.nodes]
      generalize 0 = i
      induction ns generalizing i with
      | nil => rw [weave, hnone]
      | cons n ns ih =>
          rw [weave, List.filter_append, hnone, List.nil_append, List.filter_append]
          exact (hone n).append (ih (i + 1))

theorem filter_children_edited {target : NodeId} (htarget : target ≠ .unassigned) (n : Node) :
    ((n.edited edits).children.filter (target ∈ ·.ids)).Sublist (n.children.map (edited edits)) := by
  rw [children, children, ← Kind.children_map, kind_edited, Kind.children, Kind.children, Kind.slots_refit,
    List.flatMap_map, List.filter_flatMap]
  exact List.Sublist.flatMap_right _ fun s _ => filter_nodes_refit htarget s

theorem count_flatMap_ids (target : NodeId) (ns : List Node) :
    (ns.flatMap ids).count target = ((ns.filter (target ∈ ·.ids)).flatMap ids).count target := by
  induction ns with
  | nil => rfl
  | cons n ns ih =>
      rw [List.flatMap_cons, List.count_append, ih, List.filter_cons]
      by_cases hn : target ∈ n.ids
      · rw [if_pos (by simpa using hn), List.flatMap_cons, List.count_append]
      · rw [if_neg (by simpa using hn), List.count_eq_zero.2 hn, Nat.zero_add]

theorem count_flatMap_le {α : Type} {f g : α → List NodeId} {id : NodeId} {as : List α}
    (h : ∀ a ∈ as, (f a).count id ≤ (g a).count id) : (as.flatMap f).count id ≤ (as.flatMap g).count id := by
  induction as with
  | nil => exact le_refl _
  | cons a as ih =>
      obtain ⟨ha, has⟩ := List.forall_mem_cons.1 h
      rw [List.flatMap_cons, List.flatMap_cons, List.count_append, List.count_append]
      exact Nat.add_le_add ha (ih has)

/-- No identity occurs more often in the copy than in the node. -/
theorem count_ids_edited_le {target : NodeId} (htarget : target ≠ .unassigned) (n : Node) :
    (n.edited edits).ids.count target ≤ n.ids.count target := by
  induction n using induct with
  | step n ih =>
      rw [ids_eq, ids_eq n, id_edited, List.count_cons, List.count_cons]
      refine Nat.add_le_add_right ?_ _
      calc ((n.edited edits).children.flatMap ids).count target
        _ = (((n.edited edits).children.filter (target ∈ ·.ids)).flatMap ids).count target :=
            count_flatMap_ids target _
        _ ≤ ((n.children.map (edited edits)).flatMap ids).count target :=
            ((filter_children_edited htarget n).flatMap ids).count_le target
        _ = (n.children.flatMap (ids ∘ edited edits)).count target := by rw [List.flatMap_map]; rfl
        _ ≤ (n.children.flatMap ids).count target := count_flatMap_le ih

/-! ## One more edit -/

theorem inside_append (e : Edit) (id : NodeId) :
    inside (edits ++ [e]) id = if e.parent? = some id then inside edits id ++ [e] else inside edits id := by
  rw [inside, List.filter_append, List.filter_singleton]
  split
  · simp_all [inside]
  · simp_all [inside]

/-- An edit in a node that is not there changes nothing. -/
theorem edited_append_of_not_mem {e : Edit} {parent : NodeId} (he : e.parent? = some parent) {n : Node}
    (h : parent ∉ n.ids) : n.edited (edits ++ [e]) = n.edited edits := by
  induction n using induct with
  | step n ih =>
      have hne : e.parent? ≠ some n.id := by
        rw [he]
        rintro ⟨⟩
        rw [ids_eq] at h
        exact h List.mem_cons_self
      have hkind : n.kind.map (edited (edits ++ [e])) = n.kind.map (edited edits) :=
        Kind.map_congr_left fun c hc => ih c hc fun hmem => h (ids_subset_of_child hc hmem)
      rw [edited_eq, edited_eq edits, hkind, inside_append, if_neg hne]

section Commute

variable {g : Node → Node} (hid : ∀ n, (g n).id = n.id) (hspan : ∀ n, (g n).span = n.span)
  (hmade : ∀ n, Made edits n → g n = n)

include hid hmade

theorem left_map (n : Node) : left edits (g n) = (left edits n).map g := by
  unfold left
  rw [hid]
  cases hfate : fate edits n.id with
  | stays => rfl
  | goes => rfl
  | givesWay new => exact congrArg some (hmade new (made_of_fate hfate)).symm

omit hid in
theorem putIn_map (field : String) (index : Nat) : (putIn edits field index).map g = putIn edits field index := by
  have hsame : (putIn edits field index).map g = (putIn edits field index).map fun n => n :=
    List.map_congr_left fun n hn => hmade n (made_of_mem_putIn hn)
  rw [hsame, List.map_id']

include hspan

/-- A change of the children that keeps identities and what was made can come before or after. -/
theorem natural_refit : (Edit.refit edits).Natural g := by
  refine ⟨fun field n => ?_, fun field n => ?_, fun field ns => ?_⟩
  · rw [Edit.refit_required, Edit.refit_required, left_map hid hmade, hspan]
    cases left edits n with
    | none => exact (hmade _ (.inr ⟨_, rfl⟩)).symm
    | some m => rfl
  · rw [Edit.refit_optional, Edit.refit_optional, Option.map_or, ← List.head?_map, putIn_map hmade]
    cases n with
    | none => rfl
    | some n => rw [Option.bind_some, Option.map_some, Option.bind_some, left_map hid hmade]
  · rw [Edit.refit_list, Edit.refit_list, weave_map, map_weave]
    exact weave_congr (fun j _ => (putIn_map hmade field j).symm) fun n _ => left_map hid hmade n

end Commute

/-- One more edit made at once with the others is one more change of the copy. -/
theorem modifyId_edited {e : Edit} {parent : NodeId} (he : e.parent? = some parent)
    (hparent : parent ≠ .unassigned) {k : Kind Node} {f : Node → Node} (hf : ∀ m, f m = { m with kind := k })
    {n : Node} (hthere : ∀ m ∈ n.walk, m.id = parent → parent ∉ m.children.flatMap ids ∧
      k = (m.kind.map (edited edits)).refit (Edit.refit (inside edits parent ++ [e]))) :
    (n.edited edits).modifyId parent f = n.edited (edits ++ [e]) := by
  have hid : ∀ m : Node, (m.modifyId parent f).id = m.id := by
    intro m
    rw [modifyId_eq, hf]
    split <;> rfl
  have hspan : ∀ m : Node, (m.modifyId parent f).span = m.span := by
    intro m
    rw [modifyId_eq, hf]
    split <;> rfl
  have hmade : ∀ edits m, Made edits m → m.modifyId parent f = m := by
    intro edits m hm
    refine modifyId_of_not_mem ?_
    rw [ids_eq, hm.children_eq, hm.id_eq]
    simpa using hparent
  induction n using induct with
  | step n ih =>
      by_cases hn : n.id = parent
      · obtain ⟨hbelow, rfl⟩ := hthere n n.mem_walk_self hn
        have hkind : n.kind.map (edited (edits ++ [e])) = n.kind.map (edited edits) :=
          Kind.map_congr_left fun c hc =>
            edited_append_of_not_mem he fun hmem => hbelow (List.mem_flatMap.2 ⟨c, hc, hmem⟩)
        rw [modifyId_eq, if_pos (by rw [id_edited, hn]), hf, edited_eq (edits ++ [e]), hkind, inside_append,
          if_pos (by rw [he, hn]), edited_eq, hn]
      · have hkind : n.kind.map (modifyId parent f ∘ edited edits) = n.kind.map (edited (edits ++ [e])) :=
          Kind.map_congr_left fun c hc =>
            ih c hc fun m hm => hthere m (mem_walk_trans (mem_walk_of_child hc) hm)
        rw [modifyId_eq, if_neg (by rwa [id_edited]), kind_edited,
          ← (natural_refit hid hspan (hmade _)).refit_map, Kind.map_map, hkind, edited_eq (edits ++ [e]),
          inside_append, if_neg (by rw [he]; rintro ⟨⟩; exact hn rfl), edited_eq]

end Node

end TreeEdit
