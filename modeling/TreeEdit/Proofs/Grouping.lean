import TreeEdit.Proofs.Lookup
import TreeEdit.Proofs.Splicing

/-!
# Groups of edits

Every edit in a place of a node has an anchor: the node that is printed again for it. The groups of a batch
are made one edit at a time, and what is found at the end does not depend on the order (`Grouped`): each
group has the range of an anchor, no group has its range inside another one, and the members of a group are
exactly the edits whose anchors have their range inside that of the group. All this needs of the anchors is
that their ranges nest (`Nested`).
-/

namespace TreeEdit

theorem Span.contains_refl (s : Span) : s.contains s = true := contains_iff.2 ⟨le_refl _, le_refl _⟩

theorem Span.contains_trans {a b c : Span} (hab : a.contains b = true) (hbc : b.contains c = true) :
    a.contains c = true := by
  rw [contains_iff] at hab hbc ⊢
  exact ⟨hab.1.trans hbc.1, hbc.2.trans hab.2⟩

theorem getElem?_concat_eq_some {α : Type} {as : List α} {a b : α} {i : Nat} :
    (as ++ [a])[i]? = some b ↔ as[i]? = some b ∨ i = as.length ∧ a = b := by
  rcases lt_trichotomy i as.length with hi | rfl | hi
  · simp [List.getElem?_append_left hi, hi.ne]
  · simp
  · have hnone : (as ++ [a])[i]? = none := List.getElem?_eq_none (by simp; omega)
    simp [hnone, List.getElem?_eq_none hi.le, hi.ne']

/-- Of two ranges around a third one, one is around the other. -/
def Nested (anchors : List (Option Node)) : Prop :=
  ∀ a b x : Node, some a ∈ anchors → some b ∈ anchors → some x ∈ anchors → a.range.contains x.range →
    b.range.contains x.range → a.range.contains b.range ∨ b.range.contains a.range

/-- The groups of edits with these anchors; an edit between the roots has none. -/
structure Grouped (anchors : List (Option Node)) (groups : List EditGroup) : Prop where
  anchor : ∀ g ∈ groups, ∃ a, some a ∈ anchors ∧ g.ancestor = a.id ∧ g.range = a.range ∧ g.cached = none
  nodup : ∀ g ∈ groups, g.members.Nodup
  members : ∀ g ∈ groups, ∀ i, i ∈ g.members ↔
    ∃ b, anchors[i]? = some (some b) ∧ g.range.contains b.range
  apart : (groups.map EditGroup.range).Pairwise fun r r' => ¬ r.contains r' ∧ ¬ r'.contains r
  covers : ∀ b, some b ∈ anchors → ∃ g ∈ groups, g.range.contains b.range

section Members

variable {anchors : List (Option Node)} {range : Span} {members : List Nat}
  (hmembers : ∀ i, i ∈ members ↔ ∃ b, anchors[i]? = some (some b) ∧ range.contains b.range)

include hmembers

/-- One more anchor in the range is one more member. -/
theorem mem_members_concat {anchor : Node} (hin : range.contains anchor.range) (i : Nat) :
    i ∈ members ++ [anchors.length] ↔
      ∃ b, (anchors ++ [some anchor])[i]? = some (some b) ∧ range.contains b.range := by
  simp only [List.mem_append, List.mem_singleton, hmembers, getElem?_concat_eq_some, Option.some.injEq]
  constructor
  · rintro (⟨b, hb, hrange⟩ | rfl)
    · exact ⟨b, .inl hb, hrange⟩
    · exact ⟨anchor, .inr ⟨rfl, rfl⟩, hin⟩
  · rintro ⟨b, hb | ⟨rfl, -⟩, hrange⟩
    · exact .inl ⟨b, hb, hrange⟩
    · exact .inr rfl

/-- One more anchor outside the range is none. -/
theorem mem_members_outside {anchor : Node} (hout : ¬ range.contains anchor.range) (i : Nat) :
    i ∈ members ↔ ∃ b, (anchors ++ [some anchor])[i]? = some (some b) ∧ range.contains b.range := by
  rw [hmembers]
  refine exists_congr fun b => and_congr_left fun hrange => ?_
  rw [getElem?_concat_eq_some]
  refine ⟨.inl, fun hi => hi.resolve_right ?_⟩
  rintro ⟨-, heq⟩
  cases heq
  exact hout hrange

theorem nodup_members_concat (hnodup : members.Nodup) : (members ++ [anchors.length]).Nodup := by
  refine List.nodup_append.2 ⟨hnodup, by simp, ?_⟩
  rintro i hi j hj rfl
  rw [List.mem_singleton.1 hj] at hi
  obtain ⟨b, hb, -⟩ := (hmembers _).1 hi
  exact absurd (List.getElem?_eq_some_iff.1 hb).1 (lt_irrefl _)

end Members

namespace Grouped

variable {anchors : List (Option Node)} {groups : List EditGroup} (h : Grouped anchors groups)

include h

theorem skip : Grouped (anchors ++ [none]) groups where
  anchor g hg := by
    obtain ⟨a, ha, hrest⟩ := h.anchor g hg
    exact ⟨a, List.mem_append_left _ ha, hrest⟩
  nodup := h.nodup
  members g hg i := by
    simp [h.members g hg, getElem?_concat_eq_some]
  apart := h.apart
  covers b hb := h.covers b (by simpa using hb)

theorem range_mem {g : EditGroup} (hg : g ∈ groups) : ∃ a, some a ∈ anchors ∧ g.range = a.range := by
  obtain ⟨a, ha, -, hrange, -⟩ := h.anchor g hg
  exact ⟨a, ha, hrange⟩

/-- No group has its range inside that of another one. -/
theorem eq_of_contains {g g' : EditGroup} (hg : g ∈ groups) (hg' : g' ∈ groups)
    (hin : g.range.contains g'.range) : g = g' := by
  have hsymm : Std.Symm fun g g' : EditGroup =>
      ¬ g.range.contains g'.range ∧ ¬ g'.range.contains g.range := ⟨fun _ _ h => h.symm⟩
  by_contra hne
  exact ((List.pairwise_map.1 h.apart).forall hg hg' hne).1 hin

/-- The ranges of two groups are not around one anchor. -/
theorem around_unique {all : List (Option Node)} (hsub : anchors ⊆ all) (hnested : Nested all) {g g' : EditGroup}
    (hg : g ∈ groups) (hg' : g' ∈ groups) {b : Node} (hb : some b ∈ all) (hgb : g.range.contains b.range)
    (hgb' : g'.range.contains b.range) : g = g' := by
  obtain ⟨a, ha, hrange⟩ := h.range_mem hg
  obtain ⟨a', ha', hrange'⟩ := h.range_mem hg'
  rcases hnested a a' b (hsub ha) (hsub ha') hb (hrange ▸ hgb) (hrange' ▸ hgb') with hin | hin
  · exact h.eq_of_contains hg hg' (by rwa [hrange, hrange'])
  · exact (h.eq_of_contains hg' hg (by rwa [hrange, hrange'])).symm

/-- No edit is a member of two groups. -/
theorem members_disjoint {all : List (Option Node)} (hsub : anchors ⊆ all) (hnested : Nested all) {g g' : EditGroup}
    (hg : g ∈ groups) (hg' : g' ∈ groups) {i : Nat} (hi : i ∈ g.members) (hi' : i ∈ g'.members) : g = g' := by
  obtain ⟨b, hb, hgb⟩ := (h.members g hg i).1 hi
  obtain ⟨b', hb', hgb'⟩ := (h.members g' hg' i).1 hi'
  obtain rfl : b = b' := by simpa [hb] using hb'
  exact h.around_unique hsub hnested hg hg' (hsub (List.mem_of_getElem? hb)) hgb hgb'

variable {anchor : Node} (hnested : Nested (anchors ++ [some anchor]))

include hnested

/-- If the ranges of a group and of the new anchor are around one anchor, one of them is around the other. -/
theorem comparable {g : EditGroup} (hg : g ∈ groups) {b : Node} (hb : some b ∈ anchors ++ [some anchor])
    (hgb : g.range.contains b.range) (hab : anchor.range.contains b.range) :
    g.range.contains anchor.range ∨ anchor.range.contains g.range := by
  obtain ⟨a, ha, hrange⟩ := h.range_mem hg
  rw [hrange] at hgb ⊢
  exact hnested a anchor b (by simp [ha]) (by simp) hb hgb hab

/-- One more edit with its anchor inside a group joins it. -/
theorem add_member {as bs : List EditGroup} {g : EditGroup} (hgroups : groups = as ++ g :: bs)
    (hg : g.range.contains anchor.range) :
    Grouped (anchors ++ [some anchor])
      (as ++ { g with members := g.members ++ [anchors.length] } :: bs) := by
  subst hgroups
  have hmem : g ∈ as ++ g :: bs := by simp
  -- The ranges nest, so the new anchor lies in no other group.
  have hothers : ∀ x ∈ as ++ bs, x ∈ as ++ g :: bs ∧ ¬ x.range.contains anchor.range := by
    intro x hx
    have hx' : x ∈ as ++ g :: bs := by
      rcases List.mem_append.1 hx with hx | hx <;> simp [hx]
    refine ⟨hx', fun hxa => ?_⟩
    obtain rfl := h.around_unique (List.subset_append_left _ _) hnested hx' hmem (b := anchor) (by simp) hxa hg
    have hapart := List.pairwise_map.1 h.apart
    rw [List.pairwise_middle fun h => h.symm, List.pairwise_cons] at hapart
    exact (hapart.1 x hx).1 (Span.contains_refl _)
  have hcases : ∀ x ∈ as ++ { g with members := g.members ++ [anchors.length] } :: bs,
      x ∈ as ++ bs ∨ x = { g with members := g.members ++ [anchors.length] } := by
    intro x hx
    simp only [List.mem_append, List.mem_cons] at hx ⊢
    tauto
  refine ⟨fun x hx => ?_, fun x hx => ?_, fun x hx i => ?_, ?_, fun b hb => ?_⟩
  · rcases hcases x hx with hx | rfl
    · obtain ⟨a, ha, hrest⟩ := h.anchor x (hothers x hx).1
      exact ⟨a, by simp [ha], hrest⟩
    · obtain ⟨a, ha, hrest⟩ := h.anchor g hmem
      exact ⟨a, by simp [ha], hrest⟩
  · rcases hcases x hx with hx | rfl
    · exact h.nodup x (hothers x hx).1
    · exact nodup_members_concat (h.members g hmem) (h.nodup g hmem)
  · rcases hcases x hx with hx | rfl
    · exact mem_members_outside (h.members x (hothers x hx).1) (hothers x hx).2 i
    · exact mem_members_concat (h.members g hmem) hg i
  · have hranges := h.apart
    rwa [List.map_append, List.map_cons] at hranges ⊢
  · simp only [List.mem_append, List.mem_singleton, Option.some.injEq] at hb
    rcases hb with hb | rfl
    · obtain ⟨x, hx, hxb⟩ := h.covers b hb
      simp only [List.mem_append, List.mem_cons] at hx
      rcases hx with hx | rfl | hx
      · exact ⟨x, by simp [hx], hxb⟩
      · exact ⟨_, List.mem_append_right _ List.mem_cons_self, hxb⟩
      · exact ⟨x, by simp [hx], hxb⟩
    · exact ⟨_, List.mem_append_right _ List.mem_cons_self, hg⟩

/-- One more edit with its anchor in no group starts a group and takes in the groups inside its anchor. -/
theorem start_group (hnone : ∀ g ∈ groups, ¬ g.range.contains anchor.range) :
    Grouped (anchors ++ [some anchor])
      (groups.filter (fun g => !anchor.range.contains g.range) ++
        [⟨anchor.id, anchor.range,
          (groups.filter (anchor.range.contains ·.range)).flatMap EditGroup.members ++ [anchors.length],
          none⟩]) := by
  -- The members of the groups that are taken in are all the edits with an anchor in the range: a group around
  -- such an anchor is comparable with the new one, and it does not contain it.
  have hmem : ∀ i, i ∈ (groups.filter (anchor.range.contains ·.range)).flatMap EditGroup.members ↔
      ∃ b, anchors[i]? = some (some b) ∧ anchor.range.contains b.range := by
    intro i
    constructor
    · intro hi
      obtain ⟨g, hg, hi⟩ := List.mem_flatMap.1 hi
      obtain ⟨hg, hin⟩ := List.mem_filter.1 hg
      obtain ⟨b, hb, hgb⟩ := (h.members g hg i).1 hi
      exact ⟨b, hb, Span.contains_trans hin hgb⟩
    · rintro ⟨b, hb, hab⟩
      have hbmem := List.mem_of_getElem? hb
      obtain ⟨g, hg, hgb⟩ := h.covers b hbmem
      have hin := (h.comparable hnested hg (by simp [hbmem]) hgb hab).resolve_left (hnone g hg)
      exact List.mem_flatMap.2 ⟨g, List.mem_filter.2 ⟨hg, hin⟩, (h.members g hg i).2 ⟨b, hb, hgb⟩⟩
  have hnodup : ((groups.filter (anchor.range.contains ·.range)).flatMap EditGroup.members).Nodup := by
    refine List.nodup_flatMap.2 ⟨fun g hg => h.nodup g (List.mem_filter.1 hg).1, ?_⟩
    refine (List.Pairwise.filter _ (List.pairwise_map.1 h.apart)).imp_of_mem fun {g g'} hg hg' hne => ?_
    intro i hi hi'
    have hg := (List.mem_filter.1 hg).1
    have hg' := (List.mem_filter.1 hg').1
    obtain rfl := h.members_disjoint (List.subset_append_left _ _) hnested hg hg' hi hi'
    exact hne.1 (Span.contains_refl _)
  have hcases : ∀ (P : EditGroup → Prop) (new : EditGroup),
      (∀ g ∈ groups, ¬ anchor.range.contains g.range → P g) → P new →
      ∀ g ∈ groups.filter (fun g => !anchor.range.contains g.range) ++ [new], P g := by
    intro P new hold hnew g hg
    rcases List.mem_append.1 hg with hg | hg
    · obtain ⟨hg, hout⟩ := List.mem_filter.1 hg
      exact hold g hg (by simpa using hout)
    · rwa [List.mem_singleton.1 hg]
  refine ⟨hcases _ _ (fun g hg _ => ?_) ?_, hcases _ _ (fun g hg _ => h.nodup g hg) ?_,
    hcases _ _ (fun g hg _ i => ?_) fun i => ?_, ?_, fun b hb => ?_⟩
  · obtain ⟨a, ha, hrest⟩ := h.anchor g hg
    exact ⟨a, by simp [ha], hrest⟩
  · exact ⟨anchor, by simp, rfl, rfl, rfl⟩
  · exact nodup_members_concat hmem hnodup
  · exact mem_members_outside (h.members g hg) (hnone g hg) i
  · exact mem_members_concat hmem (Span.contains_refl _) i
  · rw [List.pairwise_map]
    refine List.pairwise_append.2 ⟨List.Pairwise.filter _ (List.pairwise_map.1 h.apart), by simp, ?_⟩
    intro g hg new hnew
    rw [List.mem_singleton.1 hnew]
    obtain ⟨hg, hout⟩ := List.mem_filter.1 hg
    exact ⟨hnone g hg, by simpa using hout⟩
  · simp only [List.mem_append, List.mem_singleton, Option.some.injEq] at hb
    rcases hb with hb | rfl
    · obtain ⟨g, hg, hgb⟩ := h.covers b hb
      by_cases hin : anchor.range.contains g.range
      · exact ⟨_, List.mem_append_right _ List.mem_cons_self, Span.contains_trans hin hgb⟩
      · exact ⟨g, List.mem_append_left _ (List.mem_filter.2 ⟨hg, by simpa using hin⟩), hgb⟩
    · exact ⟨_, List.mem_append_right _ List.mem_cons_self, Span.contains_refl _⟩

/-- One step: an edit joins the groups. -/
theorem join : Grouped (anchors ++ [some anchor]) (joinGroups groups anchor anchors.length) := by
  unfold joinGroups
  split
  · rename_i i hi
    obtain ⟨hlt, hg, -⟩ := List.findIdx?_eq_some_iff_getElem.1 hi
    have hsplit : groups = groups.take i ++ groups[i] :: groups.drop (i + 1) := by
      rw [← List.drop_eq_getElem_cons hlt, List.take_append_drop]
    rw [List.modify_eq_take_cons_drop hlt]
    exact h.add_member hnested hsplit hg
  · rename_i hnone
    rw [List.partition_eq_filter_filter]
    exact h.start_group hnested fun g hg => by simpa using List.findIdx?_eq_none_iff.1 hnone g hg

end Grouped

/-- The edit has this anchor in the tree. -/
inductive Edit.Anchor (t : Tree) : Edit → Option Node → Prop
  | none {e : Edit} (root : e.parent? = .none) : Anchor t e .none
  | some {e : Edit} {parent : NodeId} {a : Node} (inside : e.parent? = .some parent)
      (printed : reprintedNode t parent = .ok a) : Anchor t e (.some a)

theorem Edit.Anchor.unique {t : Tree} {e : Edit} {x y : Option Node} (hx : e.Anchor t x) (hy : e.Anchor t y) :
    x = y := by
  cases hx with
  | none root =>
      cases hy with
      | none root' => rfl
      | some inside _ => cases root.symm.trans inside
  | some inside printed =>
      cases hy with
      | none root => cases root.symm.trans inside
      | some inside' printed' =>
          cases inside.symm.trans inside'
          cases printed.symm.trans printed'
          rfl

/-- The whole run: what holds at the start and is kept by every edit holds of the groups of a batch. -/
theorem groupEdits_run {t : Tree} {P : List (Option Node) → List EditGroup → Prop} (start : P [] [])
    (skip : ∀ anchors groups, P anchors groups → P (anchors ++ [none]) groups)
    (join : ∀ anchors groups anchor, Nested (anchors ++ [some anchor]) → P anchors groups →
      P (anchors ++ [some anchor]) (joinGroups groups anchor anchors.length))
    {edits : List Edit} {anchors : List (Option Node)} (h : List.Forall₂ (Edit.Anchor t) edits anchors)
    (hnested : Nested anchors) : ∃ groups, groupEdits t edits = .ok groups ∧ P anchors groups := by
  -- The groups are made from the left, so the induction takes the last edit off.
  induction anchors using List.reverseRecOn generalizing edits with
  | nil =>
      cases h
      exact ⟨[], rfl, start⟩
  | append_singleton anchors anchor ih =>
      have hes := List.forall₂_take_append edits anchors [anchor] h
      have hlast := List.forall₂_drop_append edits anchors [anchor] h
      generalize hes' : edits.take anchors.length = es at hes
      generalize hlast' : edits.drop anchors.length = last at hlast
      obtain rfl : es ++ last = edits := by rw [← hes', ← hlast', List.take_append_drop]
      obtain ⟨e, rest, he, hrest, rfl⟩ := List.forall₂_cons_right_iff.1 hlast
      obtain rfl := List.forall₂_nil_right_iff.1 hrest
      obtain ⟨groups, hgroups, hholds⟩ := ih hes fun a b x ha hb hx =>
        hnested a b x (by simp [ha]) (by simp [hb]) (by simp [hx])
      unfold groupEdits at hgroups ⊢
      rw [List.zipIdx_append, List.foldlM_append, hgroups]
      cases he with
      | none root =>
          refine ⟨groups, ?_, skip anchors groups hholds⟩
          simp [bind, Except.bind, root, pure, Except.pure]
      | @some parent a inside printed =>
          refine ⟨joinGroups groups a anchors.length, ?_, join anchors groups a hnested hholds⟩
          simp [bind, Except.bind, inside, printed, pure, Except.pure, hes.length_eq]

theorem groupEdits_grouped {t : Tree} {edits : List Edit} {anchors : List (Option Node)}
    (h : List.Forall₂ (Edit.Anchor t) edits anchors) (hnested : Nested anchors) :
    ∃ groups, groupEdits t edits = .ok groups ∧ Grouped anchors groups :=
  groupEdits_run ⟨by simp, by simp, by simp, .nil, by simp⟩ (fun _ _ hgrouped => hgrouped.skip)
    (fun _ _ _ hnested hgrouped => hgrouped.join hnested) h hnested

/-! ## Anchors in a tree -/

namespace Node

theorem Within.self_or_part {n m : Node} (h : n.Within m) : m = n ∨ ∃ p, n.Within p ∧ m ∈ p.kind.parts := by
  induction h with
  | self n => exact .inl rfl
  | @part n m l hm _ ih =>
      rcases ih with rfl | ⟨p, hp, hl⟩
      · exact .inr ⟨n, .self n, hm⟩
      · exact .inr ⟨p, .part hm hp, hl⟩

end Node

/-- The node stands in the text on its own, and not as the rest of a header. -/
def Tree.Stands (t : Tree) (n : Node) : Prop := ∃ root ∈ t.roots, root.Within n

theorem Tree.Stands.mem_nodes {t : Tree} {n : Node} (h : t.Stands n) : n ∈ t.nodes := by
  obtain ⟨root, hroot, hn⟩ := h
  exact List.mem_flatMap.2 ⟨root, hroot, hn.mem_walk⟩

theorem Tree.Stands.within {t : Tree} {n m : Node} (h : t.Stands n) (hm : n.Within m) : t.Stands m := by
  obtain ⟨root, hroot, hn⟩ := h
  exact ⟨root, hroot, hn.trans hm⟩

/-- The edit is in a place of the node, or of the parameter list of the function that it defines. -/
def Edit.Touches (e : Edit) (n : Node) : Prop :=
  e.parent? = some n.id ∨
    ∃ name params body, n.kind = .functionDef name params body ∧ e.parent? = some params.id

theorem Kind.isList_of_slot? {k : Kind Node} {field : String} {s : Slot Node} (h : k.slot? field = some s) :
    k.isList = true := by
  obtain ⟨hs, -⟩ := slot?_eq_some_iff.1 h
  cases k with
  | literal value type => cases hs
  | blank => cases hs
  | pasted text => cases hs
  | vacated => cases hs
  | _ => rfl

theorem Edit.Fits.bracketed {e : Edit} {m : Node} (h : e.Fits m) : m.Bracketed := by
  cases h with
  | insertList place => exact Kind.isList_of_slot? place
  | insertOptional place => exact Kind.isList_of_slot? place
  | delete place _ => exact Kind.isList_of_slot? place
  | replace place _ => exact Kind.isList_of_slot? place

section Distinct

variable {t : Tree} (ht : t.Distinct)

include ht

theorem reprintedNode_of_params {f name m body : Node} (hf : f ∈ t.nodes)
    (hk : f.kind = .functionDef name m body) : reprintedNode t m.id = .ok f := by
  have hchild : m ∈ f.children := by simp [Node.children_functionDef hk]
  have hm : m ∈ t.nodes := Tree.mem_nodes_of_mem_walk hf (Node.mem_walk_of_child hchild)
  simp [reprintedNode, ht.get?_eq hm, ht.parent?_of_child hf hchild, hk]

theorem reprintedNode_of_other {m : Node} (hm : m ∈ t.nodes)
    (hother : ∀ f ∈ t.nodes, ∀ name body, f.kind ≠ .functionDef name m body) :
    reprintedNode t m.id = .ok m := by
  rw [reprintedNode, ht.get?_eq hm]
  simp only
  split
  · rename_i outer houter
    obtain ⟨hnode, hchild⟩ := (ht.parent?_eq_some_iff hm).1 houter
    split
    · rename_i name params body hk
      rw [if_neg]
      intro hid
      have hparams : params ∈ outer.children := by simp [Node.children_functionDef hk]
      have hmem : params ∈ t.nodes := Tree.mem_nodes_of_mem_walk hnode (Node.mem_walk_of_child hparams)
      obtain rfl := ht.eq_of_id_eq hmem hm hid
      exact hother outer hnode name body hk
    · rfl
  · rfl

/-- A parameter list that is not a part as a whole does not stand on its own. -/
theorem header_eq_of_stands {f name m body : Node} (hf : f ∈ t.nodes) (hk : f.kind = .functionDef name m body)
    (hm : t.Stands m) : m.header = [m] := by
  have hchild : m ∈ f.children := by simp [Node.children_functionDef hk]
  by_contra hheader
  obtain ⟨root, hroot, hwithin⟩ := hm
  have hnode : ∀ {l}, root.Within l → l ∈ t.nodes :=
    fun hl => Tree.mem_nodes_of_mem_walk (Tree.root_mem_nodes hroot) hl.mem_walk
  rcases hwithin.self_or_part with rfl | ⟨p, hp, hpart⟩
  · exact absurd hchild (ht.root_not_child hroot hf)
  · rcases Node.child_of_part hpart with hin | ⟨name', params, body', hk', hheader', hin⟩
    · -- The definition has the parameter list once among its children.
      obtain rfl := ht.parent_unique (hnode hp) hf hin hchild
      have hids := (ht.identified hf).nodup.sublist p.children_ids_sublist
      rw [Node.children_functionDef hk] at hids
      rw [hk] at hpart
      simp only [Kind.parts, List.mem_cons, List.mem_append, List.not_mem_nil, or_false] at hpart
      rcases hpart with rfl | hpart | rfl
      · simp at hids
      · rw [Node.header_eq_children hheader] at hpart
        exact absurd (Node.sizeOf_lt_of_mem_children hpart) (lt_irrefl _)
      · simp at hids
    · have hparams : params ∈ t.nodes := by
        refine Tree.mem_nodes_of_mem_walk (hnode hp) (Node.mem_walk_of_child ?_)
        simp [Node.children_functionDef hk']
      obtain rfl := ht.parent_unique hparams hf hin hchild
      exact hheader' (by simp [Node.header, hk])

/-- What stands in the text and is a descendant stands within. -/
theorem Tree.Stands.within_of_mem_walk {a b : Node} (hb : t.Stands b) (ha : a ∈ t.nodes) (hab : b ∈ a.walk) :
    a.Within b := by
  refine (Node.within_of_mem_walk hab).resolve_right ?_
  rintro ⟨f, name, body, hf, hk, hparts⟩
  rw [header_eq_of_stands ht (Tree.mem_nodes_of_mem_walk ha hf.mem_walk) hk hb] at hparts
  have hself : b ∈ b.kind.parts := hparts ▸ List.mem_singleton_self b
  rcases Node.child_of_part hself with hchild | ⟨_, params, _, hk', -, hchild⟩
  · exact absurd (Node.sizeOf_lt_of_mem_children hchild) (lt_irrefl _)
  · simp [hk'] at hparts

omit ht in
/-- A node stands in the text on its own, or it is the rest of a header. -/
theorem Tree.stands_or_params {l : Node} (hl : l ∈ t.nodes) : t.Stands l ∨ ∃ f name body, f ∈ t.nodes ∧
    f.kind = .functionDef name l body ∧ l.kind.parts = l.header := by
  obtain ⟨root, hroot, hl⟩ := List.mem_flatMap.1 hl
  rcases Node.within_of_mem_walk hl with hwithin | ⟨f, name, body, hf, hk⟩
  · exact .inl ⟨root, hroot, hwithin⟩
  · exact .inr ⟨f, name, body, Tree.mem_nodes_of_mem_walk (Tree.root_mem_nodes hroot) hf.mem_walk, hk⟩

omit ht in
/-- A definition is never the rest of a header. -/
theorem Tree.stands_of_functionDef {f name params body : Node} (hf : f ∈ t.nodes)
    (hk : f.kind = .functionDef name params body) : t.Stands f := by
  refine (Tree.stands_or_params hf).resolve_right ?_
  rintro ⟨g, _, _, -, -, hparts⟩
  simp [hk, Node.header] at hparts

/-- Every edit that fits a node has an anchor around the node that stands in the text. -/
theorem Edit.Fits.anchor {e : Edit} {m : Node} (h : e.Fits m) (hm : m ∈ t.nodes) :
    ∃ a, e.Anchor t (some a) ∧ t.Stands a ∧ a.Bracketed ∧ e.Touches a ∧ m ∈ a.walk := by
  by_cases hparams : ∃ f ∈ t.nodes, ∃ name body, f.kind = .functionDef name m body
  · obtain ⟨f, hf, name, body, hk⟩ := hparams
    refine ⟨f, .some h.parent?_eq (reprintedNode_of_params ht hf hk), Tree.stands_of_functionDef hf hk, ?_, ?_, ?_⟩
    · simp [Node.Bracketed, hk, Kind.isList]
    · exact .inr ⟨name, m, body, hk, h.parent?_eq⟩
    · exact Node.mem_walk_of_child (by simp [Node.children_functionDef hk])
  · have hother : ∀ f ∈ t.nodes, ∀ name body, f.kind ≠ .functionDef name m body :=
      fun f hf name body hk => hparams ⟨f, hf, name, body, hk⟩
    refine ⟨m, .some h.parent?_eq (reprintedNode_of_other ht hm hother), ?_, h.bracketed, .inl h.parent?_eq,
      m.mem_walk_self⟩
    refine (Tree.stands_or_params hm).resolve_right ?_
    rintro ⟨f, name, body, hf, hk, -⟩
    exact hother f hf name body hk

/-- A node that stands in the text and is touched by an edit stands within the anchor of the edit. -/
theorem Edit.Touches.anchor {e : Edit} {n : Node} (h : e.Touches n) (hn : t.Stands n) :
    ∃ a, e.Anchor t (some a) ∧ a.Within n ∧ a ∈ t.nodes := by
  rcases h with h | ⟨name, params, body, hk, h⟩
  · by_cases hparams : ∃ f ∈ t.nodes, ∃ name body, f.kind = .functionDef name n body
    · obtain ⟨f, hf, name, body, hk⟩ := hparams
      refine ⟨f, .some h (reprintedNode_of_params ht hf hk), .part ?_ (.self n), hf⟩
      simp [hk, header_eq_of_stands ht hf hk hn]
    · refine ⟨n, .some h (reprintedNode_of_other ht hn.mem_nodes ?_), .self n, hn.mem_nodes⟩
      exact fun f hf name body hk => hparams ⟨f, hf, name, body, hk⟩
  · exact ⟨n, .some h (reprintedNode_of_params ht hn.mem_nodes hk), .self n, hn.mem_nodes⟩

end Distinct

/-! ## Ranges of anchors -/

theorem Node.eq_of_mem_walk {n m : Node} (h : m ∈ n.walk) (h' : n ∈ m.walk) : m = n := by
  have hsize : ∀ {n m : Node}, m ∈ n.walk → m = n ∨ sizeOf m < sizeOf n := by
    intro n m h
    induction n using induct with
    | step n ih =>
        rw [walk_eq] at h
        rcases List.mem_cons.1 h with rfl | h
        · exact .inl rfl
        · obtain ⟨c, hc, h⟩ := List.mem_flatMap.1 h
          have hlt := sizeOf_lt_of_mem_children hc
          rcases ih c hc h with rfl | hlt'
          · exact .inr hlt
          · exact .inr (hlt'.trans hlt)
  rcases hsize h with heq | hlt
  · exact heq
  · rcases hsize h' with heq | hlt'
    · exact heq.symm
    · omega

theorem Node.Within.antisymm {n m : Node} (h : n.Within m) (h' : m.Within n) : m = n :=
  eq_of_mem_walk h.mem_walk h'.mem_walk

/-- The tree stands in the document, every node has an identity of its own, and no range covers code of
another node. -/
structure Tree.Orderly (t : Tree) (doc : List Lexeme) : Prop where
  distinct : t.Distinct
  placed : Placed t.roots doc
  clear : ∀ n ∈ t.nodes, n.Clear (Lexeme.tokens .zero doc)

namespace Tree.Orderly

variable {t : Tree} {doc : List Lexeme} (h : t.Orderly doc)

include h

theorem settled {n : Node} (hn : t.Stands n) : n.Settled doc := by
  obtain ⟨root, hroot, hn⟩ := hn
  exact h.placed.settled h.clear hroot hn

theorem range_proper {n : Node} (hn : t.Stands n) : n.range.start < n.range.stop := by
  have hproper := Node.span_start_lt (h.settled hn) h.placed.run.ok
  exact (n.range_start_le.trans_lt hproper).trans_le n.le_range_stop

theorem nestedOrSeparate {a b : Node} (ha : t.Stands a) (hb : t.Stands b) (hla : a.Bracketed)
    (hlb : b.Bracketed) : a.NestedOrSeparate b := by
  obtain ⟨r, hr, hra⟩ := ha
  obtain ⟨s, hs, hsb⟩ := hb
  exact h.placed.nestedOrSeparate h.clear hr hs hra hsb hla hlb

/-- Among the lists of a document, a range is inside another one if its node stands within the other. -/
theorem contains_iff_within {a b : Node} (ha : t.Stands a) (hb : t.Stands b) (hla : a.Bracketed)
    (hlb : b.Bracketed) : a.range.contains b.range ↔ a.Within b := by
  have hpb := h.range_proper hb
  rw [Span.contains_iff]
  constructor
  · rintro ⟨hstart, hstop⟩
    rcases h.nestedOrSeparate ha hb hla hlb with hin | hin | hle | hle
    · exact hin
    · rcases hin.range_between fun l hl => h.settled (hb.within hl) with rfl | ⟨hlt, -⟩
      · exact .self a
      · exact absurd (b.range_start_le.trans_lt hlt) (not_lt.2 hstart)
    · exact absurd (hpb.trans_le (hstop.trans hle)) (lt_irrefl _)
    · exact absurd (hpb.trans_le (hle.trans hstart)) (lt_irrefl _)
  · exact fun hin => hin.range_le fun l hl => h.settled (ha.within hl)

/-- Lists that stand in a document have nested ranges. -/
theorem nested {anchors : List (Option Node)} (hall : ∀ a, some a ∈ anchors → t.Stands a ∧ a.Bracketed) :
    Nested anchors := by
  intro a b x ha hb hx hax hbx
  obtain ⟨hsa, hla⟩ := hall a ha
  obtain ⟨hsb, hlb⟩ := hall b hb
  obtain ⟨hsx, -⟩ := hall x hx
  have hpx := h.range_proper hsx
  rw [h.contains_iff_within hsa hsb hla hlb, h.contains_iff_within hsb hsa hlb hla]
  rw [Span.contains_iff] at hax hbx
  rcases h.nestedOrSeparate hsa hsb hla hlb with hin | hin | hle | hle
  · exact .inl hin
  · exact .inr hin
  · exact absurd (hpx.trans_le (hax.2.trans (hle.trans hbx.1))) (lt_irrefl _)
  · exact absurd (hpx.trans_le (hbx.2.trans (hle.trans hax.1))) (lt_irrefl _)

end Tree.Orderly

end TreeEdit
