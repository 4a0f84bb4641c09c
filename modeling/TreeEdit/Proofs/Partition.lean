import TreeEdit.Proofs.Grouping
import TreeEdit.Proofs.OwnCode
import TreeEdit.Proofs.Substitution

/-!
# Edits fall into separate groups

A comment may be moved from one part of a list to another, so the range of a node can take in a neighbour. Still
the ranges of all nodes that stand in a text nest: of two of them one takes in the other or one ends before the
other starts, and no two are the same (`Placed.nestedOrSeparate_ranges`). The node that is printed again for an
edit always stands in the text (`reprintedNode_stands`). So the groups of a batch are a partition of its edits
inside nodes, with separate ranges, and the order of the batch has no part in it.
-/

namespace TreeEdit

open Reader Lexeme

/-! ## Tokens in order -/

/-- No two tokens start at one place. -/
theorem Lexeme.token_unique {p : Pos} {ls : List Lexeme} (hok : ∀ l ∈ ls, l.Ok) {t u : Token} (ht : t ∈ tokens p ls)
    (hu : u ∈ tokens p ls) (hstart : t.span.start = u.span.start) : t = u := by
  have hpt := (mem_tokens_between hok ht).2.1
  have hpu := (mem_tokens_between hok hu).2.1
  by_contra hne
  rcases tokens_apart hok ht hu hne with hle | hle
  · exact absurd (hpt.trans_le (hle.trans hstart.ge)) (lt_irrefl _)
  · exact absurd (hpu.trans_le (hle.trans hstart.le)) (lt_irrefl _)

/-! ## Ranges that nest -/

namespace Span

/-- One range ends before the other starts. -/
def Separate (a b : Span) : Prop := a.stop ≤ b.start ∨ b.stop ≤ a.start

/-- One range takes in the other, or they are separate. -/
def NestedOrSeparate (a b : Span) : Prop := a.contains b ∨ b.contains a ∨ a.Separate b

theorem Separate.symm {a b : Span} (h : a.Separate b) : b.Separate a := Or.symm h

theorem NestedOrSeparate.symm {a b : Span} (h : a.NestedOrSeparate b) : b.NestedOrSeparate a := by
  rcases h with h | h | h
  · exact .inr (.inl h)
  · exact .inl h
  · exact .inr (.inr h.symm)

theorem Separate.mono {a b c d : Span} (h : a.Separate b) (hac : a.contains c) (hbd : b.contains d) :
    c.Separate d := by
  rw [contains_iff] at hac hbd
  rcases h with h | h
  · exact .inl (hac.2.trans (h.trans hbd.1))
  · exact .inr (hbd.2.trans (h.trans hac.1))

theorem Separate.ne {a b : Span} (h : a.Separate b) (ha : a.start < a.stop) : a ≠ b := by
  rintro rfl
  rcases h with h | h
  · exact absurd ha (not_lt.2 h)
  · exact absurd ha (not_lt.2 h)

theorem contains_antisymm {a b : Span} (hab : a.contains b) (hba : b.contains a) : a = b := by
  rw [contains_iff] at hab hba
  obtain ⟨start, stop⟩ := a
  exact (Span.mk.injEq ..).mpr ⟨le_antisymm hab.1 hba.1, le_antisymm hba.2 hab.2⟩

end Span

theorem Node.range_contains_span (n : Node) : n.range.contains n.span :=
  Span.contains_iff.2 ⟨n.range_start_le, n.le_range_stop⟩

theorem Node.Within.mem_nodes {roots : List Node} {root n : Node} (hroot : root ∈ roots) (hn : root.Within n) :
    n ∈ Forest.nodes roots :=
  List.mem_flatMap.2 ⟨root, hroot, hn.mem_walk⟩

namespace Placed

variable {roots : List Node} {doc : List Lexeme} (h : Placed roots doc)

include h

theorem proper {root n : Node} (hroot : root ∈ roots) (hn : root.Within n) : n.span.start < n.span.stop := by
  obtain ⟨x, own, y, rfl, hspan, -, ⟨⟨l, hl, -⟩, -⟩, -⟩ := h.stands hroot hn
  obtain ⟨rest, rfl⟩ := List.head?_eq_some_iff.1 hl
  have hchars := chars_ne_nil (h.run.ok l (by simp))
  rw [hspan]
  exact Pos.lt_advanceOver (by simp [hchars]) _

theorem range_proper {root n : Node} (hroot : root ∈ roots) (hn : root.Within n) :
    n.range.start < n.range.stop :=
  n.range_start_le.trans_lt ((h.proper hroot hn).trans_le n.le_range_stop)

/-- A list starts with its bracket, so no part of it starts there, not even with its comment. -/
theorem start_lt_part {root n m : Node} (hroot : root ∈ roots) (hn : root.Within n) (hm : m ∈ n.kind.parts) :
    n.span.start < m.range.start := by
  have hpart := Node.Within.mem_nodes hroot (hn.trans (.part hm (.self m)))
  obtain ⟨x, own, y, hdoc, hspans⟩ := h.stands hroot hn
  obtain ⟨b, b', core, inner, rfl, hshape, hfills⟩ := hspans.brackets (Node.bracketed_of_part hm)
  obtain ⟨hspan, -, -, -⟩ := hspans
  refine lt_of_le_of_ne (h.between n (hn.mem_nodes hroot) m hm).start fun hstart => ?_
  rcases m.range_start_eq_or with hown | ⟨c, hc, hcomment⟩
  · have hmem : .inr m ∈ inner := by
      have hmem := Kind.mem_shape.2 hm
      rw [hshape, inBrackets] at hmem
      simpa using hmem
    have hle := (hfills.ordered.1 m hmem).1
    rw [← hown, ← hstart, hspan] at hle
    exact absurd (Pos.lt_next _) (not_lt.2 hle)
  · -- The comment of the part would start where the bracket does.
    obtain ⟨⟨t, ht, hkind, htstart⟩, -⟩ := h.ends m hpart c hc
    obtain ⟨u, hu, hukind, huspan⟩ := token_of_sign? (l := opening b) (by simp [sign?])
      (Pos.zero.advanceOver (text x))
    have humem : u ∈ tokens .zero doc := by
      rw [hdoc]
      exact mem_tokens_of_token? hu
    have hsame : t = u := by
      refine token_unique h.run.ok ht humem ?_
      rw [htstart, ← hcomment, ← hstart, hspan, huspan]
    rw [hsame] at hkind
    exact hukind hkind

/-- What stands within a node has its range in the node's span, and starts behind the start of the node. -/
theorem within_span {root n m : Node} (hroot : root ∈ roots) (hn : root.Within n) (hm : n.Within m) :
    m = n ∨ n.span.contains m.range ∧ n.span.start < m.range.start := by
  induction hm with
  | self n => exact .inl rfl
  | @part n m l hpart hml ih =>
      have hbetween := h.between n (hn.mem_nodes hroot) m hpart
      have hstart := h.start_lt_part hroot hn hpart
      right
      rcases ih (hn.trans (.part hpart (.self m))) with rfl | ⟨hin, -⟩
      · exact ⟨Span.contains_iff.2 ⟨hbetween.start, hbetween.stop⟩, hstart⟩
      · rw [Span.contains_iff] at hin ⊢
        have hfront : m.range.start ≤ l.range.start := m.range_start_le.trans hin.1
        exact ⟨⟨hbetween.start.trans hfront, hin.2.trans (m.le_range_stop.trans hbetween.stop)⟩,
          hstart.trans_le hfront⟩

theorem within_range {root n m : Node} (hroot : root ∈ roots) (hn : root.Within n) (hm : n.Within m) :
    n.range.contains m.range := by
  rcases h.within_span hroot hn hm with rfl | ⟨hin, -⟩
  · exact Span.contains_refl _
  · exact Span.contains_trans n.range_contains_span hin

/-- Below two nodes of which one lies in the margin of the other, ranges nest or are separate. -/
theorem ranges_in_margin {r s a b m l : Node} (hr : r ∈ roots) (ha : r.Within a) (hs : s ∈ roots)
    (hb : s.Within b) (hmargin : b.InMargin a) (hm : a.Within m) (hl : b.Within l) :
    m.range.NestedOrSeparate l.range ∧ m.range ≠ l.range := by
  obtain ⟨hin, hout⟩ := hmargin
  have houtside : a.span.Separate b.range := hout.symm
  have hbl := h.within_range hs hb hl
  rcases h.within_span hr ha hm with rfl | ⟨hspan, -⟩
  · refine ⟨.inl (Span.contains_trans hin hbl), fun heq => ?_⟩
    -- The code of the outer node would lie in its own margin.
    have hcover : b.range.contains m.span := Span.contains_trans hbl (heq ▸ m.range_contains_span)
    exact (houtside.mono (Span.contains_refl _) hcover).ne (h.proper hr ha) rfl
  · have hseparate := houtside.mono hspan hbl
    exact ⟨.inr (.inr hseparate), hseparate.ne (h.range_proper hr (ha.trans hm))⟩

theorem ranges_beside {r s a b m l : Node} (hr : r ∈ roots) (ha : r.Within a) (hs : s ∈ roots)
    (hb : s.Within b) (hbeside : a.Beside b) (hm : a.Within m) (hl : b.Within l) :
    m.range.NestedOrSeparate l.range ∧ m.range ≠ l.range := by
  rcases hbeside with hle | hmargin | ⟨-, hmargin⟩
  · have hseparate : m.range.Separate l.range :=
      Span.Separate.mono (.inl hle) (h.within_range hr ha hm) (h.within_range hs hb hl)
    exact ⟨.inr (.inr hseparate), hseparate.ne (h.range_proper hr (ha.trans hm))⟩
  · exact h.ranges_in_margin hr ha hs hb hmargin hm hl
  · obtain ⟨hnested, hne⟩ := h.ranges_in_margin hs hb hr ha hmargin hl hm
    exact ⟨hnested.symm, hne.symm⟩

/-- Below two different members of a row of parts, ranges nest or are separate. -/
theorem ranges_of_siblings {ns : List Node} (hns : ∀ n ∈ ns, ∃ r ∈ roots, r.Within n) (hpairs : ns.Pairwise Node.Beside)
    {a b m l : Node} (ha : a ∈ ns) (hb : b ∈ ns) (hab : a ≠ b) (hm : a.Within m) (hl : b.Within l) :
    m.range.NestedOrSeparate l.range ∧ m.range ≠ l.range := by
  have hsymm : Std.Symm fun a b : Node => a.Beside b ∨ b.Beside a := ⟨fun _ _ h => h.symm⟩
  obtain ⟨r, hr, ha'⟩ := hns a ha
  obtain ⟨s, hs, hb'⟩ := hns b hb
  rcases (hpairs.imp Or.inl : ns.Pairwise fun a b => a.Beside b ∨ b.Beside a).forall ha hb hab with hbeside | hbeside
  · exact h.ranges_beside hr ha' hs hb' hbeside hm hl
  · obtain ⟨hnested, hne⟩ := h.ranges_beside hs hb' hr ha' hbeside hl hm
    exact ⟨hnested.symm, hne.symm⟩

theorem ranges_within {root n m l : Node} (hroot : root ∈ roots) (hn : root.Within n) (hm : n.Within m)
    (hl : n.Within l) (hne : m ≠ l) : m.range.NestedOrSeparate l.range ∧ m.range ≠ l.range := by
  have houter : ∀ {n l : Node}, root.Within n → n.Within l → l ≠ n →
      n.range.NestedOrSeparate l.range ∧ n.range ≠ l.range := by
    intro n l hn hl hne
    obtain ⟨-, hlt⟩ := (h.within_span hroot hn hl).resolve_left hne
    refine ⟨.inl (h.within_range hroot hn hl), fun heq => ?_⟩
    rw [← heq] at hlt
    exact absurd hlt (not_lt.2 n.range_start_le)
  induction hm with
  | self n => exact houter hn hl hne.symm
  | @part n a m ha hm ih =>
      cases hl with
      | self =>
          obtain ⟨hnested, hdiffer⟩ := houter hn (.part ha hm) hne
          exact ⟨hnested.symm, hdiffer.symm⟩
      | @part _ b _ hb hl =>
          by_cases hab : a = b
          · subst hab
            exact ih (hn.trans (.part ha (.self a))) hl hne
          · refine h.ranges_of_siblings (fun c hc => ⟨root, hroot, ?_⟩) (h.beside n (hn.mem_nodes hroot)) ha hb hab
              hm hl
            exact hn.trans (.part hc (.self c))

/-- Of the ranges of two nodes in a text one takes in the other or they are separate, and they are not the same. -/
theorem nestedOrSeparate_ranges {r s m l : Node} (hr : r ∈ roots) (hs : s ∈ roots) (hm : r.Within m)
    (hl : s.Within l) (hne : m ≠ l) : m.range.NestedOrSeparate l.range ∧ m.range ≠ l.range := by
  by_cases hrs : r = s
  · subst hrs
    exact h.ranges_within hr (.self r) hm hl hne
  · refine h.ranges_of_siblings (fun n hn => ⟨n, hn, .self n⟩) ?_ hr hs hrs hm hl
    exact h.rootsOrdered.imp .inl

end Placed

/-! ## Anchors stand in the text -/

/-- The node at a path stands in the text, or it is the parameter list of the node above. -/
theorem Tree.stands_at {t : Tree} {path : Path} {n : Node} (h : t.at? path = some n) :
    t.Stands n ∨ ∃ f name body, t.at? path.dropLast = some f ∧ f.kind = .functionDef name n body := by
  induction path using List.reverseRecOn generalizing n with
  | nil => cases h
  | append_singleton path i ih =>
      rw [List.dropLast_concat]
      by_cases hpath : path = []
      · subst hpath
        obtain ⟨root, hroot, hn⟩ := Option.bind_eq_some_iff.1 h
        cases hn
        exact .inl ⟨n, List.mem_of_getElem? hroot, .self n⟩
      · rw [at?, Forest.at?_append _ hpath] at h
        obtain ⟨outer, houter, hchild⟩ := Option.bind_eq_some_iff.1 h
        have hmem : n ∈ outer.children := by
          obtain ⟨c, hc, hn⟩ := Option.bind_eq_some_iff.1 hchild
          cases hn
          exact List.mem_of_getElem? hc
        rcases Node.part_of_child hmem with hpart | ⟨name, body, hk, -⟩
        · left
          rcases ih houter with hstands | ⟨f, name, body, hf, hk⟩
          · exact hstands.within (.part hpart (.self n))
          · have hdef := Tree.stands_of_functionDef (Tree.mem_nodes_iff.2 ⟨_, hf⟩) hk
            by_cases hheader : outer.header = [outer]
            · exact (hdef.within (.part (by simp [hk, hheader]) (.self outer))).within (.part hpart (.self n))
            · refine hdef.within (.part ?_ (.self n))
              rw [← Node.header_eq_children hheader] at hmem
              simp [hk, hmem]
        · exact .inr ⟨outer, name, body, houter, hk⟩

/-- Whatever node of the tree an edit is in, the node printed again for it stands in the text. -/
theorem reprintedNode_stands {t : Tree} {parent : NodeId} (h : parent ∈ t.ids) :
    ∃ a, reprintedNode t parent = .ok a ∧ t.Stands a := by
  obtain ⟨path, hpath⟩ := Tree.exists_pathOf? h
  obtain ⟨n, hn, hid⟩ := Tree.at?_of_pathOf? hpath
  have hget : t.get? parent = some n := by rw [Tree.get?, hpath, Option.bind_some, hn]
  have hparent : t.parent? parent = t.at? path.dropLast := by rw [Tree.parent?, hpath, Option.bind_some]
  rw [reprintedNode, hget, hparent]
  rcases Tree.stands_at hn with hstands | ⟨f, name, body, hf, hk⟩
  · simp only
    split
    · rename_i outer houter
      split
      · rename_i hk
        split
        · exact ⟨outer, rfl, Tree.stands_of_functionDef (Tree.mem_nodes_iff.2 ⟨_, houter⟩) hk⟩
        · exact ⟨n, rfl, hstands⟩
      · exact ⟨n, rfl, hstands⟩
    · exact ⟨n, rfl, hstands⟩
  · refine ⟨f, ?_, Tree.stands_of_functionDef (Tree.mem_nodes_iff.2 ⟨_, hf⟩) hk⟩
    simp [hf, hk, hid]

/-- The anchors of edits whose parents are in the tree. -/
theorem exists_anchors {t : Tree} {edits : List Edit} (h : ∀ e ∈ edits, ∀ parent ∈ e.parent?, parent ∈ t.ids) :
    ∃ anchors, List.Forall₂ (Edit.Anchor t) edits anchors ∧ ∀ a, some a ∈ anchors → t.Stands a := by
  induction edits with
  | nil => exact ⟨[], .nil, by simp⟩
  | cons e edits ih =>
      obtain ⟨he, hes⟩ := List.forall_mem_cons.1 h
      obtain ⟨anchors, hanchors, hstands⟩ := ih hes
      cases hparent : e.parent? with
      | none => exact ⟨none :: anchors, .cons (.none hparent) hanchors, by simpa using hstands⟩
      | some parent =>
          obtain ⟨a, ha, hsa⟩ := reprintedNode_stands (he parent hparent)
          exact ⟨some a :: anchors, .cons (.some hparent ha) hanchors, by simpa [hsa] using hstands⟩

namespace Placed

variable {t : Tree} {doc : List Lexeme} (h : Placed t.roots doc)

include h

theorem nestedOrSeparate_of_stands {a b : Node} (ha : t.Stands a) (hb : t.Stands b) :
    a.range.NestedOrSeparate b.range := by
  obtain ⟨r, hr, ha⟩ := ha
  obtain ⟨s, hs, hb⟩ := hb
  by_cases hab : a = b
  · subst hab
    exact .inl (Span.contains_refl _)
  · exact (h.nestedOrSeparate_ranges hr hs ha hb hab).1

theorem eq_of_range_eq {a b : Node} (ha : t.Stands a) (hb : t.Stands b) (heq : a.range = b.range) : a = b := by
  obtain ⟨r, hr, ha⟩ := ha
  obtain ⟨s, hs, hb⟩ := hb
  by_contra hab
  exact (h.nestedOrSeparate_ranges hr hs ha hb hab).2 heq

/-- Ranges of nodes in a text that take in one range nest. -/
theorem nested {anchors : List (Option Node)} (hall : ∀ a, some a ∈ anchors → t.Stands a) : Nested anchors := by
  intro a b x ha hb hx hax hbx
  rcases h.nestedOrSeparate_of_stands (hall a ha) (hall b hb) with hin | hin | hseparate
  · exact .inl hin
  · exact .inr hin
  · obtain ⟨r, hr, hrx⟩ := hall x hx
    exact absurd rfl ((hseparate.mono hax hbx).ne (h.range_proper hr hrx))

end Placed

/-! ## Groups -/

theorem Edit.Anchor.isSome_eq {t : Tree} {e : Edit} {anchor : Option Node} (h : e.Anchor t anchor) :
    e.parent?.isSome = anchor.isSome := by
  cases h with
  | none root => rw [root]; rfl
  | some inside _ => rw [inside]; rfl

theorem anchor_at {t : Tree} {edits : List Edit} {anchors : List (Option Node)}
    (h : List.Forall₂ (Edit.Anchor t) edits anchors) (i : Nat) :
    edits[i]? = none ∧ anchors[i]? = none ∨
      ∃ e anchor, edits[i]? = some e ∧ anchors[i]? = some anchor ∧ e.Anchor t anchor := by
  induction h generalizing i with
  | nil => exact .inl ⟨rfl, rfl⟩
  | @cons e anchor _ _ he _ ih =>
      cases i with
      | zero => exact .inr ⟨e, anchor, rfl, rfl, he⟩
      | succ i => exact ih i

theorem mem_anchors_iff {t : Tree} {edits : List Edit} {anchors : List (Option Node)}
    (h : List.Forall₂ (Edit.Anchor t) edits anchors) {a : Option Node} :
    a ∈ anchors ↔ ∃ e ∈ edits, e.Anchor t a := by
  induction h with
  | nil => simp
  | @cons e b edits anchors he hes ih =>
      have hfirst : a = b ↔ e.Anchor t a := ⟨fun heq => heq ▸ he, fun ha => ha.unique he⟩
      rw [List.mem_cons, List.exists_mem_cons_iff, ih, hfirst]

/-- The edits inside nodes are those with an anchor. -/
theorem parent_isSome_iff {t : Tree} {edits : List Edit} {anchors : List (Option Node)}
    (h : List.Forall₂ (Edit.Anchor t) edits anchors) (i : Nat) :
    (edits[i]?.bind Edit.parent?).isSome ↔ ∃ b, anchors[i]? = some (some b) := by
  rcases anchor_at h i with ⟨he, ha⟩ | ⟨e, anchor, he, ha, hanchor⟩
  · simp [he, ha]
  · simp [he, ha, hanchor.isSome_eq, Option.isSome_iff_exists]

/-- The anchors of a permuted batch are the anchors permuted. -/
theorem anchors_permuted {t : Tree} {edits shuffled : List Edit} {anchors others : List (Option Node)}
    (h : List.Forall₂ (Edit.Anchor t) edits anchors) (h' : List.Forall₂ (Edit.Anchor t) shuffled others) {i j : Nat}
    (hij : shuffled[i]? = edits[j]?) : others[i]? = anchors[j]? := by
  rcases anchor_at h j with ⟨he, ha⟩ | ⟨e, anchor, he, ha, hanchor⟩
  · rcases anchor_at h' i with ⟨-, ha'⟩ | ⟨e', -, he', -⟩
    · rw [ha, ha']
    · cases (he'.symm.trans hij).trans he
  · rcases anchor_at h' i with ⟨he', -⟩ | ⟨e', anchor', he', ha', hanchor'⟩
    · cases (he'.symm.trans hij).trans he
    · cases (he'.symm.trans hij).trans he
      rw [ha, ha', hanchor.unique hanchor']

/-- A group as it is to be told from others: its node, its range, and its members under other names, in whatever
order. -/
def EditGroup.renamed (σ : Nat → Nat) (g : EditGroup) : NodeId × Span × Multiset Nat :=
  (g.ancestor, g.range, g.members.map σ)

namespace Grouped

variable {anchors : List (Option Node)} {groups : List EditGroup} (h : Grouped anchors groups)
  (hnested : Nested anchors)

include h

theorem nodup_ranges : (groups.map EditGroup.range).Nodup := by
  refine h.apart.imp ?_
  rintro r r' ⟨hne, -⟩ rfl
  exact hne (Span.contains_refl _)

theorem nodup_groups : groups.Nodup := h.nodup_ranges.of_map

theorem nodup_renamed (σ : Nat → Nat) : (groups.map (EditGroup.renamed σ)).Nodup := by
  refine h.nodup_groups.map_on fun g hg g' hg' heq => ?_
  have hrange : g.range = g'.range := congrArg (·.2.1) heq
  exact h.eq_of_contains hg hg' (by rw [hrange]; exact Span.contains_refl _)

include hnested

/-- Every edit with an anchor is in one group, once; no other edit is in any. -/
theorem members_perm {edits : List Edit} {t : Tree} (hanchors : List.Forall₂ (Edit.Anchor t) edits anchors) :
    (groups.flatMap EditGroup.members).Perm
      ((List.range edits.length).filter fun i => (edits[i]?.bind Edit.parent?).isSome) := by
  have hnodup : (groups.flatMap EditGroup.members).Nodup := by
    refine List.nodup_flatMap.2 ⟨h.nodup, h.nodup_groups.imp_of_mem fun {g g'} hg hg' hne => ?_⟩
    intro i hi hi'
    exact hne (h.members_disjoint (List.Subset.refl _) hnested hg hg' hi hi')
  refine (List.perm_ext_iff_of_nodup hnodup (List.nodup_range.filter _)).2 fun i => ?_
  rw [List.mem_flatMap, List.mem_filter, parent_isSome_iff hanchors]
  constructor
  · rintro ⟨g, hg, hi⟩
    obtain ⟨b, hb, -⟩ := (h.members g hg i).1 hi
    have hlt : i < anchors.length := (List.getElem?_eq_some_iff.1 hb).1
    exact ⟨List.mem_range.2 (hanchors.length_eq ▸ hlt), b, hb⟩
  · rintro ⟨-, b, hb⟩
    obtain ⟨g, hg, hgb⟩ := h.covers b (List.mem_of_getElem? hb)
    exact ⟨g, hg, (h.members g hg i).2 ⟨b, hb, hgb⟩⟩

omit hnested

variable {shuffled : List (Option Node)} {others : List EditGroup} (h' : Grouped shuffled others)

include h'

/-- A group of the same anchors in another order has the range of one of the groups. -/
theorem exists_same_range (hmem : ∀ a, some a ∈ shuffled ↔ some a ∈ anchors) {g' : EditGroup} (hg' : g' ∈ others) :
    ∃ g ∈ groups, g.range = g'.range := by
  obtain ⟨a', ha', hrange'⟩ := h'.range_mem hg'
  -- The group around this one's anchor has an anchor that lies in this one's range again.
  obtain ⟨g, hg, hga'⟩ := h.covers a' ((hmem a').1 ha')
  obtain ⟨a, ha, hrange⟩ := h.range_mem hg
  obtain ⟨g'', hg'', hga⟩ := h'.covers a ((hmem a).2 ha)
  have hback : g'' = g' := by
    refine h'.eq_of_contains hg'' hg' (Span.contains_trans hga ?_)
    rw [hrange', ← hrange]
    exact hga'
  subst hback
  refine ⟨g, hg, Span.contains_antisymm ?_ ?_⟩
  · rw [hrange']
    exact hga'
  · rw [hrange]
    exact hga

/-- Groups of the same anchors in another order have the same ranges. -/
theorem ranges_perm (hmem : ∀ a, some a ∈ shuffled ↔ some a ∈ anchors) :
    (others.map EditGroup.range).Perm (groups.map EditGroup.range) := by
  refine (List.perm_ext_iff_of_nodup h'.nodup_ranges h.nodup_ranges).2 fun r => ?_
  simp only [List.mem_map]
  constructor
  · rintro ⟨g', hg', rfl⟩
    exact h.exists_same_range h' hmem hg'
  · rintro ⟨g, hg, rfl⟩
    exact h'.exists_same_range h (fun a => (hmem a).symm) hg

variable (hsame : ∀ a b : Node, some a ∈ anchors → some b ∈ anchors → a.range = b.range → a.id = b.id)

include hsame

/-- A group of the same anchors in another order prints the node of one of the groups. -/
theorem exists_same_node (hmem : ∀ a, some a ∈ shuffled ↔ some a ∈ anchors) {g' : EditGroup} (hg' : g' ∈ others) :
    ∃ g ∈ groups, g.ancestor = g'.ancestor ∧ g.range = g'.range := by
  obtain ⟨g, hg, heq⟩ := h.exists_same_range h' hmem hg'
  obtain ⟨a, ha, hid, hrange, -⟩ := h.anchor g hg
  obtain ⟨a', ha', hid', hrange', -⟩ := h'.anchor g' hg'
  refine ⟨g, hg, ?_, heq⟩
  rw [hid, hid']
  exact hsame a a' ha ((hmem a').1 ha') (by rw [← hrange, heq, hrange'])

variable (σ : Equiv.Perm Nat) (hσ : ∀ i, shuffled[i]? = anchors[σ i]?)

include hσ

omit h h' hsame in
theorem mem_shuffled_iff {a : Option Node} : a ∈ shuffled ↔ a ∈ anchors := by
  simp only [List.mem_iff_getElem?, hσ]
  exact (σ.surjective.exists (p := fun i => anchors[i]? = some a)).symm

/-- A group of permuted anchors is one of the groups. -/
theorem exists_renamed {g' : EditGroup} (hg' : g' ∈ others) : ∃ g ∈ groups, g.renamed id = g'.renamed σ := by
  obtain ⟨g, hg, hancestor, heq⟩ := h.exists_same_node h' hsame (fun _ => mem_shuffled_iff σ hσ) hg'
  refine ⟨g, hg, ?_⟩
  have hmembers : (g.members.map id).Perm (g'.members.map σ) := by
    refine (List.perm_ext_iff_of_nodup ?_ ?_).2 fun i => ?_
    · rw [List.map_id]
      exact h.nodup g hg
    · exact (h'.nodup g' hg').map σ.injective
    · rw [List.map_id, h.members g hg, List.mem_map]
      simp only [h'.members g' hg', hσ, ← heq]
      constructor
      · rintro ⟨b, hb, hgb⟩
        exact ⟨σ.symm i, ⟨b, by rwa [Equiv.apply_symm_apply], hgb⟩, σ.apply_symm_apply i⟩
      · rintro ⟨j, hj, rfl⟩
        exact hj
  rw [EditGroup.renamed, EditGroup.renamed, hancestor, heq, Multiset.coe_eq_coe.2 hmembers]

/-- Permuted anchors have the same groups. -/
theorem renamed_perm : (others.map (EditGroup.renamed σ)).Perm (groups.map (EditGroup.renamed id)) := by
  refine (List.perm_ext_iff_of_nodup (h'.nodup_renamed σ) (h.nodup_renamed id)).2 fun x => ?_
  simp only [List.mem_map]
  constructor
  · rintro ⟨g', hg', rfl⟩
    exact h.exists_renamed h' hsame σ hσ hg'
  · rintro ⟨g, hg, rfl⟩
    obtain ⟨a, ha, hrange⟩ := h.range_mem hg
    obtain ⟨g', hg', hga⟩ := h'.covers a ((mem_shuffled_iff σ hσ).2 ha)
    obtain ⟨g₂, hg₂, heq⟩ := h.exists_renamed h' hsame σ hσ hg'
    have hrange₂ : g₂.range = g'.range := congrArg (·.2.1) heq
    obtain rfl := h.eq_of_contains hg₂ hg (by rwa [hrange₂, hrange])
    exact ⟨g', hg', heq.symm⟩

end Grouped

/-! ## The text changes of groups -/

/-- The error says that something was not found. -/
def EditError.IsLookup (err : EditError) : Prop := ∃ id why, err = .lookup id why

/-- However the place is, the change of it fails only so, and then leaves the place as it was. -/
structure SlotEdit.FailsBy {ε α : Type} (P : ε → Prop) (e : SlotEdit ε α) : Prop where
  required : ∀ a err, (e.required a).1 = .error err → P err ∧ (e.required a).2 = a
  optional : ∀ a err, (e.optional a).1 = .error err → P err ∧ (e.optional a).2 = a
  list : ∀ as err, (e.list as).1 = .error err → P err ∧ (e.list as).2 = as

theorem SlotEdit.FailsBy.editSlot? {ε α : Type} {P : ε → Prop} {e : SlotEdit ε α} (he : e.FailsBy P) {k : Kind α}
    {field : String} {err : ε} {k' : Kind α} (h : k.editSlot? field e = some (.error err, k')) :
    P err ∧ k' = k := by
  have hrequired := he.required
  have hoptional := he.optional
  have hlist := he.list
  cases k <;> grind [Kind.editSlot?, Prod.map_apply]

theorem Edit.slotEdit?_failsBy {e : Edit} {parent : NodeId} {field : String} {change : SlotEdit EditError Node}
    (h : e.slotEdit? = some (parent, field, change)) : change.FailsBy EditError.IsLookup := by
  unfold slotEdit? at h
  split at h
  · cases h
    constructor <;> grind [insertion, EditError.IsLookup]
  · cases h
    constructor <;> grind [replacement, EditError.IsLookup]
  · cases h
    constructor <;> grind [deletion, EditError.IsLookup]
  · cases h

/-- An edit that fails did not find something, and leaves the copy as it was. -/
theorem Edit.graftOnto_error {e : Edit} {copy left : Node} {err : EditError}
    (h : e.graftOnto copy = (.error err, left)) : err.IsLookup ∧ left = copy := by
  unfold graftOnto at h
  split at h
  · cases h
    exact ⟨⟨_, _, rfl⟩, rfl⟩
  · rename_i parent field change hchange
    split at h
    · cases h
      exact ⟨⟨_, _, rfl⟩, rfl⟩
    · split at h
      · cases h
        exact ⟨⟨_, _, rfl⟩, rfl⟩
      · -- The change of the place failed, and the kind it left is written back.
        rename_i path _ result kind hkind
        cases h
        obtain ⟨m, hat, hfail⟩ := Option.bind_eq_some_iff.1 hkind
        obtain ⟨hlookup, rfl⟩ := (slotEdit?_failsBy hchange).editSlot? hfail
        exact ⟨hlookup, Node.modifyAt_eq_self hat m.eta⟩

/-- Keeping the old copy where an edit fails is keeping what the edit left. -/
theorem Edit.getD_graft (e : Edit) (copy : Node) : (e.graft copy).toOption.getD copy = (e.graftOnto copy).2 := by
  rw [graft]
  cases hgraft : e.graftOnto copy with
  | mk result left =>
      cases result with
      | ok _ => rfl
      | error err => exact (graftOnto_error hgraft).2.symm

/-- An edit that cannot be carried out on a copy is passed over, so the copy can always be made. -/
theorem EditGroup.graftAll_eq (copy : Node) (edits : List Edit) :
    graftAll copy edits = .ok (edits.foldl (fun copy e => (e.graft copy).toOption.getD copy) copy) := by
  induction edits generalizing copy with
  | nil => rfl
  | cons e edits ih =>
      rw [graftAll, List.foldl_cons, e.getD_graft, ← ih]
      cases hgraft : e.graftOnto copy with
      | mk result left =>
          cases result with
          | ok _ => rfl
          | error err =>
              obtain ⟨⟨id, why, rfl⟩, -⟩ := e.graftOnto_error hgraft
              rfl

/-- Every group of a node in the tree has its text change, over the range of the group. -/
theorem EditGroup.exists_toTextChange {t : Tree} {g : EditGroup} (hcached : g.cached = none)
    (hancestor : g.ancestor ∈ t.ids) (edits : List Edit) (width : Nat) :
    ∃ change, (g.toTextChange t edits width).1 = .ok change ∧ change.span = g.range := by
  obtain ⟨path, hpath⟩ := Tree.exists_pathOf? hancestor
  obtain ⟨n, hn, -⟩ := Tree.at?_of_pathOf? hpath
  have hget : t.get? g.ancestor = some n := by rw [Tree.get?, hpath, Option.bind_some, hn]
  obtain ⟨text, htext⟩ : ∃ text, g.reprint t edits width = .ok ⟨g.range.start, g.range.stop, text⟩ := by
    rw [reprint, hget]
    simp only [graftAll_eq, bind, Except.bind, pure, Except.pure]
    exact ⟨_, rfl⟩
  refine ⟨⟨g.range.start, g.range.stop, text⟩, ?_, rfl⟩
  simp only [toTextChange, hcached, htext]

theorem exists_mapM_map_eq {α β γ ε : Type} {f : α → Except ε β} {p : β → γ} {q : α → γ} {xs : List α}
    (h : ∀ x ∈ xs, ∃ y, f x = .ok y ∧ p y = q x) : ∃ ys, xs.mapM f = .ok ys ∧ ys.map p = xs.map q := by
  induction xs with
  | nil => exact ⟨[], rfl, rfl⟩
  | cons x xs ih =>
      obtain ⟨⟨y, hy, hxy⟩, hxs⟩ := List.forall_mem_cons.1 h
      obtain ⟨ys, hys, hall⟩ := ih hxs
      exact ⟨y :: ys, mapM_cons_eq_ok.2 ⟨y, ys, hy, hys, rfl⟩, by rw [List.map_cons, List.map_cons, hxy, hall]⟩

theorem Edit.rootChange?_eq_none {e : Edit} (h : e.parent?.isSome) : e.rootChange? = none := by
  unfold parent? at h
  unfold rootChange?
  split at h <;> simp_all

section Reconciled

variable {t : Tree} {doc : List Lexeme} (ht : Placed t.roots doc)

include ht

/-- The groups of edits inside nodes of the tree. -/
theorem exists_groups {edits : List Edit} (hparents : ∀ e ∈ edits, ∀ parent ∈ e.parent?, parent ∈ t.ids) :
    ∃ anchors groups, List.Forall₂ (Edit.Anchor t) edits anchors ∧ (∀ a, some a ∈ anchors → t.Stands a) ∧
      groupEdits t edits = .ok groups ∧ Grouped anchors groups := by
  obtain ⟨anchors, hanchors, hstands⟩ := exists_anchors hparents
  obtain ⟨groups, hgroups, hgrouped⟩ := groupEdits_grouped hanchors (ht.nested hstands)
  exact ⟨anchors, groups, hanchors, hstands, hgroups, hgrouped⟩

theorem Grouped.separate {anchors : List (Option Node)} {groups : List EditGroup} (h : Grouped anchors groups)
    (hstands : ∀ a, some a ∈ anchors → t.Stands a) :
    groups.Pairwise fun g g' => g.range.Separate g'.range := by
  refine (List.pairwise_map.1 h.apart).imp_of_mem fun {g g'} hg hg' hapart => ?_
  obtain ⟨a, ha, hrange⟩ := h.range_mem hg
  obtain ⟨a', ha', hrange'⟩ := h.range_mem hg'
  rw [hrange, hrange'] at hapart ⊢
  rcases ht.nestedOrSeparate_of_stands (hstands a ha) (hstands a' ha') with hin | hin | hseparate
  · exact absurd hin hapart.1
  · exact absurd hin hapart.2
  · exact hseparate

theorem Grouped.range_proper {anchors : List (Option Node)} {groups : List EditGroup} (h : Grouped anchors groups)
    (hstands : ∀ a, some a ∈ anchors → t.Stands a) {g : EditGroup} (hg : g ∈ groups) :
    g.range.start < g.range.stop := by
  obtain ⟨a, ha, hrange⟩ := h.range_mem hg
  obtain ⟨root, hroot, hwithin⟩ := hstands a ha
  rw [hrange]
  exact ht.range_proper hroot hwithin

omit ht in
theorem Grouped.exists_toTextChange {anchors : List (Option Node)} {groups : List EditGroup}
    (h : Grouped anchors groups) (hstands : ∀ a, some a ∈ anchors → t.Stands a) {g : EditGroup} (hg : g ∈ groups)
    (edits : List Edit) (width : Nat) :
    ∃ c, (g.toTextChange t edits width).1 = .ok c ∧ c.span = g.range := by
  obtain ⟨a, ha, hid, -, hcached⟩ := h.anchor g hg
  refine EditGroup.exists_toTextChange hcached ?_ _ _
  rw [hid]
  exact List.mem_map_of_mem (hstands a ha).mem_nodes

/-- Edits inside nodes have text changes with the ranges of their groups, and these do not overlap. -/
theorem textChanges_separate {edits : List Edit} (hparents : ∀ e ∈ edits, ∀ parent ∈ e.parent?, parent ∈ t.ids)
    {whole : List EditGroup} (hwhole : groupEdits t edits = .ok whole) (hinside : ∀ e ∈ edits, e.parent?.isSome)
    (width : Nat) :
    ∃ changes, textChanges t edits width = .ok changes ∧
      (changes.map TextChange.span).Perm (whole.map EditGroup.range) ∧ refuseOverlap changes = .ok () := by
  have hperm : (Edit.latestFirst edits).Perm edits := List.mergeSort_perm _ _
  obtain ⟨anchors, groups, hanchors, hstands, hgroups, hgrouped⟩ :=
    exists_groups ht fun e he => hparents e (hperm.subset he)
  obtain ⟨anchors', whole', hanchors', -, hwhole', hgrouped'⟩ := exists_groups ht hparents
  cases hwhole.symm.trans hwhole'
  have hroots : (Edit.latestFirst edits).filterMap Edit.rootChange? = [] :=
    List.filterMap_eq_nil_iff.2 fun e he => Edit.rootChange?_eq_none (hinside e (hperm.subset he))
  obtain ⟨printed, hprinted, hspans⟩ := exists_mapM_map_eq fun g hg =>
    hgrouped.exists_toTextChange hstands hg (Edit.latestFirst edits) width
  refine ⟨latestFirst printed, ?_, ?_, ?_⟩
  · rw [textChanges, hgroups]
    simp only [bind, Except.bind, hprinted, hroots, List.nil_append, pure, Except.pure]
  · refine ((List.mergeSort_perm _ _).map _).trans ?_
    rw [hspans]
    refine hgrouped'.ranges_perm hgrouped fun a => ?_
    rw [mem_anchors_iff hanchors, mem_anchors_iff hanchors']
    simp only [hperm.mem_iff]
  · have hordered : ∀ c ∈ printed, c.start ≤ c.stop := by
      intro c hc
      have hmem := List.mem_map_of_mem (f := TextChange.span) hc
      rw [hspans] at hmem
      obtain ⟨g, hg, hrange⟩ := List.mem_map.1 hmem
      show c.span.start ≤ c.span.stop
      rw [← hrange]
      exact (hgrouped.range_proper ht hstands hg).le
    have hseparate : (printed.map TextChange.span).Pairwise Span.Separate := by
      rw [hspans]
      exact List.pairwise_map.2 (hgrouped.separate ht hstands)
    refine refuseOverlap_of_pairwise ((apart_iff_latestFirst hordered).1 ?_)
    refine (List.pairwise_map.1 hseparate).imp_of_mem fun hc hd hcd => ?_
    exact (Span.not_overlaps_iff (hordered _ hc) (hordered _ hd)).2 hcd

end Reconciled

/-- In a tree with whatever identities it got, edits whose parents are in the tree fall into groups: every edit
inside a node is in one of them, once, and no edit between the roots is in any. Their ranges are separate, and
edits inside nodes alone give one text change for the range of each group, so that the changes do not overlap.
Another order of the edits gives the same groups in another order, with members named accordingly. -/
theorem edits_fall_into_separate_groups {text : String} {read : List Node} (hread : readDocument text = .ok read)
    (old : Tree) (ids : IdSource) {edits : List Edit}
    (hparents : ∀ e ∈ edits, ∀ parent ∈ e.parent?, parent ∈ (reconcile old read ids).1.ids) :
    ∃ groups, groupEdits (reconcile old read ids).1 edits = .ok groups ∧
      (groups.flatMap EditGroup.members).Perm
        ((List.range edits.length).filter fun i => (edits[i]?.bind Edit.parent?).isSome) ∧
      (groups.Pairwise fun g g' => g.range.Separate g'.range) ∧
      ((∀ e ∈ edits, e.parent?.isSome) → ∀ width, ∃ changes,
        textChanges (reconcile old read ids).1 edits width = .ok changes ∧
        (changes.map TextChange.span).Perm (groups.map EditGroup.range) ∧ refuseOverlap changes = .ok ()) ∧
      ∀ (σ : Equiv.Perm Nat) (shuffled : List Edit), (∀ i, shuffled[i]? = edits[σ i]?) →
        ∃ groups', groupEdits (reconcile old read ids).1 shuffled = .ok groups' ∧
          (groups'.map (EditGroup.renamed σ)).Perm (groups.map (EditGroup.renamed id)) := by
  obtain ⟨doc, -, hplaced⟩ := readDocument_placed hread (reconcile_anonymous old read ids)
  obtain ⟨anchors, groups, hanchors, hstands, hgroups, hgrouped⟩ := exists_groups hplaced hparents
  refine ⟨groups, hgroups, hgrouped.members_perm (hplaced.nested hstands) hanchors,
    hgrouped.separate hplaced hstands, textChanges_separate hplaced hparents hgroups, fun σ shuffled hσ => ?_⟩
  have hmem : ∀ e ∈ shuffled, e ∈ edits := by
    intro e he
    obtain ⟨i, hi⟩ := List.mem_iff_getElem?.1 he
    exact List.mem_of_getElem? ((hσ i).symm.trans hi)
  obtain ⟨anchors', groups', hanchors', -, hgroups', hgrouped'⟩ :=
    exists_groups hplaced fun e he => hparents e (hmem e he)
  have hpermuted : ∀ i, anchors'[i]? = anchors[σ i]? := fun i => anchors_permuted hanchors hanchors' (hσ i)
  have hsame : ∀ a b : Node, some a ∈ anchors → some b ∈ anchors → a.range = b.range → a.id = b.id := by
    intro a b ha hb heq
    rw [hplaced.eq_of_range_eq (hstands a ha) (hstands b hb) heq]
  exact ⟨groups', hgroups', hgrouped.renamed_perm hgrouped' hsame σ hpermuted⟩

/-- An edit in the test, whose range covers the keyword, and one in the conditional around it. -/
theorem edits_fall_into_separate_groups_commented_keyword :
    let edits := [⟨⟨1, 3⟩, ⟨1, 3⟩, .insertChild ⟨2⟩ "args" 0 "x"⟩, ⟨⟨2, 0⟩, ⟨2, 0⟩, .insertRoot "y"⟩,
      ⟨⟨1, 5⟩, ⟨1, 6⟩, .replaceChild ⟨4⟩ ⟨1⟩ "then" 0 "z"⟩]
    ∃ read groups, readDocument "(; c\nif a b)" = .ok read ∧
      (∀ e ∈ edits, ∀ parent ∈ e.parent?, parent ∈ (reconcile .empty read .new).1.ids) ∧
      groupEdits (reconcile .empty read .new).1 edits = .ok groups ∧
      (groups.flatMap EditGroup.members).Perm [0, 2] := by
  intro edits
  obtain ⟨read, hread, hids⟩ : ∃ read, readDocument "(; c\nif a b)" = .ok read ∧
      (reconcile .empty read .new).1.ids = [⟨1⟩, ⟨2⟩, ⟨4⟩] :=
    Except.exists_ok (by decide +kernel)
  have hparents : ∀ e ∈ edits, ∀ parent ∈ e.parent?, parent ∈ (reconcile .empty read .new).1.ids := by
    rw [hids]
    decide
  obtain ⟨groups, hgroups, hmembers, -⟩ := edits_fall_into_separate_groups hread .empty .new hparents
  exact ⟨read, groups, hread, hparents, hgroups, hmembers⟩

end TreeEdit
