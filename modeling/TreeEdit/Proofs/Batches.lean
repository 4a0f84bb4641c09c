import TreeEdit.Proofs.Copies

/-!
# Batches of edits

A batch of edits made against one tree that do not get in each other's way is carried out as a whole: the
nodes that are printed again are the outermost ones that an edit touches, and each is printed with all
edits made at once (`textChanges_eq`).
-/

namespace TreeEdit

open Edit Lexeme

namespace Edit

/-- The edit is in a node that the other edit takes away or replaces. -/
def Inside (t : Tree) (e e' : Edit) : Prop :=
  ∃ node n parent, e'.target? = some node ∧ t.get? node = some n ∧ e.parent? = some parent ∧
    n.containsId parent = true

/-- Two edits do not get in each other's way. -/
structure Compatible (t : Tree) (e e' : Edit) : Prop where
  /-- They are not about one child. -/
  targets : ∀ node, e.target? = some node → e'.target? ≠ some node
  /-- They do not put text in at one position. -/
  positions : e.inserts → e'.inserts → e.start ≠ e'.start
  /-- They do not put text into one optional place. -/
  places : e.inserts → e'.inserts → ∀ n ∈ t.nodes, ∀ field i j, e.place? = some (n.id, field, i) →
    e'.place? = some (n.id, field, j) → n.kind.slot? field ≠ some (.optional field none)
  /-- Neither is inside a node that the other takes away or replaces. -/
  outside : ¬ Inside t e e' ∧ ¬ Inside t e' e

theorem Compatible.symm {t : Tree} {e e' : Edit} (h : Compatible t e e') : Compatible t e' e where
  targets node htarget htarget' := h.targets node htarget' htarget
  positions hinserts hinserts' := (h.positions hinserts' hinserts).symm
  places hinserts hinserts' n hn field i j hplace hplace' :=
    h.places hinserts' hinserts n hn field j i hplace' hplace
  outside := h.outside.symm

instance (t : Tree) : Std.Symm (Compatible t) := ⟨fun _ _ h => h.symm⟩

/-- Text can be put in together with a node taken away or replaced, unless it goes inside the node. -/
theorem compatible_of_inserts {t : Tree} {e e' : Edit} (he : e.inserts) (he' : ¬ e'.inserts)
    (houtside : ¬ Inside t e e') : Compatible t e e' := by
  have htarget : e.target? = none := by
    obtain ⟨start, stop, kind⟩ := e
    cases kind <;> first | rfl | cases he
  refine ⟨fun node h => ?_, fun _ h => absurd h he', fun _ h => absurd h he', houtside, ?_⟩
  · rw [htarget] at h
    cases h
  · rintro ⟨node, n, parent, h, -⟩
    rw [htarget] at h
    cases h

theorem latestFirst_sorted (edits : List Edit) :
    (latestFirst edits).Pairwise fun e e' => rangeLe e'.span e.span = true := by
  refine List.pairwise_mergeSort ?_ ?_ edits
  · intro a b c hab hbc
    exact rangeLe_trans hbc hab
  · intro a b
    exact rangeLe_total _ _

theorem latestFirst_perm (edits : List Edit) : (latestFirst edits).Perm edits := List.mergeSort_perm _ _

theorem start_le_of_rangeLe {a b : Span} (h : rangeLe a b = true) : a.start ≤ b.start := by
  simp only [rangeLe, Bool.or_eq_true, Bool.and_eq_true, decide_eq_true_eq] at h
  rcases h with h | h
  · exact h.le
  · exact h.1.le

/-- Text goes into a list before every child and every text that a later edit is about. -/
theorem index_le {a m m' : Node} (ha : a.Identified) (hm : m ∈ a.walk) (hm' : m' ∈ a.walk) {field : String}
    {ns : List Node} (hplace : m.kind.slot? field = some (.list field ns)) {e : Edit} (hfits : e.Fits m')
    {i : Nat} (he : e.place? = some (m.id, field, i)) {pos : Pos} (hpos : pos ≤ e.start) :
    (ns.findIdx fun n => pos ≤ n.range.start) ≤ i := by
  have hsame : m'.id = m.id → m' = m := fun hid => ha.eq_of_id_eq hm' hm hid
  have hchild : ∀ {c : Node} {i : Nat}, ns[i]? = some c → pos ≤ c.range.start →
      (ns.findIdx fun n => pos ≤ n.range.start) ≤ i := by
    intro c i hc hle
    by_contra hlt
    obtain ⟨hi, rfl⟩ := List.getElem?_eq_some_iff.1 hc
    have hnot := List.not_of_lt_findIdx (not_le.1 hlt)
    simp [hle] at hnot
  -- The later edit is in the same list, so it is about a child behind the place or puts text in behind it.
  cases hfits with
  | @insertList pos' field' text ns' hplace' =>
      simp only [place?, Option.some.injEq, Prod.mk.injEq] at he
      obtain ⟨hid, rfl, rfl⟩ := he
      obtain rfl := hsame hid
      cases hplace.symm.trans hplace'
      exact List.findIdx_le_findIdx fun n _ hle => by simpa using hpos.trans (by simpa using hle)
  | insertOptional hplace' =>
      simp only [place?, Option.some.injEq, Prod.mk.injEq] at he
      obtain ⟨hid, rfl, rfl⟩ := he
      obtain rfl := hsame hid
      cases hplace.symm.trans hplace'
  | delete hplace' child | replace hplace' child =>
      simp only [place?, Option.some.injEq, Prod.mk.injEq] at he
      obtain ⟨hid, rfl, rfl⟩ := he
      obtain rfl := hsame hid
      cases hplace.symm.trans hplace'
      exact hchild child hpos

section Compatible

variable {t : Tree} {edits : List Edit} (hcompat : edits.Pairwise (Compatible t))
  (hlatest : edits.Pairwise fun e e' => rangeLe e'.span e.span = true)

include hcompat hlatest

theorem settled_of_compatible : Settled edits := by
  constructor
  · refine ((hcompat.and hlatest).filter _).imp_of_mem ?_
    rintro e e' he he' ⟨hcompat, hle⟩
    have hne := hcompat.positions (by simpa using (List.mem_filter.1 he).2) (by simpa using (List.mem_filter.1 he').2)
    exact lt_of_le_of_ne (start_le_of_rangeLe hle) hne.symm
  · intro e he e' he' node htarget htarget'
    by_contra hne
    exact (hcompat.forall he he' hne).targets node htarget htarget'

/-- Compatible edits, latest first, can be carried out in turn on a copy of a node that they fit in. -/
theorem turn_of_compatible (ht : t.Distinct) {a : Node} (ha : a ∈ t.nodes)
    (hfits : ∀ e ∈ edits, ∃ m ∈ a.walk, e.Fits m) : Turn a edits where
  identified := ht.identified ha
  fits := hfits
  once := by
    refine hcompat.imp fun {e e'} h id hfate => ?_
    by_contra hfate'
    exact h.targets id (fateOf?_ne_none.1 hfate) (fateOf?_ne_none.1 hfate')
  apart := by
    intro e he e' he' m hm hfate parent hparent hmem
    have hnode : m ∈ t.nodes := Tree.mem_nodes_of_mem_walk ha hm
    by_cases heq : e = e'
    · subst heq
      -- The parent of an edit is not inside the child that the edit is about.
      obtain ⟨p, hp, hfit⟩ := hfits e he
      obtain ⟨s, field, index, c, hs, hc, hid, -⟩ := hfit.of_fate hfate
      rw [hfit.parent?_eq] at hparent
      cases hparent
      have hchild : c ∈ p.children :=
        List.mem_flatMap.2 ⟨s, (Kind.slot?_eq_some_iff.1 hs).1, List.mem_of_getElem? hc⟩
      have hpnode : p ∈ t.nodes := Tree.mem_nodes_of_mem_walk ha hp
      have hcnode : c ∈ t.nodes := Tree.mem_nodes_of_mem_walk hpnode (Node.mem_walk_of_child hchild)
      obtain rfl := ht.eq_of_id_eq hcnode hnode hid
      refine (ht.identified hpnode).not_mem_below (List.mem_flatMap.2 ⟨c, hchild, hmem⟩)
    · refine (hcompat.forall he he' heq).outside.1 ⟨m.id, m, parent, fateOf?_ne_none.1 hfate, ht.get?_eq hnode,
        hparent, ?_⟩
      obtain ⟨l, hl, hid⟩ := List.mem_map.1 hmem
      exact List.any_eq_true.2 ⟨l, hl, by simpa using hid⟩
  order := by
    refine hlatest.imp_of_mem fun {done e} hdone he hle parent field i j hplace hplace' hinserts => ?_
    have hstart := start_le_of_rangeLe hle
    obtain ⟨m, hm, hfit⟩ := hfits e he
    obtain ⟨m', hm', hfit'⟩ := hfits done hdone
    cases hfit with
    | insertOptional place =>
        cases hplace'
        exact Nat.zero_le i
    | delete place child => cases hinserts
    | replace place child => cases hinserts
    | @insertList pos field' text ns place =>
        cases hplace'
        exact index_le (ht.identified ha) hm hm' place hfit' hplace hstart
  filled := by
    refine hcompat.imp fun {done e} h parent field i j hplace hplace' hinserts hinserts' m hm hid => ?_
    subst hid
    exact h.places hinserts hinserts' m (Tree.mem_nodes_of_mem_walk ha hm) field i j hplace hplace'

end Compatible

end Edit

/-! ## The groups of a batch -/

section Pointwise

variable {α β : Type} {R : α → β → Prop}

theorem forall₂_of_exists {as : List α} (h : ∀ a ∈ as, ∃ b, R a b) : ∃ bs, List.Forall₂ R as bs := by
  induction as with
  | nil => exact ⟨[], .nil⟩
  | cons a as ih =>
      obtain ⟨⟨b, hb⟩, has⟩ := List.forall_mem_cons.1 h
      obtain ⟨bs, hbs⟩ := ih has
      exact ⟨b :: bs, .cons hb hbs⟩

theorem forall₂_getElem? {as : List α} {bs : List β} (h : List.Forall₂ R as bs) {i : Nat} {a : α}
    (ha : as[i]? = some a) : ∃ b, bs[i]? = some b ∧ R a b := by
  induction h generalizing i with
  | nil => cases ha
  | cons hab _ ih =>
      cases i with
      | zero =>
          cases ha
          exact ⟨_, rfl, hab⟩
      | succ i => exact ih ha

end Pointwise

/-- The edit has this anchor, which stands around the node that the edit fits. -/
structure Edit.Anchored (t : Tree) (e : Edit) (x : Option Node) : Prop where
  anchor : e.Anchor t x
  stands : ∀ a ∈ x, t.Stands a ∧ a.Bracketed ∧ e.Touches a
  fits : ∀ a ∈ x, ∃ m ∈ a.walk, e.Fits m

/-- The group prints this node again. -/
structure EditGroup.Prints (t : Tree) (g : EditGroup) (a : Node) : Prop where
  stands : t.Stands a
  bracketed : a.Bracketed
  ancestor : g.ancestor = a.id
  range : g.range = a.range
  uncached : g.cached = none

namespace Edit

variable {t : Tree} {doc : List Lexeme} (ht : t.Orderly doc) {edits : List Edit}
  {anchors : List (Option Node)} (hanchors : List.Forall₂ (Anchored t) edits anchors)
  {groups : List EditGroup} (hgroups : Grouped anchors groups) {g : EditGroup} (hg : g ∈ groups)
  {a : Node} (ha : g.Prints t a)

include hanchors in
theorem anchored_of_mem {b : Node} (hb : some b ∈ anchors) : ∃ e ∈ edits, e.Anchored t (some b) := by
  obtain ⟨i, hi⟩ := List.getElem?_of_mem hb
  obtain ⟨e, he, hanchored⟩ := forall₂_getElem? hanchors.flip hi
  exact ⟨e, List.mem_of_getElem? he, hanchored⟩

section Members

include ht hanchors hgroups hg ha

/-- The members of a group are the edits with their anchor within the node of the group. -/
theorem mem_members {e : Edit} : e ∈ g.members.filterMap (edits[·]?) ↔
    ∃ (i : Nat) (b : Node), edits[i]? = some e ∧ anchors[i]? = some (some b) ∧ e.Anchored t (some b) ∧
      a.Within b := by
  rw [List.mem_filterMap]
  constructor
  · rintro ⟨i, hi, he⟩
    obtain ⟨b, hb, hcontains⟩ := (hgroups.members g hg i).1 hi
    obtain ⟨x, hx, hanchored⟩ := forall₂_getElem? hanchors he
    cases hx.symm.trans hb
    obtain ⟨hstands, hlist, -⟩ := hanchored.stands b rfl
    rw [ha.range] at hcontains
    exact ⟨i, b, he, hb, hanchored, (ht.contains_iff_within ha.stands hstands ha.bracketed hlist).1 hcontains⟩
  · rintro ⟨i, b, he, hb, hanchored, hwithin⟩
    obtain ⟨hstands, hlist, -⟩ := hanchored.stands b rfl
    refine ⟨i, (hgroups.members g hg i).2 ⟨b, hb, ?_⟩, he⟩
    rw [ha.range]
    exact (ht.contains_iff_within ha.stands hstands ha.bracketed hlist).2 hwithin

theorem members_fit {e : Edit} (he : e ∈ g.members.filterMap (edits[·]?)) : ∃ m ∈ a.walk, e.Fits m := by
  obtain ⟨i, b, -, -, hanchored, hwithin⟩ := (mem_members ht hanchors hgroups hg ha).1 he
  obtain ⟨m, hm, hfits⟩ := hanchored.fits b rfl
  exact ⟨m, Node.mem_walk_trans hwithin.mem_walk hm, hfits⟩

/-- An edit in a node of the copy is a member of the group. -/
theorem mem_members_of_inside {e : Edit} (he : e ∈ edits) {id : NodeId} (hparent : e.parent? = some id)
    (hid : id ∈ a.ids) : e ∈ g.members.filterMap (edits[·]?) := by
  obtain ⟨i, hi⟩ := List.getElem?_of_mem he
  obtain ⟨x, hx, hanchored⟩ := forall₂_getElem? hanchors hi
  cases x with
  | none =>
      obtain ⟨⟨hroot⟩, -, -⟩ := hanchored
      rw [hroot] at hparent
      cases hparent
  | some b =>
      obtain ⟨hstands, hlist, -⟩ := hanchored.stands b rfl
      obtain ⟨m, hm, hfits⟩ := hanchored.fits b rfl
      obtain ⟨l, hl, hlid⟩ := List.mem_map.1 hid
      rw [hfits.parent?_eq] at hparent
      have hmnode : m ∈ t.nodes := Tree.mem_nodes_of_mem_walk hstands.mem_nodes hm
      have hlnode : l ∈ t.nodes := Tree.mem_nodes_of_mem_walk ha.stands.mem_nodes hl
      obtain rfl := ht.distinct.eq_of_id_eq hmnode hlnode ((Option.some.inj hparent).trans hlid.symm)
      refine (mem_members ht hanchors hgroups hg ha).2 ⟨i, b, hi, hx, hanchored, ?_⟩
      rcases ht.distinct.nested ha.stands.mem_nodes hstands.mem_nodes hl hm with hab | hba
      · -- The anchor is around the node of the group, so it is in the same group.
        obtain ⟨g', hg', hcontains⟩ := hgroups.covers b (List.mem_of_getElem? hx)
        have hba := ha.stands.within_of_mem_walk ht.distinct hstands.mem_nodes hab
        have hin := Span.contains_trans hcontains
          ((ht.contains_iff_within hstands ha.stands hlist ha.bracketed).2 hba)
        rw [← ha.range] at hin
        obtain rfl := hgroups.eq_of_contains hg' hg hin
        rw [ha.range] at hcontains
        exact (ht.contains_iff_within ha.stands hstands ha.bracketed hlist).1 hcontains
      · exact hstands.within_of_mem_walk ht.distinct ha.stands.mem_nodes hba

end Members

variable (hcompat : edits.Pairwise (Compatible t))

include hgroups hg hcompat

theorem members_compatible : (g.members.filterMap (edits[·]?)).Pairwise (Compatible t) := by
  refine List.pairwise_filterMap.2 ((hgroups.nodup g hg).imp fun {i j} hne e he e' he' => ?_)
  obtain ⟨hi, rfl⟩ := List.getElem?_eq_some_iff.1 he
  obtain ⟨hj, rfl⟩ := List.getElem?_eq_some_iff.1 he'
  have hpairs := List.pairwise_iff_getElem.1 hcompat
  rcases lt_or_gt_of_ne hne with hlt | hlt
  · exact hpairs i j hi hj hlt
  · exact (hpairs j i hj hi hlt).symm

variable (hlatest : edits.Pairwise fun e e' => rangeLe e'.span e.span = true)

include ht hanchors ha hlatest

/-- The copy of the node of a group ends up with all edits of the batch made in it. -/
theorem graftAll_members :
    EditGroup.graftAll a (latestFirst (g.members.filterMap (edits[·]?))) = .ok (a.edited edits) := by
  have hperm := latestFirst_perm (g.members.filterMap (edits[·]?))
  have hmembers : (latestFirst (g.members.filterMap (edits[·]?))).Pairwise (Compatible t) :=
    (hperm.pairwise_iff fun h => h.symm).2 (members_compatible hgroups hg hcompat)
  have hsorted := latestFirst_sorted (g.members.filterMap (edits[·]?))
  have hturn := turn_of_compatible hmembers hsorted ht.distinct ha.stands.mem_nodes fun e he =>
    members_fit ht hanchors hgroups hg ha (hperm.subset he)
  rw [hturn.graftAll_eq]
  refine congrArg Except.ok (Node.edited_of_mem_iff (settled_of_compatible hmembers hsorted)
    (settled_of_compatible hcompat hlatest) fun id hid e => ?_)
  simp only [inside, List.mem_filter, decide_eq_true_eq, hperm.mem_iff]
  refine and_congr_left fun hparent => ⟨fun he => ?_, fun he => ?_⟩
  · obtain ⟨i, -, hi⟩ := List.mem_filterMap.1 he
    exact List.mem_of_getElem? hi
  · exact mem_members_of_inside ht hanchors hgroups hg ha he hparent hid

end Edit

/-- What a node is printed as, with edits made in it. -/
def Node.reprinted (edits : List Edit) (width : Nat) (a : Node) : String :=
  hangingIndent ((a.edited edits).pretty (max (width - a.range.start.ch) 1)) a.range.start.ch

open Edit in
theorem EditGroup.toTextChange_eq {t : Tree} {doc : List Lexeme} (ht : t.Orderly doc) {edits : List Edit}
    {anchors : List (Option Node)} (hanchors : List.Forall₂ (Anchored t) edits anchors)
    {groups : List EditGroup} (hgroups : Grouped anchors groups) {g : EditGroup} (hg : g ∈ groups)
    {a : Node} (ha : g.Prints t a) (hcompat : edits.Pairwise (Compatible t))
    (hlatest : edits.Pairwise fun e e' => rangeLe e'.span e.span = true) (width : Nat) :
    (g.toTextChange t edits width).1 = .ok (a.printOver (a.reprinted edits width)) := by
  have hget : t.get? g.ancestor = some a := by rw [ha.ancestor, ht.distinct.get?_eq ha.stands.mem_nodes]
  have hreprint : g.reprint t edits width = .ok (a.printOver (a.reprinted edits width)) := by
    unfold reprint
    rw [hget]
    simp only
    rw [graftAll_members ht hanchors hgroups hg ha hcompat hlatest, ha.range]
    rfl
  rw [toTextChange, ha.uncached]
  simp only
  rw [hreprint]

/-! ## The text changes of a batch -/

/-- One of the edits is in a place of the node, or of its parameter list. -/
def Edit.Touched (edits : List Edit) (n : Node) : Prop := ∃ e ∈ edits, e.Touches n

/-- The outermost chosen nodes are determined by the choice. -/
theorem Outermost.perm {K : Node → Prop} {ns as bs : List Node} (ha : Outermost K ns as)
    (hb : Outermost K ns bs) (hapart : as.Pairwise fun m l => ¬ m.Within l ∧ ¬ l.Within m)
    (hbpart : bs.Pairwise fun m l => ¬ m.Within l ∧ ¬ l.Within m) : as.Perm bs := by
  have hnodup : ∀ {cs : List Node}, cs.Pairwise (fun m l => ¬ m.Within l ∧ ¬ l.Within m) → cs.Nodup := by
    intro cs hcs
    refine hcs.imp ?_
    rintro m l hne rfl
    exact hne.1 (.self m)
  have hsymm : Std.Symm fun m l : Node => ¬ m.Within l ∧ ¬ l.Within m := ⟨fun _ _ h => h.symm⟩
  have hsub : ∀ {cs ds : List Node}, Outermost K ns cs → Outermost K ns ds →
      cs.Pairwise (fun m l => ¬ m.Within l ∧ ¬ l.Within m) → ∀ m ∈ cs, m ∈ ds := by
    intro cs ds hc hd hcs m hm
    obtain ⟨hk, n, hn, hnm⟩ := hc.chosen m hm
    obtain ⟨d, hdmem, hdm⟩ := hd.covers n hn m hnm hk
    obtain ⟨hk', n', hn', hnd⟩ := hd.chosen d hdmem
    obtain ⟨c, hcmem, hcd⟩ := hc.covers n' hn' d hnd hk'
    obtain rfl : c = m := by
      by_contra hne
      exact (hcs.forall hcmem hm hne).1 (hcd.trans hdm)
    rwa [hcd.antisymm hdm] at hdmem
  exact (List.perm_ext_iff_of_nodup (hnodup hapart) (hnodup hbpart)).2 fun m =>
    ⟨hsub ha hb hapart m, hsub hb ha hbpart m⟩

theorem mapM_groups {t : Tree} {groups : List EditGroup} {f : EditGroup → Except EditError TextChange}
    {change : Node → TextChange}
    (h : ∀ g ∈ groups, ∃ a, t.get? g.ancestor = some a ∧ f g = .ok (change a)) :
    groups.mapM f = .ok ((groups.filterMap fun g => t.get? g.ancestor).map change) := by
  induction groups with
  | nil => rfl
  | cons g groups ih =>
      obtain ⟨⟨a, hget, hf⟩, hgroups⟩ := List.forall_mem_cons.1 h
      refine mapM_cons_eq_ok.2 ⟨change a, _, hf, ih hgroups, ?_⟩
      rw [List.filterMap_cons, hget, List.map_cons]

namespace Edit

variable {t : Tree} {doc : List Lexeme} (ht : t.Orderly doc) {edits : List Edit}
  (hfits : ∀ e ∈ edits, e.parent? = none ∨ ∃ m ∈ t.nodes, e.Fits m)

include ht hfits

theorem exists_anchors : ∃ anchors, List.Forall₂ (Anchored t) edits anchors := by
  refine forall₂_of_exists fun e he => ?_
  rcases hfits e he with hroot | ⟨m, hm, hfit⟩
  · exact ⟨none, .none hroot, by simp, by simp⟩
  · obtain ⟨a, hanchor, hstands, hlist, htouches, hma⟩ := hfit.anchor ht.distinct hm
    refine ⟨some a, hanchor, ?_, ?_⟩
    · rintro _ ⟨⟩
      exact ⟨hstands, hlist, htouches⟩
    · rintro _ ⟨⟩
      exact ⟨m, hma, hfit⟩

end Edit

open Edit in
/-- A batch of compatible edits prints the outermost nodes that are touched, each with all edits made. -/
theorem textChanges_eq {t : Tree} {doc : List Lexeme} (ht : t.Orderly doc) {edits : List Edit}
    (hfits : ∀ e ∈ edits, e.parent? = none ∨ ∃ m ∈ t.nodes, e.Fits m)
    (hcompat : edits.Pairwise (Compatible t)) (width : Nat) :
    ∃ tops, Outermost (Touched edits) t.roots tops ∧
      tops.Pairwise (fun a b => ¬ a.Within b ∧ ¬ b.Within a) ∧
      textChanges t edits width = .ok (latestFirst ((Edit.latestFirst edits).filterMap Edit.rootChange? ++
        tops.map fun a => a.printOver (a.reprinted (Edit.latestFirst edits) width))) := by
  have hperm := Edit.latestFirst_perm edits
  obtain ⟨anchors, hanchors⟩ := exists_anchors ht fun e he => hfits e (hperm.subset he)
  have hstands : ∀ a, some a ∈ anchors → t.Stands a ∧ a.Bracketed := by
    intro a ha
    obtain ⟨e, -, hanchored⟩ := anchored_of_mem hanchors ha
    obtain ⟨hstands, hlist, -⟩ := hanchored.stands a rfl
    exact ⟨hstands, hlist⟩
  obtain ⟨groups, hgroups, hgrouped⟩ :=
    groupEdits_grouped (hanchors.imp fun _ _ h => h.anchor) (ht.nested hstands)
  have hprints : ∀ g ∈ groups, ∃ a, some a ∈ anchors ∧ t.get? g.ancestor = some a ∧ g.Prints t a := by
    intro g hg
    obtain ⟨a, ha, hancestor, hrange, hcached⟩ := hgrouped.anchor g hg
    obtain ⟨hsa, hla⟩ := hstands a ha
    exact ⟨a, ha, by rw [hancestor, ht.distinct.get?_eq hsa.mem_nodes], hsa, hla, hancestor, hrange, hcached⟩
  -- The nodes that are printed are the ancestors of the groups.
  refine ⟨groups.filterMap fun g => t.get? g.ancestor, ⟨?_, ?_⟩, ?_, ?_⟩
  · intro a ha
    obtain ⟨g, hg, hget⟩ := List.mem_filterMap.1 ha
    obtain ⟨a', ha', hget', hprint⟩ := hprints g hg
    cases hget.symm.trans hget'
    obtain ⟨e, he, hanchored⟩ := anchored_of_mem hanchors ha'
    exact ⟨⟨e, hperm.subset he, (hanchored.stands a rfl).2.2⟩, hprint.stands⟩
  · -- A node that an edit touches lies in the anchor of the edit, and the anchor in its group.
    rintro root hroot m hm ⟨e, he, htouches⟩
    obtain ⟨b, hanchor, hwithin, -⟩ := htouches.anchor ht.distinct ⟨root, hroot, hm⟩
    obtain ⟨i, hi⟩ := List.getElem?_of_mem (hperm.mem_iff.2 he)
    obtain ⟨x, hx, hanchored⟩ := forall₂_getElem? hanchors hi
    obtain rfl := hanchored.anchor.unique hanchor
    have hb := List.mem_of_getElem? hx
    obtain ⟨g, hg, hcontains⟩ := hgrouped.covers b hb
    obtain ⟨a, -, hget, hprint⟩ := hprints g hg
    rw [hprint.range, ht.contains_iff_within hprint.stands (hstands b hb).1 hprint.bracketed
      (hstands b hb).2] at hcontains
    exact ⟨a, List.mem_filterMap.2 ⟨g, hg, hget⟩, hcontains.trans hwithin⟩
  · refine List.pairwise_filterMap.2 ((List.pairwise_map.1 hgrouped.apart).imp_of_mem ?_)
    intro g g' hg hg' hapart a ha a' ha'
    obtain ⟨b, -, hget, hprint⟩ := hprints g hg
    obtain ⟨b', -, hget', hprint'⟩ := hprints g' hg'
    cases ha.symm.trans hget
    cases ha'.symm.trans hget'
    rwa [hprint.range, hprint'.range, ht.contains_iff_within hprint.stands hprint'.stands hprint.bracketed
      hprint'.bracketed, ht.contains_iff_within hprint'.stands hprint.stands hprint'.bracketed
      hprint.bracketed] at hapart
  · have hsorted : (Edit.latestFirst edits).Pairwise (Compatible t) :=
      (hperm.pairwise_iff fun h => h.symm).2 hcompat
    have hmapM : groups.mapM (fun g => (g.toTextChange t (Edit.latestFirst edits) width).1) =
        .ok ((groups.filterMap fun g => t.get? g.ancestor).map fun a =>
          a.printOver (a.reprinted (Edit.latestFirst edits) width)) := by
      refine mapM_groups fun g hg => ?_
      obtain ⟨a, -, hget, hprint⟩ := hprints g hg
      exact ⟨a, hget, EditGroup.toTextChange_eq ht hanchors hgrouped hg hprint hsorted
        (Edit.latestFirst_sorted edits) width⟩
    refine bind_eq_ok.2 ⟨groups, hgroups, bind_eq_ok.2 ⟨_, hmapM, rfl⟩⟩

end TreeEdit
