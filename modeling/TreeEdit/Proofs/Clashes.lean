import TreeEdit.Proofs.Reordering

/-!
# Edits that clash

Two edits clash if they want different things of one gap between the roots, of one position in a place, or of one
child. Which of them is carried out first then shows. It shows in no other case: edits of one range that do not
clash are the same or may change places (`Edit.Fits.tied`). So two orders of a batch that keep clashing edits in
order have the same text changes, unless these overlap (`textChanges_reordered`). If they do, both are refused.
-/

namespace TreeEdit

open Lexeme

/-! ## Edits that get in each other's way -/

/-- What an edit has to itself unless another one is in its way: a gap between the roots, a place that text goes
into, or a child that is taken away or replaced. -/
inductive Aim where
  | gap
  | slot (parent : NodeId) (field : String)
  | child (node : NodeId)
deriving DecidableEq

namespace Edit

def aim? (e : Edit) : Option Aim :=
  match e.kind with
  | .insertRoot _ => if e.start = e.stop then some .gap else none
  | .overwrite _ => if e.start = e.stop then some .gap else none
  | .insertChild parent field _ _ => some (.slot parent field)
  | .deleteChild node .. => some (.child node)
  | .replaceChild node .. => some (.child node)
  | .deleteRoot _ => none
  | .replaceRoot .. => none

/-- The text an edit puts in, inside a node or between the roots. -/
def newText? (e : Edit) : Option String := e.text?.or (e.rootChange?.map TextChange.text)

/-- The edits want different things of one gap, of one position in a place, or of one child. -/
def Clash (e e' : Edit) : Prop :=
  e.span = e'.span ∧ e.aim?.isSome ∧ e.aim? = e'.aim? ∧ e.newText? ≠ e'.newText?

instance (e e' : Edit) : Decidable (e.Clash e') := inferInstanceAs (Decidable (_ ∧ _ ∧ _ ∧ _))

/-- Edits that clash come in the same order in both batches. -/
def ClashesInOrder (edits edits' : List Edit) : Prop :=
  ∀ e ∈ edits, ∀ e' ∈ edits, e.Clash e' → AgreeOn e e' edits edits'

instance (edits edits' : List Edit) : Decidable (ClashesInOrder edits edits') :=
  inferInstanceAs (Decidable (∀ e ∈ edits, ∀ e' ∈ edits, e.Clash e' → AgreeOn e e' edits edits'))

theorem ClashesInOrder.symm {edits edits' : List Edit} (h : ClashesInOrder edits edits') (hperm : edits'.Perm edits) :
    ClashesInOrder edits' edits :=
  fun e he e' he' hclash => (h e (hperm.subset he) e' (hperm.subset he') hclash).symm

theorem parent?_eq_slot? (e : Edit) : e.parent? = e.slot?.map Prod.fst := by
  obtain ⟨start, stop, kind⟩ := e
  cases kind <;> rfl

end Edit

theorem Edit.Fits.of_target {e : Edit} {m : Node} (h : e.Fits m) {id : NodeId} (htarget : e.target? = some id) :
    ∃ c s field index, m.kind.slot? field = some s ∧ s.nodes[index]? = some c ∧ c.id = id ∧
      (e = ⟨c.range.start, c.range.stop, .deleteChild c.id m.id field index⟩ ∨
        ∃ text, e = ⟨c.range.start, c.range.stop, .replaceChild c.id m.id field index text⟩) := by
  cases h with
  | insertList place => cases htarget
  | insertOptional place => cases htarget
  | @delete c s field index place child =>
      cases htarget
      exact ⟨c, s, field, index, place, child, rfl, .inl rfl⟩
  | @replace c s field text index place child =>
      cases htarget
      exact ⟨c, s, field, index, place, child, rfl, .inr ⟨text, rfl⟩⟩

theorem Edit.Fits.of_not_target {e : Edit} {m : Node} (h : e.Fits m) (htarget : e.target? = none) :
    ∃ pos field index text, e = ⟨pos, pos, .insertChild m.id field index text⟩ ∧
      ((∃ ns, m.kind.slot? field = some (.list field ns) ∧ index = ns.findIdx fun n => pos ≤ n.range.start) ∨
        m.kind.slot? field = some (.optional field none) ∧ index = 0) := by
  cases h with
  | @insertList pos field text ns place => exact ⟨pos, field, _, text, rfl, .inl ⟨ns, place, rfl⟩⟩
  | @insertOptional pos field text place => exact ⟨pos, field, _, text, rfl, .inr ⟨place, rfl⟩⟩
  | delete place child => cases htarget
  | replace place child => cases htarget

section Reconciled

variable {t : Tree} {doc : List Lexeme} (ht : Placed t.roots doc) (hids : t.Distinct)

include ht hids

/-- The members of a list take up room. -/
theorem Placed.member_proper {m c : Node} {field : String} {ns : List Node} (hm : m ∈ t.nodes)
    (hplace : m.kind.slot? field = some (.list field ns)) (hc : c ∈ ns) : c.range.start < c.range.stop := by
  have hchild : c ∈ m.children := List.mem_flatMap.2 ⟨_, (Kind.slot?_eq_some_iff.1 hplace).1, hc⟩
  have hnode := Tree.mem_nodes_of_mem_walk hm (Node.mem_walk_of_child hchild)
  rcases Tree.stands_or_params hnode with ⟨root, hroot, hwithin⟩ | ⟨f, name, body, hf, hk, -⟩
  · exact ht.range_proper hroot hwithin
  · -- The parent would be a function definition, which has no lists.
    have hown : c ∈ f.children := by
      rw [Node.children, hk]
      simp [Kind.children, Kind.slots, Slot.nodes]
    obtain rfl := hids.parent_unique hm hf hchild hown
    rw [hk] at hplace
    grind [Kind.slot?, Kind.slots]

omit ht in
theorem Edit.Fits.assigned {e : Edit} {m : Node} (hm : m ∈ t.nodes) (h : e.Fits m) : e.Assigned := by
  have hnode : ∀ n ∈ t.nodes, n.id ≠ .unassigned := fun n hn heq => hids.assigned (heq ▸ List.mem_map_of_mem hn)
  constructor
  · rw [h.parent?_eq]
    rintro id ⟨⟩
    exact hnode m hm
  · intro id hid
    obtain ⟨c, s, field, index, hplace, hc, rfl, -⟩ := h.of_target hid
    refine hnode c (Tree.mem_nodes_of_mem_walk hm (Node.mem_walk_of_child ?_))
    exact List.mem_flatMap.2 ⟨s, (Kind.slot?_eq_some_iff.1 hplace).1, List.mem_of_getElem? hc⟩

/-- Text that is put into a place does not go where a child of the place is. -/
theorem Edit.Fits.not_tied {e e' : Edit} {m : Node} (hm : m ∈ t.nodes) (h : e.Fits m) (h' : e'.Fits m)
    (htarget : e.target? = none) {id : NodeId} (htarget' : e'.target? = some id) (hslot : e.slot? = e'.slot?) :
    e.span ≠ e'.span := by
  obtain ⟨pos, field, index, text, rfl, hplace⟩ := h.of_not_target htarget
  obtain ⟨c, s, field', index', hplace', hc, -, he'⟩ := h'.of_target htarget'
  have hfield : field = field' ∧ e'.span = c.range := by
    rcases he' with rfl | ⟨text', rfl⟩
    · cases hslot
      exact ⟨rfl, rfl⟩
    · cases hslot
      exact ⟨rfl, rfl⟩
  obtain ⟨rfl, hrange⟩ := hfield
  intro hspan
  rcases hplace with ⟨ns, hplace, -⟩ | ⟨hplace, -⟩
  · cases hplace.symm.trans hplace'
    have hproper := ht.member_proper hids hm hplace (List.mem_of_getElem? hc)
    rw [← hrange, ← hspan] at hproper
    exact lt_irrefl _ hproper
  · cases hplace.symm.trans hplace'
    simp [Slot.nodes] at hc

omit ht hids in
/-- Texts put in at one position of a place are the same, or clash. -/
theorem Edit.Fits.eq_or_clash_of_not_target {e e' : Edit} {m : Node} (h : e.Fits m) (h' : e'.Fits m)
    (htarget : e.target? = none) (htarget' : e'.target? = none) (hslot : e.slot? = e'.slot?)
    (hspan : e.span = e'.span) : e = e' ∨ e.Clash e' := by
  obtain ⟨pos, field, index, text, rfl, hplace⟩ := h.of_not_target htarget
  obtain ⟨pos', field', index', text', rfl, hplace'⟩ := h'.of_not_target htarget'
  cases hspan
  cases hslot
  obtain rfl : index = index' := by
    rcases hplace with ⟨ns, hplace, hindex⟩ | ⟨hplace, hindex⟩ <;>
      rcases hplace' with ⟨ns', hplace', hindex'⟩ | ⟨hplace', hindex'⟩ <;>
      cases hplace.symm.trans hplace' <;> exact hindex.trans hindex'.symm
  by_cases htext : text = text'
  · subst htext
    exact .inl rfl
  · exact .inr ⟨rfl, rfl, rfl, fun h => htext (Option.some.inj h)⟩

omit ht in
/-- Edits of one child are the same, or clash. -/
theorem Edit.Fits.eq_or_clash_of_target {e e' : Edit} {m : Node} (hm : m ∈ t.nodes) (h : e.Fits m) (h' : e'.Fits m)
    {id : NodeId} (htarget : e.target? = some id) (htarget' : e'.target? = some id)
    (hslot : e.slot? = e'.slot?) : e = e' ∨ e.Clash e' := by
  obtain ⟨c, s, field, index, hplace, hc, rfl, he⟩ := h.of_target htarget
  obtain ⟨c', s', field', index', hplace', hc', hid, he'⟩ := h'.of_target htarget'
  obtain rfl : field = field' := by
    rcases he with rfl | ⟨text, rfl⟩ <;> rcases he' with rfl | ⟨text', rfl⟩ <;> cases hslot <;> rfl
  cases hplace.symm.trans hplace'
  obtain rfl := (hids.identified hm).index_unique (Kind.slot?_eq_some_iff.1 hplace).1 hc hc' hid.symm
  cases hc.symm.trans hc'
  rcases he with rfl | ⟨text, rfl⟩ <;> rcases he' with rfl | ⟨text', rfl⟩
  · exact .inl rfl
  · exact .inr ⟨rfl, rfl, rfl, nofun⟩
  · exact .inr ⟨rfl, rfl, rfl, nofun⟩
  · by_cases htext : text = text'
    · subst htext
      exact .inl rfl
    · exact .inr ⟨rfl, rfl, rfl, fun h => htext (Option.some.inj h)⟩

/-- Edits inside nodes that have one range are the same, or may change places, or clash. -/
theorem Edit.Fits.tied {e e' : Edit} {m m' : Node} (hm : m ∈ t.nodes) (hm' : m' ∈ t.nodes) (h : e.Fits m)
    (h' : e'.Fits m') (hspan : e.span = e'.span) :
    e = e' ∨ e.Independent e' ∨ e.slot? = e'.slot? ∧ e.Clash e' := by
  by_cases hslot : e.slot? = e'.slot?
  · have hparent : some m.id = some m'.id := by
      rw [← h.parent?_eq, ← h'.parent?_eq, Edit.parent?_eq_slot?, Edit.parent?_eq_slot?, hslot]
    obtain rfl := hids.eq_of_id_eq hm hm' (Option.some.inj hparent)
    have hclashes : e = e' ∨ e.Clash e' → e = e' ∨ e.Independent e' ∨ e.slot? = e'.slot? ∧ e.Clash e' :=
      Or.imp_right fun hclash => .inr ⟨hslot, hclash⟩
    cases htarget : e.target? with
    | none =>
        cases htarget' : e'.target? with
        | none => exact hclashes (h.eq_or_clash_of_not_target h' htarget htarget' hslot hspan)
        | some id => exact absurd hspan (h.not_tied ht hids hm h' htarget htarget' hslot)
    | some id =>
        cases htarget' : e'.target? with
        | none => exact absurd hspan.symm (h'.not_tied ht hids hm h htarget' htarget hslot.symm)
        | some id' =>
            by_cases hid : id = id'
            · subst hid
              exact hclashes (h.eq_or_clash_of_target hids hm h' htarget htarget' hslot)
            · exact .inr (.inl (.inr ⟨id, htarget, id', htarget', hid⟩))
  · exact .inr (.inl (.inl hslot))

end Reconciled

/-! ## Two orders of a batch -/

/-- Changes that do not overlap are sorted in one way only, if the ones in gaps come in the same order: only in a
gap can two changes have one range. -/
theorem latestFirst_eq_of_gaps {roots roots' printed printed' : List TextChange} (hroots : roots'.Perm roots)
    (hprinted : printed'.Perm printed) (hordered : ∀ c ∈ roots, c.span.start ≤ c.span.stop)
    (hproper : ∀ c ∈ printed, c.span.start < c.span.stop)
    (hgaps : ∀ s : Span, s.start = s.stop → roots.filter (fun c => c.span = s) = roots'.filter fun c => c.span = s)
    (hover : refuseOverlap (latestFirst (roots ++ printed)) = .ok ()) :
    latestFirst (roots' ++ printed') = latestFirst (roots ++ printed) := by
  have hperm := hroots.append hprinted
  have hsorted : (latestFirst (roots' ++ printed')).Perm (latestFirst (roots ++ printed)) :=
    (latestFirst_perm _).trans (hperm.trans (latestFirst_perm _).symm)
  have hall : ∀ c ∈ latestFirst (roots ++ printed), c.span.start ≤ c.span.stop := by
    intro c hc
    rcases List.mem_append.1 ((latestFirst_perm _).subset hc) with hc | hc
    · exact hordered c hc
    · exact (hproper c hc).le
  have hsymm : Std.Symm fun c d : TextChange => c.span.Separate d.span := ⟨fun _ _ h => h.symm⟩
  have hseparate : (latestFirst (roots ++ printed)).Pairwise fun c d => c.span.Separate d.span :=
    (pairwise_of_refuseOverlap hall hover).imp .inr
  have hsame := filterMap_eq_of_agree (g := some) hsorted fun x hx y hy => ?_
  · rw [List.filterMap_some, List.filterMap_some] at hsame
    exact hsame.symm
  by_cases hxy : x = y
  · exact .inr fun a ha b hb => by
      cases ha
      cases hb
      exact hxy
  · refine .inl (agreeOn_mergeSort TextChange.span hperm fun htied => ?_)
    have hgap : x.span.start = x.span.stop := by
      refine le_antisymm (hall x hx) ?_
      rcases hseparate.forall hx hy hxy with hle | hle
      · rwa [← htied] at hle
      · rwa [← htied] at hle
    have hprint : x ∉ printed ∧ y ∉ printed :=
      ⟨fun hx => absurd (hproper x hx) hgap.not_lt, fun hy => absurd (hproper y hy) (htied ▸ hgap.not_lt)⟩
    have hroots : AgreeOn x y roots roots' :=
      .of_filter (P := fun c => c.span = x.span) (by simp) (by simp [htied]) (hgaps x.span hgap)
    exact hroots.append hprint ⟨fun hx => hprint.1 (hprinted.subset hx), fun hy => hprint.2 (hprinted.subset hy)⟩

/-- The edit is made against the tree: in a place of a node, or between the roots, where it takes nothing away only
if it is about a gap. -/
inductive Edit.Against (t : Tree) (e : Edit) : Prop
  | inside {m : Node} (node : m ∈ t.nodes) (fits : e.Fits m)
  | between (root : e.parent? = none) (ordered : e.start ≤ e.stop) (gap : e.start = e.stop → e.aim? = some .gap)

theorem Edit.Against.parent_mem {t : Tree} {e : Edit} (h : e.Against t) {parent : NodeId}
    (hparent : e.parent? = some parent) : parent ∈ t.ids := by
  cases h with
  | inside node fits =>
      cases fits.parent?_eq.symm.trans hparent
      exact List.mem_map_of_mem node
  | between root ordered gap => cases root.symm.trans hparent

theorem Edit.of_rootChange? {e : Edit} {c : TextChange} (h : e.rootChange? = some c) :
    e.parent? = none ∧ e.span = c.span ∧ e.newText? = some c.text := by
  obtain ⟨start, stop, kind⟩ := e
  cases kind <;> cases h <;> exact ⟨rfl, rfl, rfl⟩

/-- A text change between the roots takes nothing away only in a gap. -/
theorem Edit.Against.of_rootChange? {t : Tree} {e : Edit} (h : e.Against t) {c : TextChange}
    (hc : e.rootChange? = some c) :
    c.span.start ≤ c.span.stop ∧ (c.span.start = c.span.stop → e.aim? = some .gap) := by
  obtain ⟨hroot, hspan, -⟩ := Edit.of_rootChange? hc
  rw [← hspan]
  cases h with
  | inside node fits => cases fits.parent?_eq.symm.trans hroot
  | between root ordered gap => exact ⟨ordered, gap⟩

theorem Edit.Anchor.of_parent?_eq {t : Tree} {e e' : Edit} {anchor : Option Node} (h : e.Anchor t anchor)
    (hparent : e.parent? = e'.parent?) : e'.Anchor t anchor := by
  cases h with
  | none root => exact .none (hparent.symm.trans root)
  | some inside printed => exact .some (hparent.symm.trans inside) printed

theorem Edit.Anchor.fits {t : Tree} {e : Edit} {b : Node} (h : e.Anchor t (.some b)) (hmade : e.Against t) :
    ∃ m ∈ t.nodes, e.Fits m := by
  cases hmade with
  | inside node fits => exact ⟨_, node, fits⟩
  | between root ordered gap =>
      cases h with
      | some inside printed => cases root.symm.trans inside

section Reordered

variable {t : Tree} {doc : List Lexeme} (ht : Placed t.roots doc) (hids : t.Distinct) {edits edits' : List Edit}
  (hperm : edits'.Perm edits) (hmade : ∀ e ∈ edits, e.Against t)
  (hkeep : Edit.ClashesInOrder edits edits')

variable {anchors anchors' : List (Option Node)} {groups groups' : List EditGroup}
  (h : FallsInto t edits anchors groups) (h' : FallsInto t edits' anchors' groups')

include hperm hmade hkeep ht hids h h'

/-- A group of the one batch and a group of the other with the same range make the same of a copy. -/
theorem graftAll_reordered {g g' : EditGroup} (hg : g ∈ groups) (hg' : g' ∈ groups')
    (hrange : g.range = g'.range) {copy : Node} (hcopy : copy.Once) :
    EditGroup.graftAll copy (Edit.latestFirst (g'.members.filterMap (edits'[·]?))) =
      EditGroup.graftAll copy (Edit.latestFirst (g.members.filterMap (edits[·]?))) := by
  classical
  have hmembers := h.members_perm hg
  have hmembers' := h'.members_perm hg'
  rw [← hrange] at hmembers'
  have hsame : (g'.members.filterMap (edits'[·]?)).Perm (g.members.filterMap (edits[·]?)) :=
    hmembers'.trans ((hperm.filter _).trans hmembers.symm)
  have hsorted := (Edit.latestFirst_perm _).trans (hsame.trans (Edit.latestFirst_perm _).symm)
  have hinside : ∀ e ∈ Edit.latestFirst (g.members.filterMap (edits[·]?)),
      e ∈ edits ∧ ∃ b, e.Anchor t (some b) ∧ g.range.contains b.range ∧ ∃ m ∈ t.nodes, e.Fits m := by
    intro e he
    obtain ⟨hmem, hin⟩ := List.mem_filter.1 (((Edit.latestFirst_perm _).trans hmembers).subset he)
    obtain ⟨b, hanchor, hgb⟩ := of_decide_eq_true hin
    exact ⟨hmem, b, hanchor, hgb, hanchor.fits (hmade e hmem)⟩
  have hassigned : ∀ e ∈ Edit.latestFirst (g.members.filterMap (edits[·]?)), e.Assigned := by
    intro e he
    obtain ⟨-, b, -, -, m, hm, hfits⟩ := hinside e he
    exact hfits.assigned hids hm
  rw [Edit.graftAll_eq_foldl hassigned hcopy,
    Edit.graftAll_eq_foldl (fun e he => hassigned e (hsorted.subset he)) hcopy]
  refine congrArg Except.ok (foldl_eq_of_agree (P := Node.Once) (fun n e hn => Edit.once_carriedOut hn e) hsorted
    (fun x hx y hy => ?_) hcopy).symm
  obtain ⟨hxmem, b, hxb, hgb, m, hm, hfits⟩ := hinside x hx
  obtain ⟨hymem, -, -, -, m', hm', hfits'⟩ := hinside y hy
  by_cases hspan : x.span = y.span
  · rcases hfits.tied ht hids hm hm' hfits' hspan with rfl | hind | ⟨hslot, hclash⟩
    · exact .inr fun n _ => rfl
    · exact .inr fun n hn => Edit.carriedOut_comm hn (hassigned x hx) (hassigned y hy) hind
    · -- They have one anchor, so both groups have them in the order of the batch.
      refine .inl (agreeOn_mergeSort Edit.span hsame fun _ => ?_)
      have hanchor : ∀ e : Edit, decide (e = x ∨ e = y) = true → e.Anchor t (some b) := by
        intro e he
        rcases of_decide_eq_true he with rfl | rfl
        · exact hxb
        · refine hxb.of_parent?_eq ?_
          rw [Edit.parent?_eq_slot?, hslot, ← Edit.parent?_eq_slot?]
      rw [AgreeOn, h.members_filter hg hgb hanchor, h'.members_filter hg' (hrange ▸ hgb) hanchor]
      exact hkeep x hxmem y hymem hclash
  · exact .inl (agreeOn_mergeSort Edit.span hsame fun h => absurd h hspan)

theorem toTextChange_reordered {g g' : EditGroup} (hg : g ∈ groups) (hg' : g' ∈ groups')
    (hancestor : g.ancestor = g'.ancestor) (hrange : g.range = g'.range) (width : Nat) :
    (g'.toTextChange t edits' width).1 = (g.toTextChange t edits width).1 := by
  obtain ⟨-, -, -, -, hcached⟩ := h.grouped.anchor g hg
  obtain ⟨-, -, -, -, hcached'⟩ := h'.grouped.anchor g' hg'
  have hreprint : g'.reprint t edits' width = g.reprint t edits width := by
    rw [EditGroup.reprint, EditGroup.reprint, ← hancestor, ← hrange]
    cases hget : t.get? g.ancestor with
    | none => rfl
    | some n =>
        have hcopy := (hids.identified (Tree.get?_eq_some hget).2).once
        simp only [graftAll_reordered ht hids hperm hmade hkeep h h' hg hg' hrange hcopy]
  rw [EditGroup.toTextChange, EditGroup.toTextChange, hcached, hcached', hreprint]
  cases g.reprint t edits width <;> rfl

/-- Both batches print the same text changes, in whatever order. -/
theorem printed_reordered {width : Nat} {printed printed' : List TextChange}
    (hprinted : groups.mapM (fun g => (g.toTextChange t edits width).1) = .ok printed)
    (hprinted' : groups'.mapM (fun g => (g.toTextChange t edits' width).1) = .ok printed') :
    printed'.Perm printed := by
  have hmem : ∀ a, some a ∈ anchors' ↔ some a ∈ anchors := by
    intro a
    rw [h.mem_anchors_iff, h'.mem_anchors_iff]
    simp only [hperm.mem_iff]
  have hsame : ∀ {as : List (Option Node)}, (∀ a, some a ∈ as → t.Stands a) → ∀ a b : Node, some a ∈ as →
      some b ∈ as → a.range = b.range → a.id = b.id :=
    fun hstands a b ha hb heq => congrArg Node.id (ht.eq_of_range_eq (hstands a ha) (hstands b hb) heq)
  refine (List.perm_ext_iff_of_nodup (h'.nodup_printed ht hprinted') (h.nodup_printed ht hprinted)).2 fun c => ?_
  rw [mem_of_mapM hprinted, mem_of_mapM hprinted']
  constructor
  · rintro ⟨g', hg', hc⟩
    obtain ⟨g, hg, hancestor, hrange⟩ := h.grouped.exists_same_node h'.grouped (hsame h.stands) hmem hg'
    refine ⟨g, hg, ?_⟩
    rw [← toTextChange_reordered ht hids hperm hmade hkeep h h' hg hg' hancestor hrange, hc]
  · rintro ⟨g, hg, hc⟩
    obtain ⟨g', hg', hancestor, hrange⟩ :=
      h'.grouped.exists_same_node h.grouped (hsame h'.stands) (fun a => (hmem a).symm) hg
    refine ⟨g', hg', ?_⟩
    rw [toTextChange_reordered ht hids hperm hmade hkeep h h' hg hg' hancestor.symm hrange.symm, hc]

omit ht hids h h' in
/-- Both batches have the same text changes in a gap between the roots, in the same order. -/
theorem rootChanges_reordered {s : Span} (hs : s.start = s.stop) :
    (edits.filterMap Edit.rootChange?).filter (fun c => c.span = s) =
      (edits'.filterMap Edit.rootChange?).filter fun c => c.span = s := by
  rw [List.filter_filterMap, List.filter_filterMap]
  refine filterMap_eq_of_agree hperm fun x hx y hy => ?_
  by_cases hclash : x.Clash y
  · exact .inl (hkeep x hx y hy hclash)
  · refine .inr fun a hxa b hyb => ?_
    obtain ⟨ha, has⟩ := Option.filter_eq_some_iff.1 hxa
    obtain ⟨hb, hbs⟩ := Option.filter_eq_some_iff.1 hyb
    simp only [decide_eq_true_eq] at has hbs
    have haim := ((hmade x hx).of_rootChange? ha).2 (by rwa [has])
    have haim' := ((hmade y hy).of_rootChange? hb).2 (by rwa [hbs])
    obtain ⟨-, hspan, htext⟩ := Edit.of_rootChange? ha
    obtain ⟨-, hspan', htext'⟩ := Edit.of_rootChange? hb
    have hsame : x.newText? = y.newText? := by
      by_contra hne
      exact hclash ⟨by rw [hspan, hspan', has, hbs], by rw [haim]; rfl, haim.trans haim'.symm, hne⟩
    rw [htext, htext'] at hsame
    obtain ⟨start, stop, text⟩ := a
    obtain ⟨start', stop', text'⟩ := b
    cases has.trans hbs.symm
    cases hsame
    rfl

omit h h' in
/-- Batches that agree on what clashes have the same text changes, unless these overlap. -/
theorem textChanges_reordered {width : Nat} {changes : List TextChange}
    (hchanges : textChanges t edits width = .ok changes) (hover : refuseOverlap changes = .ok ()) :
    textChanges t edits' width = .ok changes := by
  have hsorted : (Edit.latestFirst edits').Perm (Edit.latestFirst edits) :=
    (Edit.latestFirst_perm edits').trans (hperm.trans (Edit.latestFirst_perm edits).symm)
  have hmade : ∀ e ∈ Edit.latestFirst edits, e.Against t := fun e he =>
    hmade e ((Edit.latestFirst_perm edits).subset he)
  have hkeep : Edit.ClashesInOrder (Edit.latestFirst edits) (Edit.latestFirst edits') := by
    intro a ha b hb hclash
    have hmem := (Edit.latestFirst_perm edits).subset
    exact agreeOn_mergeSort Edit.span hperm fun _ => hkeep a (hmem ha) b (hmem hb) hclash
  have hparents : ∀ e ∈ Edit.latestFirst edits, ∀ parent ∈ e.parent?, parent ∈ t.ids := by
    intro e he parent hparent
    exact (hmade e he).parent_mem hparent
  obtain ⟨anchors, groups, h⟩ := exists_fallsInto ht hparents
  obtain ⟨anchors', groups', h'⟩ := exists_fallsInto ht fun e he => hparents e (hsorted.subset he)
  obtain ⟨printed, hprinted, -⟩ := h.exists_printed width
  obtain ⟨printed', hprinted', -⟩ := h'.exists_printed width
  have hsame := printed_reordered ht hids hsorted hmade hkeep h h' hprinted hprinted'
  rw [textChanges, h.made] at hchanges
  rw [textChanges, h'.made]
  simp only [bind, Except.bind, pure, Except.pure, hprinted, hprinted'] at hchanges ⊢
  cases hchanges
  refine congrArg Except.ok (latestFirst_eq_of_gaps (hsorted.filterMap _) hsame (fun c hc => ?_)
    (fun c hc => h.printed_proper ht hprinted hc)
    (fun s hs => rootChanges_reordered hsorted hmade hkeep hs) hover)
  obtain ⟨e, he, hec⟩ := List.mem_filterMap.1 hc
  exact ((hmade e he).of_rootChange? hec).1

end Reordered

end TreeEdit
