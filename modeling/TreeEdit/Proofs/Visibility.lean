import Mathlib
import TreeEdit.Proofs.Refocus

/-!
# The focus stays in sight

A collapsed node hides everything below it. Most operations choose a focus and then move it out of all
collapsed nodes; `Focus.visible_inSight` says that this works. Reading the document again after an outside
change does no such thing: it keeps the focus if its identity is still there. This is safe because an
identity takes the identities above it along wherever it goes, so nothing that was not above the focus before
is above it now (`TakesIn.inSight`).

What an operation does to the focus is said once, in `Refocuses`; that the focus is in sight after every run
follows from the two cases there.
-/

namespace TreeEdit

/-! ## Nodes in sight -/

namespace Tree

/-- A node above the path is collapsed. -/
def Hides (t : Tree) (collapsed : List NodeId) (path : Path) : Prop :=
  ∃ k < path.length, ∃ a, t.at? (path.take k) = some a ∧ a.id ∈ collapsed

/-- The tree has a node with the identity, and no node with it is below a collapsed one. -/
structure InSight (t : Tree) (collapsed : List NodeId) (id : NodeId) : Prop where
  mem : id ∈ t.ids
  clear : ∀ path n, t.at? path = some n → n.id = id → ¬ t.Hides collapsed path

theorem InSight.mono {t : Tree} {collapsed fewer : List NodeId} {id : NodeId} (h : t.InSight collapsed id)
    (hfewer : fewer ⊆ collapsed) : t.InSight fewer id := by
  refine ⟨h.mem, ?_⟩
  rintro path n hn hid ⟨k, hk, a, ha, hcollapsed⟩
  exact h.clear path n hn hid ⟨k, hk, a, ha, hfewer hcollapsed⟩

/-- Whether a place is hidden can be told from the identities on the way down to it. -/
theorem hides_iff_trail {t : Tree} (h : t.ids.Nodup) {path : Path} {n : Node} (hn : t.at? path = some n)
    (collapsed : List NodeId) :
    t.Hides collapsed path ↔ ∃ id ∈ (Forest.trail t.roots path).dropLast, id ∈ collapsed := by
  have hpath : t.pathOf? n.id = some path := pathOf?_of_nodup h hn
  have habove : ∀ a, a ∈ t.ancestors n.id ↔ ∃ k < path.length, t.at? (path.take k) = some a := by
    intro a
    simp only [ancestors, hpath, List.mem_filterMap, List.mem_range]
  rw [← map_id_ancestors hpath]
  constructor
  · rintro ⟨k, hk, a, ha, hcollapsed⟩
    exact ⟨a.id, List.mem_map_of_mem ((habove a).2 ⟨k, hk, ha⟩), hcollapsed⟩
  · rintro ⟨id, hid, hcollapsed⟩
    obtain ⟨a, ha, rfl⟩ := List.mem_map.1 hid
    obtain ⟨k, hk, hat⟩ := (habove a).1 ha
    exact ⟨k, hk, a, hat, hcollapsed⟩

end Tree

/-- A focus that was moved out of collapsed nodes is in sight. -/
theorem Focus.visible_inSight {t : Tree} (h : t.ids.Nodup) {id : NodeId} (hid : id ∈ t.ids)
    (collapsed : List NodeId) : t.InSight collapsed (visible t id collapsed) := by
  refine ⟨visible_mem hid collapsed, ?_⟩
  obtain ⟨m, hm, rfl⟩ := List.mem_map.1 hid
  obtain ⟨p, hp⟩ := Forest.mem_nodes_iff.1 hm
  rintro path n hn hvisible ⟨j, hj, b, hb, hcollapsed⟩
  rcases visible_cases h hp collapsed with ⟨hsame, hfree⟩ | ⟨k, hk, a, ha, hsame, -, hfree⟩
  · -- Nothing above the node is collapsed, and it stands at one path only.
    obtain rfl := Tree.path_unique_of_nodup h hn hp (hvisible.trans hsame)
    exact hfree j hj b hb hcollapsed
  · -- The focus went out to the outermost collapsed node, so nothing above that one is collapsed.
    obtain rfl := Tree.path_unique_of_nodup h hn ha (hvisible.trans hsame)
    rw [List.length_take_of_le hk.le] at hj
    rw [List.take_take, Nat.min_eq_left hj.le] at hb
    exact hfree j hj b hb hcollapsed

/-- If the document is read again and an identity is still there, what was in sight stays in sight. -/
theorem reconcile_inSight {t : Tree} {ids : IdSource} (hnum : t.Numbered ids) {roots : List Node}
    (hfew : ids.next.toNat + (Forest.allIds roots).length < 2 ^ 64) {collapsed : List NodeId} {id : NodeId}
    (h : t.InSight collapsed id) (hid : id ∈ (reconcile t roots ids).1.ids) :
    (reconcile t roots ids).1.InSight collapsed id := by
  have hnew : (reconcile t roots ids).1.ids.Nodup := (reconcile_numbered hnum roots hfew).1.ids_nodup
  have hold : id ∈ Forest.allIds t.roots := mem_identities.1 (Tree.mem_identities_of_mem_ids h.mem)
  have hfresh : id ∉ Forest.allIds (freshRoots t roots ids) :=
    fun hin => freshRoots_new (hnum.suffices hfew) id hin hold
  refine ⟨hid, ?_⟩
  rintro q r hr rfl hhidden
  -- The node continues one of the old tree with the same identities above it, and that one was not hidden.
  obtain ⟨p, o, ho, hsame, -, htrail⟩ := reconcile_lineage hr hfresh
  apply h.clear p o ho hsame.symm
  rw [Tree.hides_iff_trail hnum.ids_nodup ho, htrail]
  exact (Tree.hides_iff_trail hnew hr collapsed).1 hhidden

namespace Session

variable {β : Type} [TextBuffer β]

/-! ## What happens to the focus -/

/-- What can happen to a session: an event, or a commit of a text that was read ahead elsewhere, whatever
that text is. -/
inductive Happening (β : Type) where
  | event (e : Event β)
  | commitAhead (changes : List TextChange) (hint : Option (Tree → FocusHint)) (ahead : Draft)

/-- The session after something has happened to it. -/
def undergo (s : Session β) : Happening β → Session β
  | .event e => s.meet e
  | .commitAhead changes hint ahead => (s.commit changes hint (some ahead)).2

/-- The session after all this has happened to it. -/
def undergoAll (s : Session β) (happenings : List (Happening β)) : Session β := happenings.foldl undergo s

/-- The focus, if there is one, is in the tree and not below a collapsed node. -/
def FocusInSight (s : Session β) : Prop := ∀ id, s.focus = some id → s.tree.InSight s.collapsed id

/-- How the second session comes by its focus: it is that of the first, and still there, or it is chosen in
the new tree and moved out of collapsed nodes. -/
inductive Refocuses (s s' : Session β) : Prop
  | kept (fewer : s'.collapsed ⊆ s.collapsed)
      (focus : ∀ id, s'.focus = some id → s.focus = some id ∧ id ∈ s'.tree.ids)
  | chosen (collapsed : List NodeId) (fewer : s'.collapsed ⊆ collapsed)
      (focus : ∀ id, s'.focus = some id →
        ∃ target ∈ s'.tree.ids, id = Focus.visible s'.tree target collapsed)

omit [TextBuffer β] in
theorem FocusInSight.refocuses {s s' : Session β} (hs : s.FocusInSight) (htree : s'.tree = s.tree)
    (hfocus : s'.focus = s.focus) (hfewer : s'.collapsed ⊆ s.collapsed) : s.Refocuses s' := by
  refine .kept hfewer fun id hid => ?_
  rw [hfocus] at hid
  rw [htree]
  exact ⟨hid, (hs id hid).mem⟩

theorem commit_refocuses {s : Session β} (hs : s.FocusInSight) (changes : List TextChange)
    (hint : Option (Tree → FocusHint)) (ahead : Option Draft) :
    s.Refocuses (s.commit changes hint ahead).2 := by
  rcases s.commit_cases changes hint ahead with ⟨e, -, h⟩ | ⟨sorted, draft, e, b, -, -, h⟩ |
    ⟨sorted, draft, b, -, -, h⟩
  · rw [h]
    exact hs.refocuses rfl rfl (List.Subset.refl _)
  · rw [h]
    exact hs.refocuses rfl rfl (List.Subset.refl _)
  · rw [h]
    refine .chosen s.collapsed (List.filter_subset_self _) fun id hid => ?_
    obtain ⟨target, htarget, rfl⟩ := Option.map_eq_some_iff.1 hid
    refine ⟨target, ?_, rfl⟩
    rcases Option.or_eq_some_iff.1 htarget with hhint | ⟨-, hchanges⟩
    · exact Focus.ofHint?_mem hhint
    · exact Focus.ofChanges_mem hchanges

theorem perform_refocuses {s : Session β} (hs : s.FocusInSight) (edits : List Edit) :
    s.Refocuses (s.perform edits).2 := by
  rcases s.perform_cases edits with ⟨-, h⟩ | ⟨e, -, h⟩ | ⟨changes, draft, hint, -, h⟩
  · rw [h]
    exact hs.refocuses rfl rfl (List.Subset.refl _)
  · rw [h]
    exact hs.refocuses rfl rfl (List.Subset.refl _)
  · rw [h]
    exact commit_refocuses hs changes hint (some draft)

theorem restore_refocuses {s : Session β} (hs : s.FocusInSight) (text : String) (mark : FocusMark) :
    s.Refocuses (s.restore text mark).2 := by
  rcases s.restore_cases text mark with ⟨e, h⟩ | ⟨e, b, -, h⟩ | ⟨roots, b, -, -, h⟩
  · rw [h]
    exact hs.refocuses rfl rfl (List.Subset.refl _)
  · rw [h]
    exact hs.refocuses rfl rfl (List.Subset.refl _)
  · rw [h]
    refine .chosen s.collapsed (List.filter_subset_self _) fun id hid => ?_
    obtain ⟨target, htarget, rfl⟩ := Option.map_eq_some_iff.1 hid
    refine ⟨target, ?_, rfl⟩
    rcases Option.or_eq_some_iff.1 htarget with hmark | ⟨-, hroot⟩
    · exact FocusMark.resolve_mem hmark
    · obtain ⟨root, hfirst, rfl⟩ := Option.map_eq_some_iff.1 hroot
      exact Tree.head?_id_mem_ids hfirst

omit [TextBuffer β] in
/-- The history has no part in it. -/
theorem Refocuses.withHistory {s s' : Session β} (h : s.Refocuses s') (history : History) :
    s.Refocuses { s' with history := history } := by
  cases h with
  | kept hfewer hfocus => exact .kept hfewer hfocus
  | chosen collapsed hfewer hfocus => exact .chosen collapsed hfewer hfocus

theorem act_refocuses {s : Session β} (hs : s.FocusInSight) (a : Action) : s.Refocuses (s.act a) := by
  by_cases ha : a = .undo ∨ a = .redo
  · rcases s.act_restores ha with h | ⟨text, mark, history, h⟩
    · rw [h]
      exact hs.refocuses rfl rfl (List.Subset.refl _)
    · -- Whether the text can be read or not, the focus is chosen anew in what was restored.
      rw [h]
      exact (restore_refocuses hs text mark).withHistory history
  cases a with
  | perform edits => exact perform_refocuses hs edits
  | drop source target =>
      rcases s.drop_cases source target with ⟨e, h⟩ | ⟨text, edits, -, -, h⟩
      · rw [act, h]
        exact hs.refocuses rfl rfl (List.Subset.refl _)
      · rw [act, h]
        exact perform_refocuses hs edits
  | commit changes hint => exact commit_refocuses hs changes hint none
  | undo | redo => simp at ha
  | refresh =>
      rcases s.refresh_cases with ⟨e, h⟩ | ⟨roots, -, h⟩
      · rw [act, h]
        exact hs.refocuses rfl rfl (List.Subset.refl _)
      · rw [act, h]
        -- This is the one operation that keeps the focus in a new tree.
        refine .kept (List.filter_subset_self _) fun id hid => ?_
        obtain ⟨hfocus, hcontains⟩ := Option.filter_eq_some_iff.1 hid
        exact ⟨hfocus, Tree.contains_iff.1 hcontains⟩
  | setFocus id =>
      simp only [act, setFocus]
      split
      · rename_i hcontains
        refine .chosen s.collapsed (List.Subset.refl _) ?_
        rintro _ ⟨⟩
        exact ⟨id, Tree.contains_iff.1 hcontains, rfl⟩
      · exact hs.refocuses rfl rfl (List.Subset.refl _)
  | collapse id =>
      simp only [act, collapse]
      split
      · refine .chosen _ (List.Subset.refl _) fun other hother => ?_
        obtain ⟨f, hf, rfl⟩ := Option.map_eq_some_iff.1 hother
        exact ⟨f, (hs f hf).mem, rfl⟩
      · exact hs.refocuses rfl rfl (List.Subset.refl _)
  | expand id => exact hs.refocuses rfl rfl (List.filter_subset_self _)

theorem undergo_refocuses {s : Session β} (hs : s.FocusInSight) (h : Happening β) :
    s.Refocuses (s.undergo h) := by
  cases h with
  | event e =>
      cases e with
      | act action => exact act_refocuses hs action
      | outside buffer => exact hs.refocuses rfl rfl (List.Subset.refl _)
  | commitAhead changes hint ahead => exact commit_refocuses hs changes hint (some ahead)

/-! ## Runs -/

/-- The documents taken in while things happen to a session, one after the other. -/
def TakesInAll (s : Session β) : List (Happening β) → List (List Node) → Prop
  | [], docs => docs = []
  | h :: happenings, docs => ∃ first more, docs = first ++ more ∧ s.TakesIn (s.undergo h) first ∧
      (s.undergo h).TakesInAll happenings more

theorem undergo_takesIn (s : Session β) (h : Happening β) : ∃ docs, s.TakesIn (s.undergo h) docs := by
  cases h with
  | event e =>
      cases e with
      | act action =>
          obtain ⟨docs, hreads⟩ := s.act_reads action
          exact ⟨docs, hreads.takesIn⟩
      | outside buffer => exact ⟨[], .inl ⟨rfl, rfl, rfl⟩⟩
  | commitAhead changes hint ahead =>
      rcases s.commit_cases changes hint (some ahead) with ⟨e, -, h⟩ | ⟨sorted, draft, e, b, -, -, h⟩ |
        ⟨sorted, draft, b, -, -, h⟩
      · exact ⟨[], .inl ⟨rfl, by rw [undergo, h], by rw [undergo, h]⟩⟩
      · exact ⟨[], .inl ⟨rfl, by rw [undergo, h], by rw [undergo, h]⟩⟩
      · exact ⟨[draft.roots], .inr ⟨draft.roots, rfl, by rw [undergo, h]; rfl⟩⟩

theorem takesInAll_exists (s : Session β) (happenings : List (Happening β)) :
    ∃ docs, s.TakesInAll happenings docs := by
  induction happenings generalizing s with
  | nil => exact ⟨[], rfl⟩
  | cons h happenings ih =>
      obtain ⟨first, hfirst⟩ := s.undergo_takesIn h
      obtain ⟨more, hmore⟩ := ih (s.undergo h)
      exact ⟨first ++ more, first, more, rfl, hfirst, hmore⟩

omit [TextBuffer β] in
/-- What was in sight is in sight in the next tree, if it is there. -/
theorem TakesIn.inSight {s s' : Session β} {docs : List (List Node)} (h : s.TakesIn s' docs)
    (hnum : s.tree.Numbered s.ids) (hfew : s.ids.next.toNat + handedOut docs < 2 ^ 64)
    {collapsed : List NodeId} {id : NodeId} (hid : s.tree.InSight collapsed id) (hmem : id ∈ s'.tree.ids) :
    s'.tree.InSight collapsed id := by
  rcases h with ⟨-, htree, -⟩ | ⟨roots, rfl, hrec⟩
  · rwa [htree]
  · have htree : s'.tree = (reconcile s.tree roots s.ids).1 := congrArg Prod.fst hrec
    rw [handedOut_singleton] at hfew
    rw [htree] at hmem ⊢
    exact reconcile_inSight hnum hfew hid hmem

omit [TextBuffer β] in
theorem Refocuses.inSight {s s' : Session β} (h : s.Refocuses s') {docs : List (List Node)}
    (htakes : s.TakesIn s' docs) (hs : s.FocusInSight) (hnum : s.tree.Numbered s.ids)
    (hfew : s.ids.next.toNat + handedOut docs < 2 ^ 64) : s'.FocusInSight := by
  intro id hid
  cases h with
  | kept hfewer hfocus =>
      obtain ⟨hold, hmem⟩ := hfocus id hid
      exact (htakes.inSight hnum hfew (hs id hold) hmem).mono hfewer
  | chosen collapsed hfewer hfocus =>
      obtain ⟨target, hmem, rfl⟩ := hfocus id hid
      have hnodup : s'.tree.ids.Nodup := (htakes.numbered hnum hfew).1.ids_nodup
      exact (Focus.visible_inSight hnodup hmem collapsed).mono hfewer

theorem undergoAll_inSight {s : Session β} (hs : s.FocusInSight) (hnum : s.tree.Numbered s.ids)
    {happenings : List (Happening β)} {docs : List (List Node)} (htakes : s.TakesInAll happenings docs)
    (hfew : s.ids.next.toNat + handedOut docs < 2 ^ 64) : (s.undergoAll happenings).FocusInSight := by
  induction happenings generalizing s docs with
  | nil => exact hs
  | cons h happenings ih =>
      obtain ⟨first, more, rfl, hfirst, hmore⟩ := htakes
      rw [handedOut_append] at hfew
      have hfewFirst : s.ids.next.toNat + handedOut first < 2 ^ 64 := by omega
      obtain ⟨hnum', hnext⟩ := hfirst.numbered hnum hfewFirst
      apply ih ((undergo_refocuses hs h).inSight hfirst hs hnum hfewFirst) hnum' hmore
      omega

/-- The focus is never hidden. A session can be started on every buffer whose text can be read. Whatever
happens to it after that, be it commits, moves, undo and redo, changes of the focus, nodes collapsed and
expanded, or the buffer read again after it was changed from outside: in the state reached, the focus is a
node of the tree with no collapsed node above it, if there is a focus. This is so as long as the source of
identities does not wrap around. -/
theorem focus_never_hidden {buffer : β} {roots : List Node}
    (hread : readDocument (TextBuffer.text buffer) = .ok roots) (settings : Settings) :
    ∃ s, start buffer settings = .ok s ∧ ∀ happenings : List (Happening β),
      (∃ docs, s.TakesInAll happenings docs) ∧
      ∀ docs, s.TakesInAll happenings docs → handedOut ([roots] ++ docs) < 2 ^ 64 - 1 →
        (s.undergoAll happenings).FocusInSight := by
  obtain ⟨s, hs⟩ : ∃ s, start buffer settings = .ok s := ⟨_, start_eq hread settings⟩
  refine ⟨s, hs, fun happenings => ⟨s.takesInAll_exists happenings, fun docs htakes hfew => ?_⟩⟩
  rw [handedOut_append] at hfew
  have hfewRoots : handedOut [roots] < 2 ^ 64 - 1 := by omega
  obtain ⟨hnum, hnext⟩ := start_numbered hs hread hfewRoots
  have hnone : s.focus = none := by
    obtain ⟨-, -, rfl⟩ := started_of_start hs
    rfl
  have hsight : s.FocusInSight := by
    intro id hid
    rw [hnone] at hid
    cases hid
  apply undergoAll_inSight hsight hnum htakes
  omega

/-- The inner call is collapsed and its argument focused, so the focus goes to the call. Then the text is
changed from outside and read again: the call has another place in another call, and is still in sight. -/
theorem focus_never_hidden_outside_change :
    ∃ roots, readDocument "(f (g x))" = .ok roots ∧ ∃ s, start "(f (g x))" .default = .ok s ∧
      (s.undergoAll [.event (.act (.collapse ⟨3⟩)), .event (.act (.setFocus ⟨5⟩))]).focus = some ⟨3⟩ ∧
      (s.undergoAll [.event (.act (.collapse ⟨3⟩)), .event (.act (.setFocus ⟨5⟩)),
        .event (.outside "(h y (g x))"), .event (.act .refresh)]).FocusInSight := by
  obtain ⟨before, hread, hcount, hfirst, ⟨n, hn, hid⟩, call, hcall, hcallid⟩ :
      ∃ before, readDocument "(f (g x))" = .ok before ∧ (Forest.allIds before).length = 5 ∧
        (reconcile .empty before .new).1.ids = [⟨1⟩, ⟨2⟩, ⟨3⟩, ⟨4⟩, ⟨5⟩] ∧
        (∃ n ∈ (reconcile .empty before .new).1.at? [0, 1, 1], n.id = ⟨5⟩) ∧
        ∃ a ∈ ((List.range [0, 1, 1].length).filterMap fun depth =>
          (reconcile .empty before .new).1.at? ([0, 1, 1].take depth)).find? ([(⟨3⟩ : NodeId)].contains ·.id),
          a.id = ⟨3⟩ := Except.exists_ok (by decide +kernel)
  obtain ⟨after, hread', hcount'⟩ :
      ∃ after, readDocument "(h y (g x))" = .ok after ∧ (Forest.allIds after).length = 6 :=
    Except.exists_ok (by decide +kernel)
  obtain ⟨s, hs, hrun⟩ := @focus_never_hidden String _ "(f (g x))" _ hread .default
  obtain ⟨htree, hcollapsed⟩ : s.tree = (reconcile .empty before .new).1 ∧ s.collapsed = [] := by
    cases hs.symm.trans (start_eq hread .default)
    exact ⟨rfl, rfl⟩
  have hids : s.tree.ids = [⟨1⟩, ⟨2⟩, ⟨3⟩, ⟨4⟩, ⟨5⟩] := by rw [htree, hfirst]
  refine ⟨_, hread, s, hs, ?_, ?_⟩
  · have hpath : s.tree.pathOf? ⟨5⟩ = some [0, 1, 1] := by
      rw [← hid]
      exact Tree.pathOf?_of_nodup (by rw [hids]; decide) (htree ▸ hn)
    have hinner : s.tree.contains ⟨3⟩ = true := Tree.contains_iff.2 (by simp [hids])
    have hargument : s.tree.contains ⟨5⟩ = true := Tree.contains_iff.2 (by simp [hids])
    have hvisible : Focus.visible s.tree ⟨5⟩ [⟨3⟩] = ⟨3⟩ := by
      simp only [Focus.visible, Tree.ancestors, hpath]
      rw [htree, hcall]
      exact hcallid
    simp [undergoAll, undergo, meet, act, collapse, setFocus, hinner, hargument, hcollapsed, hvisible]
  · have hcollapse : ∀ t : Session String, (t.collapse ⟨3⟩).2.tree = t.tree ∧ (t.collapse ⟨3⟩).2.ids = t.ids := by
      intro t
      unfold collapse
      split <;> exact ⟨rfl, rfl⟩
    have hfocus : ∀ t : Session String, (t.setFocus ⟨5⟩).2.tree = t.tree ∧ (t.setFocus ⟨5⟩).2.ids = t.ids := by
      intro t
      unfold setFocus
      split <;> exact ⟨rfl, rfl⟩
    have hrefresh : ∀ t : Session String, t.text = "(h y (g x))" →
        (t.refresh.2.tree, t.refresh.2.ids) = reconcile t.tree after t.ids := by
      intro t ht
      simp only [refresh, ht, hread']
      rfl
    have hfew : handedOut ([before] ++ ([] ++ ([] ++ ([] ++ ([after] ++ []))))) < 2 ^ 64 - 1 := by
      simp [handedOut, hcount, hcount']
    apply (hrun _).2 ([] ++ ([] ++ ([] ++ ([after] ++ []))))
    · exact ⟨_, _, rfl, .inl ⟨rfl, hcollapse s⟩, _, _, rfl, .inl ⟨rfl, hfocus _⟩, _, _, rfl,
        .inl ⟨rfl, rfl, rfl⟩, _, _, rfl, .inr ⟨after, rfl, hrefresh _ rfl⟩, rfl⟩
    · exact hfew

end Session

end TreeEdit
