import TreeEdit.Proofs.UncommentedEdits

/-!
# What was put in takes the focus

A text put in as a child of a node suggests a focus: the child at its index, below the node with the identity
of the parent. When the document is read again, identities are passed on by the look of the nodes, and the
identity of the parent may go to a sibling that looks like it. So the hint is right exactly if the parent has
kept its identity (`Edit.focusHint_iff_id_eq`), and without comments that is so exactly if on the way down to it
no later sibling looks like the old or the new node on the way (`Session.keeps_identity_iff_settles`). Then what
was put in takes the focus: `Session.put_in_takes_focus`.
-/

namespace TreeEdit

open Edit Sign

/-! ## Identities kept on the way -/

theorem Tree.Numbered.distinct {t : Tree} {ids : IdSource} (h : t.Numbered ids) : t.Distinct := by
  refine ⟨h.ids_nodup, fun hmem => ?_⟩
  obtain ⟨n, hn, hid⟩ := List.mem_map.1 hmem
  obtain ⟨path, hat⟩ := Tree.mem_nodes_iff.1 hn
  have hpos := h.pos n.id (Forest.id_mem_allIds hat)
  rw [hid] at hpos
  exact absurd hpos (by decide)

/-- Where newly read roots differ from those of a tree only below one place, the node there keeps its identity
exactly if the siblings on the way settle. -/
theorem reconcile_keeps_iff_settles {t : Tree} {roots : List Node} {ids : IdSource} (hnodup : t.ids.Nodup)
    (hfew : ids.Suffices t roots) {p : Path} (hdiff : Forest.DifferOnlyAt p t.roots roots)
    (hold : ∀ n ∈ t.roots, n.Stamped) (hnew : ∀ n ∈ roots, n.Stamped) {o r : Node} (ho : t.at? p = some o)
    (hr : (reconcile t roots ids).1.at? p = some r) : r.id = o.id ↔ Forest.Settles p t.roots roots := by
  constructor
  · intro hid
    have hkept : r.id ∉ Forest.allIds (freshRoots t roots ids) := by
      intro hmem
      refine freshRoots_new hfew r.id hmem ?_
      rw [hid]
      exact Forest.id_mem_allIds ho
    obtain ⟨p', o', ho', hid', hkin, -⟩ := reconcile_lineage hr hkept
    obtain rfl := Tree.path_unique_of_nodup hnodup ho' ho (hid'.symm.trans hid)
    exact hkin.settles hdiff hold hnew
  · intro hsettles
    have hsame := reconcile_map_id hdiff hsettles hold hnew ids fun _ => rfl
    rw [hr, ho] at hsame
    exact Option.some.inj hsame

/-! ## The hint of an edit that puts a text in -/

namespace Edit

variable {e : Edit} {text : String} (htext : e.text? = some text) {id : NodeId} {field : String} {index : Nat}
  (hplace : e.place? = some (id, field, index))

include htext hplace

theorem focusHint_eq_node_iff {t : Tree} {target : NodeId} :
    e.focusHint t = .node target ↔ ∃ m s c, t.get? id = some m ∧ m.kind.slot? field = some s ∧
      s.nodes[index]? = some c ∧ c.id = target := by
  have htarget : e.focusTarget? t = nodeInSlot? t id field index := by
    obtain ⟨start, stop, kind⟩ := e
    cases kind with
    | insertChild | replaceChild => cases hplace; rfl
    | _ => cases htext
  have hhint : e.focusHint t = .node target ↔ nodeInSlot? t id field index = some target := by
    rw [focusHint, htarget]
    cases nodeInSlot? t id field index <;> simp
  simp only [hhint, nodeInSlot?, Option.bind_eq_bind, Option.bind_eq_some_iff, Option.map_eq_some_iff]
  exact ⟨fun ⟨m, hm, s, hs, c, hc, hid⟩ => ⟨m, s, c, hm, hs, hc, hid⟩,
    fun ⟨m, s, c, hm, hs, hc, hid⟩ => ⟨m, hm, s, hs, c, hc, hid⟩⟩

/-- Where the place that the edit is about is found in a node, the hint is what stands there exactly if the node has
the identity that the edit names. -/
theorem focusHint_iff_id_eq {t : Tree} (ht : t.Distinct) {m : Node} (hm : m ∈ t.nodes) {s : Slot Node}
    (hs : m.kind.slot? field = some s) {c : Node} (hc : s.nodes[index]? = some c) :
    e.focusHint t = .node c.id ↔ m.id = id := by
  have hchild : ∀ {l : Node} {s : Slot Node} {c : Node}, l.kind.slot? field = some s → s.nodes[index]? = some c →
      c ∈ l.children := by
    intro l s c hs hc
    exact List.mem_flatMap.2 ⟨s, (Kind.slot?_eq_some_iff.1 hs).1, List.mem_of_getElem? hc⟩
  rw [focusHint_eq_node_iff htext hplace]
  constructor
  · rintro ⟨l, s', c', hl, hs', hc', hid⟩
    obtain ⟨rfl, hlmem⟩ := Tree.get?_eq_some hl
    -- What the hint points at is the child of one node only.
    have hparent := ht.parent?_of_child hlmem (hchild hs' hc')
    rw [hid, ht.parent?_of_child hm (hchild hs hc)] at hparent
    rw [Option.some.inj hparent]
  · rintro rfl
    exact ⟨m, s, c, ht.get?_eq hm, hs, hc, rfl⟩

end Edit

/-- A hint at a node of the tree is followed. -/
theorem Focus.resolve_of_hint {t : Tree} {suggest : Tree → FocusHint} {id : NodeId} (h : suggest t = .node id)
    (hmem : id ∈ t.ids) (old new : String) (changes : List TextChange) (collapsed : List NodeId) :
    resolve t (some suggest) old new changes collapsed = some (visible t id collapsed) := by
  simp [resolve, ofHint?, h, Tree.contains_iff.2 hmem]

theorem single_signsOf {text : String} (h : ∃ root, readDocument text = .ok [root]) : Single (signsOf text) := by
  obtain ⟨root, hread⟩ := h
  obtain ⟨ls, hls, hplaced⟩ := readDocument_placed hread rfl
  have hsigns := Lexeme.signsOf_text hplaced.run
  rw [hls, String.ofList_toList, hplaced.fills.signs_eq, fill_parts] at hsigns
  rw [hsigns, List.map_singleton, List.flatten_singleton]
  exact (Node.asRead_of_readDocument hread root (List.mem_singleton_self root)).single root root.mem_walk_self

/-- A node that says what another says with an edit made, and is of the same kind, has as many children. -/
theorem Node.AsRead.length_children {e : Edit} {n m : Node} (hn : n.AsRead) (hm : m.AsRead)
    (htext : ∀ text ∈ e.text?, Single (signsOf text)) (hname : n.kind.name = m.kind.name)
    (hsaid : n.flatten = m.wording [e]) : n.children.length = (m.edited [e]).children.length := by
  have hname' : n.kind.name = (m.edited [e]).kind.name := hname.trans (name_edited [e] m).symm
  by_cases hdef : n.kind.name = "FunctionDefinition"
  · -- The parameters may have given way to a text; there are three children all the same.
    obtain ⟨name, params, body, hk⟩ := Kind.functionDef_of_name hdef
    obtain ⟨name', params', body', hk'⟩ := Kind.functionDef_of_name (hname' ▸ hdef)
    rw [children_functionDef hk, children_functionDef hk']
    rfl
  · have hregular : (m.edited [e]).kind.Regular := by
      cases hk : (m.edited [e]).kind with
      | functionDef => exact absurd (by rw [hname', hk]; rfl) hdef
      | pasted | vacated =>
          rw [hk] at hname'
          have hregular := hn.regular
          cases hnk : n.kind <;> simp [hnk, Kind.name, Kind.Regular] at hname' hregular
      | _ => trivial
    have heq := children_flatten_eq hn.single (hm.single_edited htext) hsaid hname' hn.regular hregular
    simpa using congrArg List.length heq

namespace Session

section PutIn

variable {s s' : Session String} (hs : s.InStep) (hnum : s.tree.Numbered s.ids) (hplain : Plain s.text)
  {e : Edit} {committed : Committed} (hperform : s.perform [e] = (.ok committed, s')) {path : Path}
  {parent parent' : Node} (hparent : s.tree.at? path = some parent) (hparent' : s'.tree.at? path = some parent')
  (hfits : e.Fits parent)
  (hnames : ∀ q, q <+: path →
    (Forest.at? s'.tree.roots q).map (·.kind.name) = (Forest.at? s.tree.roots q).map (·.kind.name))

include hs hnum hplain hperform hparent hparent' hfits hnames

/-- If every node on the way down to the edit is read as the kind it was, the node that the edit is in has the
children it is to have. -/
theorem length_children_of_perform (htext : ∀ text ∈ e.text?, Fragment text ∧ Single (signsOf text)) :
    parent'.children.length = (parent.edited [e]).children.length := by
  obtain ⟨doc, ht, hdoc⟩ := hs.orderly hnum.distinct (hs.uncommented hplain)
  have hsingle : ∀ text ∈ e.text?, Single (signsOf text) := fun text hmem => (htext text hmem).2
  have hrereads := perform_rereads hs ht hdoc (Tree.mem_nodes_iff.2 ⟨path, hparent⟩) hfits htext hperform
  obtain ⟨⟨n, hn, hread, hread', hname, hsaid⟩, -⟩ := hrereads.way_down hsingle hfits.parent?_eq hparent
    (fun q m hq hid => Tree.path_unique_of_nodup hnum.ids_nodup hq hparent hid) hnames
  cases hparent'.symm.trans hn
  exact hread.length_children hread' hsingle hname hsaid

/-- If every node on the way down to the edit is read as the kind it was, the node that the edit is in keeps its
identity exactly if the siblings on the way settle. -/
theorem keeps_identity_iff_settles (htext : ∀ text ∈ e.text?, Expression text) {roots : List Node}
    (hreread : readDocument s'.text = .ok roots) (hfew : s.ids.next.toNat + handedOut [roots] < 2 ^ 64) :
    parent'.id = parent.id ↔ Forest.Settles path s.tree.roots s'.tree.roots := by
  obtain ⟨doc, ht, hdoc⟩ := hs.orderly hnum.distinct (hs.uncommented hplain)
  have hmem : parent ∈ s.tree.nodes := Tree.mem_nodes_iff.2 ⟨path, hparent⟩
  have hsingle : ∀ text ∈ e.text?, Single (signsOf text) := fun text h => single_signsOf (htext text h).single
  have hfragment : ∀ text ∈ e.text?, Fragment text := fun text h => (htext text h).fragment
  -- Nothing beside the way has changed, since there are no comments before or after.
  have hdiff : Forest.DifferOnlyAt path s.tree.roots s'.tree.roots := by
    have hrereads := perform_rereads hs ht hdoc hmem hfits (fun text h => ⟨hfragment text h, hsingle text h⟩) hperform
    have hplain' := perform_uncommented hs ht hdoc hplain hmem hfits
      (fun text h => ⟨hfragment text h, (htext text h).uncommented⟩) hperform
    refine (hrereads.way_down hsingle hfits.parent?_eq hparent ?_ hnames).2 ?_ ?_
    · exact fun q m hq hid => Tree.path_unique_of_nodup hnum.ids_nodup hq hparent hid
    · exact fun n hn m hm => hs.uncommented hplain m (List.mem_flatMap.2 ⟨n, hn, hm⟩)
    · exact fun n hn m hm => (hs.of_perform hperform).uncommented hplain' m (List.mem_flatMap.2 ⟨n, hn, hm⟩)
  obtain ⟨roots', changes, hread, -, htree, -⟩ := commit_of_perform hperform
  cases hreread.symm.trans hread
  have hsame : roots.map Node.anonymous = s'.tree.roots.map Node.anonymous := by
    rw [htree, reconcile_anonymous]
  have hsuffices : s.ids.Suffices s.tree roots := hnum.suffices (by simpa [handedOut] using hfew)
  rw [htree] at hparent'
  rw [reconcile_keeps_iff_settles hnum.ids_nodup hsuffices (hdiff.of_anonymous hsame.symm)
    (fun n hn => (hs.roots_read.1 n hn).2.2) (readDocument_stamped hread) hparent hparent']
  exact ⟨fun h => h.of_anonymous hsame, fun h => h.of_anonymous hsame.symm⟩

end PutIn

/-- A text put in as a child of a node takes the focus if the node is still there: with the kind and the identity it
had, and with the children it is to have. Only then is the hint of the edit right. The children are as they are to be
if every node on the way down is read as the kind it was and the text does not end in a comment that spills over; and
if the text has no comments at all, the node keeps its identity exactly if no later sibling on the way looks like the
old or the new node there. -/
theorem put_in_takes_focus {s s' : Session String} (hs : s.InStep) (hnum : s.tree.Numbered s.ids)
    (hplain : Plain s.text) {text : String} (hsingle : ∃ root, readDocument text = .ok [root]) {path : Path} {j : Nat}
    {e : Edit} (hputs : e.PutsAt s.tree text path j) {committed : Committed}
    (hperform : s.perform [e] = (.ok committed, s')) {roots : List Node} (hreread : readDocument s'.text = .ok roots)
    (hfew : s.ids.next.toNat + handedOut [roots] < 2 ^ 64) {parent parent' : Node}
    (hparent : s.tree.at? path = some parent) (hparent' : s'.tree.at? path = some parent')
    (hname : parent'.kind.name = parent.kind.name) :
    committed.focus = s'.focus ∧
    (parent'.children.length = (parent.edited [e]).children.length →
      ∃ n, s'.tree.at? (path ++ [j]) = some n ∧ (e.focusHint s'.tree = .node n.id ↔ parent'.id = parent.id) ∧
        (parent'.id = parent.id → s'.FocusesOn (path ++ [j]))) ∧
    ((∀ q, q <+: path →
        (Forest.at? s'.tree.roots q).map (·.kind.name) = (Forest.at? s.tree.roots q).map (·.kind.name)) →
      (Fragment text → parent'.children.length = (parent.edited [e]).children.length) ∧
      (Plain text → (parent'.id = parent.id ↔ Forest.Settles path s.tree.roots s'.tree.roots))) := by
  have hne : text ≠ "" := by
    rintro rfl
    obtain ⟨root, hread⟩ := hsingle
    rw [readDocument, tokenize, show "".toList = [] from rfl, tokensFrom_nil] at hread
    cases hread
  obtain ⟨doc, ht, -⟩ := hs.orderly hnum.distinct (hs.uncommented hplain)
  obtain ⟨m, field, index, hm, hfits, htext, hplace, rfl⟩ := hputs.fits ht (hs.uncommented hplain) hne
  cases hparent.symm.trans hm
  have htexts : ∀ {P : String → Prop}, P text → ∀ text' ∈ e.text?, P text' := by
    intro P hP text' hmem
    rw [htext] at hmem
    cases hmem
    exact hP
  obtain ⟨roots', changes, hread, -, htree, hcollapsed, hfocus, hresolve⟩ := commit_of_perform hperform
  cases hreread.symm.trans hread
  refine ⟨hfocus, fun hlength => ?_, fun hnames => ⟨fun hfragment => ?_, fun hplainText => ?_⟩⟩
  · -- The hint looks for the identity of the parent, and no other node can have it.
    have hnum' : s'.tree.Numbered (reconcile s.tree roots s.ids).2 := by
      rw [htree]
      exact (reconcile_numbered hnum roots (by simpa [handedOut] using hfew)).1
    obtain ⟨place, n, hslot, hn, hchild⟩ := hfits.exists_child htext hplace hname hlength
    rw [← Tree.at?_concat hparent'] at hchild
    have hhint := focusHint_iff_id_eq htext hplace hnum'.distinct (Tree.mem_nodes_iff.2 ⟨path, hparent'⟩) hslot hn
    refine ⟨n, hchild, hhint, fun hid => ?_⟩
    refine focusesOn_of_visible hnum'.ids_nodup hcollapsed hchild ?_
    rw [hresolve, Focus.resolve_of_hint (hhint.2 hid) (Tree.id_mem_ids hchild)]
  · exact length_children_of_perform hs hnum hplain hperform hparent hparent' hfits hnames
      (htexts ⟨hfragment, single_signsOf hsingle⟩)
  · exact keeps_identity_iff_settles hs hnum hplain hperform hparent hparent' hfits hnames
      (htexts ⟨hplainText, hsingle⟩) hreread hfew

/-- A child of a root is replaced, and what is then read is reconciled with the tree. -/
theorem replace_in_root {s : Session String} (ht : s.tree.Distinct) {root c : Node} (hroot : root ∈ s.tree.roots)
    (hc : c ∈ root.children) {field : String} {index : Nat} (hplace : root.locate c.id = .ok (field, index))
    {text : String} (hne : text ≠ "") {after : String}
    (happly : applyChanges s.text [root.printOver (root.reprinted
      [⟨c.range.start, c.range.stop, .replaceChild c.id root.id field index text⟩] s.settings.prettyWidth)] = .ok after)
    {reread : List Node} (hread : readDocument after = .ok reread) :
    Edit.replace s.tree text c.id =
        .ok ⟨c.range.start, c.range.stop, .replaceChild c.id root.id field index text⟩ ∧
      ∃ committed s', s.perform [⟨c.range.start, c.range.stop, .replaceChild c.id root.id field index text⟩] =
        (.ok committed, s') ∧ s'.text = after ∧ s'.tree = (reconcile s.tree reread s.ids).1 := by
  have hedit := Edit.replace_of_child ht (Tree.root_mem_nodes hroot) hc hplace hne
  obtain ⟨e, hedit', -, committed, s', hperform, htext⟩ := perform_in_root ht hroot hc hplace hne happly hread
  cases hedit.symm.trans hedit'
  obtain ⟨roots, changes, hroots, -, htree, -⟩ := commit_of_perform hperform
  rw [htext] at hroots
  cases hread.symm.trans hroots
  exact ⟨hedit, committed, s', hperform, htext, htree⟩

/-- An argument of a call is replaced, and the call behind it looks like neither the old nor the new one. -/
theorem put_in_takes_focus_unlike_call :
    ∃ (s : Session String) (e : Edit), start "(f a) (f c)" .default = .ok s ∧
      Edit.replace s.tree "b" ⟨3⟩ = .ok e ∧ ∃ committed s', s.perform [e] = (.ok committed, s') ∧
        s'.text = "(f b) (f c)" ∧ s'.FocusesOn [0, 1] ∧ Forest.Settles [0] s.tree.roots s'.tree.roots := by
  obtain ⟨read, hread, hcount⟩ : ∃ read, readDocument "(f a) (f c)" = .ok read ∧ handedOut [read] = 6 :=
    Except.exists_ok (by decide +kernel)
  obtain ⟨s, hstart, hbuffer, root, hroot, c, hc, hid, hplace, hprint, reread, hreread, hcount', parent, hparent,
      hname, hsame, hlength⟩ :
      ∃ s : Session String, start "(f a) (f c)" .default = .ok s ∧ s.text = "(f a) (f c)" ∧
        ∃ root : Node, root ∈ s.tree.roots[0]? ∧ ∃ c : Node, c ∈ root.children[1]? ∧ c.id = ⟨3⟩ ∧
          root.locate c.id = .ok ("args", 0) ∧
          root.printOver (root.reprinted [⟨c.range.start, c.range.stop, .replaceChild c.id root.id "args" 0 "b"⟩]
            s.settings.prettyWidth) = ⟨⟨0, 0⟩, ⟨0, 5⟩, "(f b)"⟩ ∧
          ∃ reread : List Node, reread ∈ (readDocument "(f b) (f c)").toOption ∧ handedOut [reread] = 6 ∧
            ∃ parent : Node, parent ∈ (reconcile s.tree reread s.ids).1.at? [0] ∧
              parent.kind.name = root.kind.name ∧ parent.id = root.id ∧
              parent.children.length = (root.edited
                [⟨c.range.start, c.range.stop, .replaceChild c.id root.id "args" 0 "b"⟩]).children.length :=
    Except.exists_ok (by decide +kernel)
  have hreread := Except.toOption_eq_some.1 hreread
  obtain ⟨hnum, hnext⟩ := start_numbered hstart hread (by rw [hcount]; decide)
  have happly : applyChanges s.text [⟨⟨0, 0⟩, ⟨0, 5⟩, "(f b)"⟩] = .ok "(f b) (f c)" := by
    rw [hbuffer]
    cbv
  rw [← hprint] at happly
  obtain ⟨hedit, committed, s', hperform, htext, htree⟩ := replace_in_root hnum.distinct (List.mem_of_getElem? hroot)
    (List.mem_of_getElem? hc) hplace (by decide) happly hreread
  have hat : s.tree.at? [0] = some root := by
    rw [Tree.at?, Forest.at?_cons, hroot]
    rfl
  rw [← htree] at hparent
  have hplain : Plain s.text := by
    rw [hbuffer]
    exact Except.exists_ok (by decide +kernel)
  obtain ⟨-, hfocus, hway⟩ := put_in_takes_focus (start_inStep hstart) hnum hplain expression_of_atom.single
    (.replace hat hc hedit) hperform (htext ▸ hreread) (by rw [hnext, hcount, hcount']; decide) hat hparent hname
  obtain ⟨n, -, -, htakes⟩ := hfocus hlength
  refine ⟨s, _, hstart, hid ▸ hedit, committed, s', hperform, htext, htakes hsame, ?_⟩
  refine ((hway fun q hq => ?_).2 expression_of_atom.uncommented).1 hsame
  rcases List.prefix_cons_iff.1 hq with rfl | ⟨t, rfl, ht⟩
  · rfl
  · obtain rfl := List.prefix_nil.1 ht
    show (s'.tree.at? [0]).map _ = (s.tree.at? [0]).map _
    rw [hparent, hat]
    exact congrArg some hname

/-- An argument of a call is replaced so that the call looks like the one behind it. That one loses its identity to the
edited call, gets that of the edited call in turn, and has the focus in it. -/
theorem focus_in_call_alike :
    ∃ (s : Session String) (e : Edit), start "(f a) (f b)" .default = .ok s ∧ e.PutsAt s.tree "b" [0] 1 ∧
      ∃ committed s', s.perform [e] = (.ok committed, s') ∧ s'.text = "(f b) (f b)" ∧
        (s'.tree.at? [0]).map (·.kind.name) = (s.tree.at? [0]).map (·.kind.name) ∧
        committed.focus = s'.focus ∧ s'.FocusesOn [1, 1] ∧ ¬ s'.FocusesOn [0, 1] := by
  obtain ⟨read, hread, hcount⟩ : ∃ read, readDocument "(f a) (f b)" = .ok read ∧ handedOut [read] = 6 :=
    Except.exists_ok (by decide +kernel)
  obtain ⟨s, hstart, hbuffer, hfree, root, hroot, c, hc, hplace, hprint, reread, hreread, hcount', hnames, parent,
      hparent, hid, hbefore, place, hslot, hlength⟩ :
      ∃ s : Session String, start "(f a) (f b)" .default = .ok s ∧ s.text = "(f a) (f b)" ∧ s.collapsed = [] ∧
        ∃ root : Node, root ∈ s.tree.roots[0]? ∧ ∃ c : Node, c ∈ root.children[1]? ∧
          root.locate c.id = .ok ("args", 0) ∧
          root.printOver (root.reprinted [⟨c.range.start, c.range.stop, .replaceChild c.id root.id "args" 0 "b"⟩]
            s.settings.prettyWidth) = ⟨⟨0, 0⟩, ⟨0, 5⟩, "(f b)"⟩ ∧
          ∃ reread : List Node, reread ∈ (readDocument "(f b) (f b)").toOption ∧ handedOut [reread] = 6 ∧
            ((reconcile s.tree reread s.ids).1.at? [0]).map (·.kind.name) = (s.tree.at? [0]).map (·.kind.name) ∧
            ∃ parent : Node, parent ∈ (reconcile s.tree reread s.ids).1.at? [1] ∧ parent.id = root.id ∧
              parent.kind.before "args" = 1 ∧ ∃ place : Slot Node, place ∈ parent.kind.slot? "args" ∧
                0 < place.nodes.length :=
    Except.exists_ok (by decide +kernel)
  have hreread := Except.toOption_eq_some.1 hreread
  obtain ⟨hnum, hnext⟩ := start_numbered hstart hread (by rw [hcount]; decide)
  have happly : applyChanges s.text [⟨⟨0, 0⟩, ⟨0, 5⟩, "(f b)"⟩] = .ok "(f b) (f b)" := by
    rw [hbuffer]
    cbv
  rw [← hprint] at happly
  obtain ⟨hedit, committed, s', hperform, htext, htree⟩ := replace_in_root hnum.distinct (List.mem_of_getElem? hroot)
    (List.mem_of_getElem? hc) hplace (by decide) happly hreread
  have hat : s.tree.at? [0] = some root := by
    rw [Tree.at?, Forest.at?_cons, hroot]
    rfl
  obtain ⟨-, changes, -, -, -, hcollapsed, hfocus, hresolve⟩ := commit_of_perform hperform
  have hnum' := (reconcile_numbered hnum reread (by
    rw [hnext, hcount, show (Forest.allIds reread).length = 6 from hcount']
    decide)).1
  rw [← htree] at hnames hparent hnum'
  obtain ⟨m, hfirst⟩ : ∃ m, place.nodes[0]? = some m := ⟨_, List.getElem?_eq_getElem hlength⟩
  have hm : s'.tree.at? [1, 1] = some m := by
    have hchild := (Kind.getElem?_before hslot hlength).trans hfirst
    rw [hbefore] at hchild
    exact (Tree.at?_concat hparent 1).trans hchild
  rw [hfree] at hcollapsed hresolve
  have hshown : s'.focus = some m.id := by
    have hhint := (focusHint_iff_id_eq (e := ⟨c.range.start, c.range.stop, .replaceChild c.id root.id "args" 0 "b"⟩)
      rfl rfl hnum'.distinct (Tree.mem_nodes_iff.2 ⟨[1], hparent⟩) hslot hfirst).2 hid
    rw [hresolve, Focus.resolve_of_hint hhint (Tree.id_mem_ids hm), Focus.visible, List.find?_eq_none.2 (by simp)]
  refine ⟨s, _, hstart, .replace hat hc hedit, committed, s', hperform, htext, hnames, hfocus, ?_, ?_⟩
  · refine ⟨m, hm, .inl ⟨hshown, ?_⟩⟩
    rintro k - ⟨a, -, ha⟩
    simp [hcollapsed] at ha
  · rintro ⟨n, hn, ⟨hshown', -⟩ | ⟨k, -, a, -, -, ha, -⟩⟩
    · have hsame := Tree.path_unique_of_nodup hnum'.ids_nodup hn hm (Option.some.inj (hshown'.symm.trans hshown))
      cases hsame
    · simp [hcollapsed] at ha

end Session

end TreeEdit
