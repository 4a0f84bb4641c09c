import Mathlib
import TreeEdit.Proofs.Agreement
import TreeEdit.Proofs.Batches
import TreeEdit.Proofs.Identities

/-!
# Batches of edits performed

A batch of edits inside nodes does what it says. If the ranges of the nodes cover no foreign code, every
batch of compatible edits is performed, and the new text says what the old roots say with all the edits
made at once: `Session.perform_makes_edits_at_once`.
-/

namespace TreeEdit

open Edit Lexeme

theorem Tree.Identified.distinct {t : Tree} (h : t.Identified) : t.Distinct := by
  obtain ⟨hnodup, hassigned⟩ := h
  refine ⟨(List.nodup_append.1 hnodup).1, fun hmem => ?_⟩
  exact absurd (hassigned _ (List.mem_append_left _ hmem)) (by decide)

namespace Session

/-- A batch whose changes make a text that can be read is performed. -/
theorem perform_of_changes {s : Session String} {edits : List Edit} (hne : edits ≠ []) {changes : List TextChange}
    (hchanges : textChanges s.tree edits s.settings.prettyWidth = .ok changes) {after : String}
    (happly : applyChanges s.text changes = .ok after) {reread : List Node}
    (hread : readDocument after = .ok reread) :
    ∃ committed s', s.perform edits = (.ok committed, s') ∧ s'.text = after := by
  have hdraft : Draft.ofChanges s.text changes = .ok ⟨after, reread⟩ :=
    Draft.ofChanges_eq_ok_iff.2 ⟨happly, hread⟩
  have hplan : s.plan edits = .ok (changes, ⟨after, reread⟩) :=
    bind_eq_ok.2 ⟨changes, hchanges, bind_eq_ok.2 ⟨_, hdraft, rfl⟩⟩
  rcases s.perform_cases edits with ⟨hnil, -⟩ | ⟨e, herror, -⟩ | ⟨changes', draft, hint, hplan', h⟩
  · exact absurd hnil hne
  · rw [hplan] at herror
    cases herror
  · cases hplan.symm.trans hplan'
    obtain ⟨hoverlap, -⟩ := applyChanges_eq_ok_iff.1 happly
    have hprepare : s.prepare changes (some ⟨after, reread⟩) = .ok (latestFirst changes, ⟨after, reread⟩) :=
      bind_eq_ok.2 ⟨(), hoverlap, rfl⟩
    rcases s.commit_cases changes hint (some ⟨after, reread⟩) with ⟨e, herror, -⟩ |
      ⟨sorted, draft, e, b, hprep, hwrite, -⟩ | ⟨sorted, draft, b, hprep, hwrite, hcommit⟩
    · rw [hprepare] at herror
      cases herror
    · cases hprepare.symm.trans hprep
      rw [show s.buffer = s.text from rfl, writeAll_of_applyChanges happly] at hwrite
      cases hwrite
    · cases hprepare.symm.trans hprep
      rw [show s.buffer = s.text from rfl, writeAll_of_applyChanges happly] at hwrite
      cases hwrite
      exact ⟨_, _, h.trans hcommit, rfl⟩

theorem InStep.of_perform {s s' : Session String} (hs : s.InStep) {edits : List Edit}
    {outcome : Except EditError Committed} (h : s.perform edits = (outcome, s')) : s'.InStep := by
  have hperformed := perform_inStep hs edits
  rwa [h] at hperformed

/-- The roots after a batch that is performed are those of the new text, but for their identities. -/
theorem roots_of_perform {s s' : Session String} (hs : s.InStep) {edits : List Edit} {committed : Committed}
    (h : s.perform edits = (.ok committed, s')) {after : String} (htext : s'.text = after) {reread : List Node}
    (hread : readDocument after = .ok reread) : s'.tree.roots.map Node.anonymous = reread.map Node.anonymous := by
  obtain ⟨reread', hread', hroots⟩ := (hs.of_perform h).roots
  rw [htext, hread] at hread'
  cases hread'
  exact hroots

/-- A single edit that is performed: its text is read again, and the edit or its changes choose the focus. -/
theorem commit_of_perform {s s' : Session String} {e : Edit} {committed : Committed}
    (h : s.perform [e] = (.ok committed, s')) :
    ∃ roots changes, readDocument s'.text = .ok roots ∧
      textChanges s.tree [e] s.settings.prettyWidth = .ok changes ∧ s'.tree = (reconcile s.tree roots s.ids).1 ∧
      s'.collapsed = s.collapsed.filter s'.tree.contains ∧ committed.focus = s'.focus ∧
      s'.focus = Focus.resolve s'.tree (some e.focusHint) s.text s'.text (latestFirst changes) s.collapsed := by
  simp only [perform] at h
  cases hplan : s.plan [e] with
  | error err =>
      rw [hplan] at h
      cases h
  | ok planned =>
      obtain ⟨changes, draft⟩ := planned
      rw [hplan] at h
      obtain ⟨changes', hchanges, hplan⟩ := bind_eq_ok.1 hplan
      obtain ⟨draft', hdraft, hplan⟩ := bind_eq_ok.1 hplan
      cases hplan
      have hahead : ∀ d, some draft = some d → Draft.ofChanges s.text changes = .ok d := by
        rintro d ⟨⟩
        exact hdraft
      rcases s.commit_cases changes (some e.focusHint) (some draft) with ⟨err, -, hcommit⟩ |
        ⟨sorted, draft', err, b, -, -, hcommit⟩ | ⟨sorted, draft', b, hprep, hwrite, hcommit⟩
      · cases h.symm.trans hcommit
      · cases h.symm.trans hcommit
      · obtain ⟨rfl, hok, hread⟩ := prepare_writes hahead hprep
        cases hwrite.symm.trans hok
        cases h.symm.trans hcommit
        exact ⟨draft'.roots, changes, hread, hchanges, rfl, rfl, rfl, rfl⟩

theorem InStep.placed {s : Session String} (hs : s.InStep) :
    ∃ doc, Lexeme.text doc = s.text.toList ∧ Placed s.tree.roots doc ∧ tokenize s.text = .ok (tokens .zero doc) := by
  obtain ⟨read, hread, hroots⟩ := hs.roots
  obtain ⟨doc, htext, hplaced⟩ := readDocument_placed hread hroots
  refine ⟨doc, htext, hplaced, ?_⟩
  rw [tokenize, ← htext]
  exact tokensFrom_run hplaced.run .zero

/-- Whatever stands in the text of a session can be printed. -/
theorem InStep.writable {s : Session String} (hs : s.InStep) {n : Node} (hn : s.tree.Stands n) : n.Writable := by
  obtain ⟨read, hread, hroots⟩ := hs.roots
  obtain ⟨root, hroot, hwithin⟩ := hn
  have hmem := List.mem_map_of_mem (f := Node.anonymous) hroot
  rw [hroots] at hmem
  obtain ⟨root', hroot', heq⟩ := List.mem_map.1 hmem
  exact ((readDocument_standing hread root' hroot').sound.writable.anonymous heq).within hwithin

/-- A list that stands in the text of a session can be printed with edits made that put in texts which do
not spill over. -/
theorem InStep.prints {s : Session String} (hs : s.InStep) {n : Node} (hn : s.tree.Stands n) (hlist : n.Bracketed)
    {edits : List Edit} (htexts : ∀ e ∈ edits, ∀ text ∈ e.text?, Fragment text) (width : Nat) :
    ∃ ms, Lexeme.text ms = (n.reprinted edits width).toList ∧ Prints ms (n.wording edits) := by
  refine ((hs.writable hn).edited htexts).prints ?_ _ _
  rwa [Node.Bracketed, Node.kind_edited, Kind.isList_refit, Kind.isList_map]

end Session

/-- Nodes with their ranges one behind the other do not stand within each other. -/
theorem Tree.Orderly.not_within {t : Tree} {doc : List Lexeme} (ht : t.Orderly doc) {a b : Node}
    (ha : t.Stands a) (hb : t.Stands b) (hle : a.range.stop ≤ b.range.start) :
    ¬ a.Within b ∧ ¬ b.Within a := by
  have hpa := ht.range_proper ha
  have hpb := ht.range_proper hb
  constructor
  · intro hin
    have hrange := hin.range_le fun l hl => ht.settled (ha.within hl)
    exact absurd (hpb.trans_le (hrange.2.trans hle)) (lt_irrefl _)
  · intro hin
    have hrange := hin.range_le fun l hl => ht.settled (hb.within hl)
    exact absurd (hpa.trans_le (hle.trans hrange.1)) (lt_irrefl _)

theorem Tree.Orderly.pairwise_not_within {t : Tree} {doc : List Lexeme} (ht : t.Orderly doc) {K : Node → Prop}
    {marks : List Node} (hmarks : Outermost K t.roots marks)
    (hranges : marks.Pairwise fun a b => a.range.stop ≤ b.range.start) :
    marks.Pairwise fun a b => ¬ a.Within b ∧ ¬ b.Within a := by
  refine hranges.imp_of_mem fun ha hb hle => ?_
  exact ht.not_within (hmarks.chosen _ ha).2 (hmarks.chosen _ hb).2 hle

theorem Edit.Touched.bracketed {t : Tree} (ht : t.Distinct) {edits : List Edit}
    (hfits : ∀ e ∈ edits, e.parent? = none ∨ ∃ m ∈ t.nodes, e.Fits m) {n : Node} (hn : n ∈ t.nodes)
    (h : Touched edits n) : n.Bracketed := by
  obtain ⟨e, he, hparent | ⟨name, params, body, hk, -⟩⟩ := h
  · rcases hfits e he with hroot | ⟨m, hm, hfit⟩
    · rw [hroot] at hparent
      cases hparent
    · rw [hfit.parent?_eq] at hparent
      obtain rfl := ht.eq_of_id_eq hm hn (Option.some.inj hparent)
      exact hfit.bracketed
  · simp [Node.Bracketed, hk, Kind.isList]

namespace Session

/-- A batch of compatible edits that put in texts which do not spill over is performed, and the new text
says what the roots say with the edits made at once. -/
theorem perform_batch {s : Session String} (hs : s.InStep) {doc : List Lexeme} (ht : s.tree.Orderly doc)
    (hdoc : Lexeme.text doc = s.text.toList) {edits : List Edit} (hfits : ∀ e ∈ edits, ∃ m ∈ s.tree.nodes, e.Fits m)
    (htexts : ∀ e ∈ edits, ∀ text ∈ e.text?, Fragment text) (hcompat : edits.Pairwise (Compatible s.tree)) :
    ∃ committed s', s.perform edits = (.ok committed, s') ∧
      ∃ ts, tokenize s'.text = .ok ts ∧ ts.filterMap Token.sign? =
        (s.tree.roots.map (Node.edited (Edit.latestFirst edits))).flatMap Node.flatten := by
  have hperm := Edit.latestFirst_perm edits
  have hfits' : ∀ e ∈ edits, e.parent? = none ∨ ∃ m ∈ s.tree.nodes, e.Fits m := fun e he => .inr (hfits e he)
  obtain ⟨tops, htops, hapart, hchanges⟩ := textChanges_eq ht hfits' hcompat s.settings.prettyWidth
  have hroots : (Edit.latestFirst edits).filterMap Edit.rootChange? = [] := by
    refine List.filterMap_eq_nil_iff.2 fun e he => ?_
    obtain ⟨m, -, hfit⟩ := hfits e (hperm.subset he)
    exact hfit.rootChange?_eq
  rw [hroots, List.nil_append] at hchanges
  have hstep : ∀ root ∈ s.tree.roots, ∀ m, root.Within m → ¬ Touched edits m →
      m.wording (Edit.latestFirst edits) = fill (Node.wording (Edit.latestFirst edits)) m.kind.shape := by
    intro root hroot m hm huntouched
    exact Node.wording_of_untouched fun e he htouches => huntouched ⟨e, hperm.subset he, htouches⟩
  have hlist : ∀ root ∈ s.tree.roots, ∀ m, root.Within m → Touched edits m → m.Bracketed := by
    intro root hroot m hm htouched
    exact htouched.bracketed ht.distinct hfits' (Tree.Stands.mem_nodes ⟨root, hroot, hm⟩)
  have hprint : ∀ root ∈ s.tree.roots, ∀ m, root.Within m → Touched edits m →
      ∃ ms, Lexeme.text ms = (m.reprinted (Edit.latestFirst edits) s.settings.prettyWidth).toList ∧
        Prints ms (m.wording (Edit.latestFirst edits)) := by
    intro root hroot m hm htouched
    exact hs.prints ⟨root, hroot, hm⟩ (hlist root hroot m hm htouched) (fun e he => htexts e (hperm.subset he)) _
  -- The changes print the outermost touched nodes, whatever order they are listed in.
  obtain ⟨marks, hmarks, hranges, happly⟩ := ht.placed.printOver ht.clear hdoc hstep hlist hprint
  have hmarksApart := ht.pairwise_not_within hmarks hranges
  obtain ⟨after, hafter, htokens, reread, hreread⟩ := happly (TreeEdit.latestFirst _)
    ((List.mergeSort_perm _ _).trans ((htops.perm hmarks hapart hmarksApart).map _))
  cases edits with
  -- No change is committed for no edits; the text says what it said.
  | nil =>
      have hnone : textChanges s.tree [] s.settings.prettyWidth = .ok [] := by
        simp [textChanges, Edit.latestFirst, groupEdits, latestFirst]
      rw [← Except.ok.inj (hnone.symm.trans hchanges)] at hafter
      have hsame : applyChanges s.text [] = .ok s.text :=
        applyChanges_eq_ok_iff.2 ⟨by simp [latestFirst, refuseOverlap], [],
          by simp [latestFirst, pure, Except.pure], (String.ofList_toList).symm⟩
      refine ⟨⟨s.focus, []⟩, s, rfl, ?_⟩
      rw [Except.ok.inj (hsame.symm.trans hafter), List.flatMap_map]
      exact htokens
  | cons e edits =>
      obtain ⟨committed, s', hperform, hs'⟩ := perform_of_changes (List.cons_ne_nil e edits) hchanges hafter hreread
      refine ⟨committed, s', hperform, ?_⟩
      rw [hs', List.flatMap_map]
      exact htokens

/-- If no range covers foreign code, every batch of compatible edits in places of nodes that put in single
expressions is performed, and the new text says what the roots say with all the edits made at once. -/
theorem perform_makes_edits_at_once {s : Session String} (hs : s.InStep) (hids : s.tree.Identified)
    {ts : List Token} (hts : tokenize s.text = .ok ts) (hclear : ∀ n ∈ s.tree.nodes, n.Clear ts)
    {edits : List Edit} (hbuilt : ∀ e ∈ edits, e.Built s.tree Expression)
    (hcompat : edits.Pairwise (Compatible s.tree)) :
    ∃ committed s', s.perform edits = (.ok committed, s') ∧
      ∃ ts', tokenize s'.text = .ok ts' ∧ ts'.filterMap Token.sign? =
        (s.tree.roots.map (Node.edited (Edit.latestFirst edits))).flatMap Node.flatten := by
  obtain ⟨doc, hdoc, hplaced, htokens⟩ := hs.placed
  cases hts.symm.trans htokens
  have horderly : s.tree.Orderly doc := ⟨hids.distinct, hplaced, hclear⟩
  refine perform_batch hs horderly hdoc (fun e he => (hbuilt e he).fits hids.distinct) ?_ hcompat
  intro e he text htext
  exact ((hbuilt e he).text_ok hids.distinct text htext).fragment

/-- A text is an expression if it can be worked out to be one. -/
theorem expression_of_tokens {text : String}
    (h : ∃ ts ∈ (tokenize text).toOption, (∀ t ∈ ts, t.kind ≠ .comment) ∧
      ∃ roots ∈ (readDocument text).toOption, roots.length = 1) : Expression text := by
  obtain ⟨ts, hts, hcomments, roots, hread, hone⟩ := Except.exists_ok h
  obtain ⟨n, rfl⟩ := List.length_eq_one_iff.1 hone
  exact ⟨⟨ts, hts, hcomments⟩, n, Except.toOption_eq_some.1 hread⟩

theorem expression_of_call : Expression "(h)" := expression_of_tokens (by decide +kernel)

/-- A branch is taken away together with its comment, and text put in behind the list it is in. -/
theorem perform_makes_edits_at_once_nested :
    ∃ (s : Session String) (removal insertion : Edit), start "(g (if a b ; no\n c) d)" .default = .ok s ∧
      delete s.tree ⟨5⟩ = .ok removal ∧ insertAt s.tree "(h)" (some ⟨1⟩) "args" 1 = .ok insertion ∧
      ∃ committed s', s.perform [insertion, removal] = (.ok committed, s') ∧
        ∃ ts, tokenize s'.text = .ok ts ∧ ts.filterMap Token.sign? =
          [.opening, .word "g", .opening, .word "if", .word "a", .word "...", .word "c", .closing,
            .opening, .word "h", .closing, .word "d", .closing] := by
  let insertion : Edit := ⟨⟨1, 4⟩, ⟨1, 4⟩, .insertChild ⟨1⟩ "args" 1 "(h)"⟩
  let removal : Edit := ⟨⟨0, 9⟩, ⟨0, 15⟩, .deleteChild ⟨5⟩ ⟨3⟩ "then" 0⟩
  obtain ⟨s, hstart, hbuffer, hids, ⟨ts, hts, hclear⟩, htop, hbranch, hsigns⟩ :
      ∃ s, start "(g (if a b ; no\n c) d)" .default = .ok s ∧ s.text = "(g (if a b ; no\n c) d)" ∧
        s.tree.Identified ∧
        (∃ ts ∈ (tokenize "(g (if a b ; no\n c) d)").toOption, ∀ n ∈ s.tree.nodes, n.Clear ts) ∧
        (∃ n ∈ s.tree.at? [0], n.id = ⟨1⟩ ∧ ∃ slot ∈ n.kind.slot? "args", slot.field = "args" ∧
          Tree.indexPos slot.nodes 1 (Tree.slotStart n "args") = ⟨1, 4⟩ ∧ slotIndex slot ⟨1, 4⟩ = .ok 1) ∧
        (∃ p ∈ s.tree.at? [0, 1], p.id = ⟨3⟩ ∧ ∃ c ∈ p.children[1]?, c.id = ⟨5⟩ ∧
          c.range = ⟨⟨0, 9⟩, ⟨0, 15⟩⟩ ∧ p.locate c.id = .ok ("then", 0) ∧ c.containsId ⟨1⟩ = false) ∧
        (s.tree.roots.map (Node.edited [insertion, removal])).flatMap Node.flatten =
          [.opening, .word "g", .opening, .word "if", .word "a", .word "...", .word "c", .closing,
            .opening, .word "h", .closing, .word "d", .closing] :=
    Except.exists_ok (by decide +kernel)
  obtain ⟨n, hn, hnid, slot, hslot, hfield, hpos, hindex⟩ := htop
  obtain ⟨p, hp, hpid, c, hc, hcid, hrange, hplace, hcontains⟩ := hbranch
  have hts := Except.toOption_eq_some.1 hts
  have ht : s.tree.Distinct := hids.distinct
  have hinsertion : insertAt s.tree "(h)" (some ⟨1⟩) "args" 1 = .ok insertion := by
    rw [← hnid, insertAt_of_slot ht (Tree.mem_nodes_iff.2 ⟨_, hn⟩) hslot hpos hindex, hnid, hfield]
  have hchild : c ∈ p.children := List.mem_of_getElem? hc
  have hp := Tree.mem_nodes_iff.2 ⟨_, hp⟩
  have hremoval : delete s.tree ⟨5⟩ = .ok removal := by
    rw [← hcid, delete_of_child ht hp hchild hplace, hcid, hpid, hrange]
  have hcompat : Compatible s.tree insertion removal := by
    refine compatible_of_inserts rfl (by decide) ?_
    rintro ⟨node, m, parent, htarget, hget, hparent, hcontained⟩
    cases htarget
    cases hparent
    rw [← hcid, ht.get?_eq (Tree.mem_nodes_of_mem_walk hp (Node.mem_walk_of_child hchild))] at hget
    cases hget
    rw [hcontains] at hcontained
    cases hcontained
  have hsorted : Edit.latestFirst [insertion, removal] = [insertion, removal] :=
    List.mergeSort_of_pairwise (by decide)
  have hbuilt : ∀ e ∈ [insertion, removal], e.Built s.tree Expression := by
    intro e he
    rcases List.mem_pair.1 he with rfl | rfl
    · exact .insertAt expression_of_call hinsertion
    · exact .delete hremoval rfl
  refine ⟨s, removal, insertion, hstart, hremoval, hinsertion, ?_⟩
  rw [← hsigns]
  nth_rewrite 2 [← hsorted]
  exact perform_makes_edits_at_once (start_inStep hstart) hids (hbuffer.symm ▸ hts) hclear hbuilt
    (List.pairwise_pair.2 hcompat)

end Session

end TreeEdit
