import TreeEdit.Proofs.Headings
import TreeEdit.Proofs.RootInterior
import TreeEdit.Proofs.Moves

/-!
# Comments under single edits

A single edit inside a root prints one node again, the root itself or a node in it. The other roots stay what
they are, and the root keeps the text of its comment, with one exception: if the root itself is printed, its
comment comes first, and where the root before it ends on that line the first line of the comment is hung
there. `Session.child_edit_keeps_comments_iff` says that this is the only way it fails.
-/

namespace TreeEdit

open Edit Reader Lexeme

/-! ## A root printed over -/

namespace Lexeme.Heads

variable {lines : List String} {below whole : List Lexeme}

/-- What is printed starts with a comment, or it is what stands below the comments. -/
theorem head_eq (h : Heads lines below whole) :
    (∃ body, whole.head? = some (.comment body)) ∨ whole.head? = below.head? := by
  cases h with
  | nil _ => exact .inr rfl
  | cons _ _ _ _ => exact .inl ⟨_, rfl⟩

theorem getLast?_eq (h : Heads lines below whole) (hne : below ≠ []) : whole.getLast? = below.getLast? := by
  induction h with
  | nil _ => rfl
  | @cons body cs lines below whole _ _ _ _ ih =>
      have hsplit : comment body :: blank '\n' :: (blanks cs ++ whole) =
          (comment body :: blank '\n' :: blanks cs) ++ whole := rfl
      rw [hsplit, List.getLast?_append, ih hne]
      cases hlast : below.getLast? with
      | none => exact absurd (List.getLast?_eq_none_iff.1 hlast) hne
      | some l => rfl

end Lexeme.Heads

theorem Node.bareComment_commentLines (n : Node) :
    (bareComment n.commentLines).map Comment.text = n.comment.map Comment.text := by
  rw [commentLines]
  cases n.comment with
  | none => rfl
  | some c =>
      show (bareComment (linesOf c.text)).map Comment.text = some c.text
      rw [bareComment_of_ne (linesOf_ne_nil c.text), Option.map_some, joinLines_linesOf]

theorem Node.commentLines_congr {n m : Node} (h : n.comment.map Comment.text = m.comment.map Comment.text) :
    n.commentLines = m.commentLines := by
  have hlines : ∀ n : Node, n.commentLines = (n.comment.map Comment.text).elim [] linesOf := by
    intro n
    rw [commentLines]
    cases n.comment <;> rfl
  rw [hlines, hlines, h]

theorem Node.commentLines_eq_nil_iff (n : Node) : n.commentLines = [] ↔ n.comment = none := by
  rw [commentLines]
  cases n.comment with
  | none => simp
  | some c =>
      rw [Option.elim_some]
      simp [linesOf_ne_nil]

/-- Another note shows in the comment of a node. -/
theorem Node.bare_addNotes_ne (n : Node) (t : Note) : (n.addNotes [t]).bare ≠ n.bare := by
  intro hbare
  have hlines : (n.addNotes [t]).commentLines = n.commentLines := by
    refine commentLines_congr ?_
    have hcomment := congrArg Node.comment hbare
    rw [bare_eq, bare_eq n] at hcomment
    simpa [Option.map_map, Function.comp_def] using congrArg (Option.map Comment.text) hcomment
  have hremarks := n.remarks_addNotes [t]
  rw [remarks_eq, hlines, remarks_eq n, Node.children, Node.kind_addNotes] at hremarks
  have hnone : t.remarks = 0 := by simpa [Node.children] using hremarks
  exact linesOf_ne_nil t.text (by simpa [Note.remarks] using hnone)

namespace Parted

variable {ls : List Lexeme} {roots : List Node} {k : Nat} {m : Node} {x : List Lexeme} {covered : List Char}
  {rest : List Lexeme} {before after : List Element} (h : Parted ls roots k m x covered rest before after)
  {lines : List String} {b : Bracket} {core whole : List Lexeme}
  (hheads : Heads lines (.opening b :: (core ++ [.closing b])) whole) (hwhole : Run whole) (hcore : Balanced core)

include h

/-- The roots before it end where the range of the root starts, or before. -/
theorem stop_le {prev : Node} (hprev : prev ∈ roots.take k) : prev.span.stop ≤ m.range.start := by
  have hspaced := (h.left.rowed h.run_left.ok).attach
  rw [h.hangs.attach_eq] at hspaced
  rw [h.start]
  exact prev.le_range_stop.trans (hspaced.between prev hprev).stop

include hheads hwhole

theorem run_headed : Run (x ++ (whole ++ rest)) := by
  have hlast : whole.getLast? = some (.closing b) := by
    rw [hheads.getLast?_eq (by simp), ← List.cons_append]
    exact List.getLast?_concat
  refine h.run_left.append (hwhole.append h.run_right ?_) ?_
  · intro l hl l' _
    rw [hlast] at hl
    cases hl
    trivial
  · intro l hl l' hl'
    have hcomment : ∀ body, l ≠ .comment body := h.closed l hl
    have hne : whole ≠ [] := by
      rintro rfl
      cases hlast
    rw [List.head?_append_of_ne_nil _ hne] at hl'
    rcases hheads.head_eq with ⟨body, hhead⟩ | hhead
    all_goals
      rw [hhead] at hl'
      cases hl'
      cases l with
      | comment body => exact absurd rfl (hcomment body)
      | _ => trivial

include hcore

omit hwhole in
/-- The root printed over with its comment above it, in the grammar. -/
theorem parses_headed :
    ∃ (notes : List Note) (n : Node) (fs : List Element), notes.map Note.text = lines ∧
      (∀ t ∈ notes.head?, t.span.start = m.range.start) ∧ n.comment = none ∧
      Parses .zero (x ++ (whole ++ rest)) (before ++ ((notes.map .note ++ [.expr n]) ++ fs)) ∧
      (Element.attach fs).map Node.bare = (roots.drop (k + 1)).map Node.bare ∧
      Element.Afresh n.span.stop.line fs ∧ (fs = [] ∨ Element.nodes fs ≠ []) := by
  obtain ⟨q, notes, htexts, hfirst, -, hstop, hparses⟩ := hheads.parses (Pos.zero.advanceOver (text x))
  obtain ⟨items, hitems⟩ := hcore.exists_parses (q.advance b.opener)
  have hlist : Parses q (.opening b :: (core ++ [.closing b]))
      [.expr (.make (recognise (Element.attach items)) ⟨q, _⟩)] :=
    .list b rfl hitems (.nil _)
  obtain ⟨fs, hfs, hbare, hafresh, hnodes⟩ :=
    h.right.elsewhere ((Pos.zero.advanceOver (text x)).advanceOver (text whole))
  refine ⟨notes, _, fs, htexts, h.start ▸ hfirst, rfl, h.left.append ((hparses _ hlist).append hfs), ?_, ?_,
    hnodes h.whole⟩
  · rw [hbare, h.attach_eq]
  · show Element.Afresh (q.advanceOver (text (.opening b :: (core ++ [.closing b])))).line fs
    rw [hstop]
    exact hafresh h.afresh

/-- Where no root ends on the line of its comment, a root can be printed over: the other roots stay what they
are, and it keeps its comment. -/
theorem reads_headed (hm : roots[k]? = some m) (hlines : lines = m.commentLines)
    (hfree : lines = [] ∨ ∀ j prev, k = j + 1 → roots[j]? = some prev →
      prev.span.stop.line ≠ m.range.start.line) :
    ∃ reread, readDocument (String.ofList (text x ++ (text whole ++ text rest))) = .ok reread ∧
      Forest.SameBeside k roots reread := by
  have hrun := h.run_headed hheads hwhole
  obtain ⟨notes, n, fs, htexts, hfirst, hn, hparses, hbare, hafresh, hnodes⟩ := h.parses_headed hheads hcore
  have hread := readDocument_of_parses hrun hparses
  rw [text_append, text_append] at hread
  -- The comment starts on a line of its own, so it waits for the printed root and does not join the one before.
  have hblock : Element.Hangs (before ++ (notes.map .note ++ [.expr n])) (roots.take k ++ [n.addNotes notes]) := by
    refine h.hangs.append (Element.hangs_block n) fun prev hprev t ht => ?_
    have hhead : notes.head? = some t := by
      cases notes with
      | nil => cases ht
      | cons u us => simpa using ht
    rw [hfirst t hhead]
    refine Nat.lt_of_le_of_ne (Pos.line_le_of_le (h.stop_le (List.mem_of_mem_getLast? hprev))) ?_
    rcases hfree with hnil | hfree
    · rw [hnil, List.map_eq_nil_iff] at htexts
      rw [htexts] at hhead
      cases hhead
    · cases k with
      | zero => cases hprev
      | succ j =>
          have hj : j < roots.length := Nat.lt_of_succ_lt (List.getElem?_eq_some_iff.1 hm).1
          refine hfree j prev rfl ?_
          rw [List.getElem?_eq_getElem hj]
          rwa [List.take_add_one, List.getElem?_eq_getElem hj, Option.toList_some, List.getLast?_concat] at hprev
  have hattach : Element.attach ((before ++ (notes.map .note ++ [.expr n])) ++ fs) =
      (roots.take k ++ [n.addNotes notes]) ++ Element.attach fs := by
    refine hblock.attach_append ?_ hnodes
    intro prev hprev
    rw [List.getLast?_concat] at hprev
    cases hprev
    rwa [Node.span_addNotes]
  rw [← List.append_assoc before, hattach] at hread
  refine ⟨_, hread, ?_⟩
  have hk : k < roots.length := (List.getElem?_eq_some_iff.1 hm).1
  have hlength : (roots.take k).length = k := by rw [List.length_take]; omega
  have hrising : Note.Rising ([] ++ notes) := by
    refine (hparses.rowed hrun.ok).rising ?_
    rw [List.nil_append]
    refine List.Sublist.trans ?_ (List.sublist_append_right _ _)
    rw [List.append_assoc]
    exact List.sublist_append_left _ _
  -- The roots before are those that were read before, the roots behind differ in their places only.
  constructor
  · intro j hj
    rw [List.append_assoc]
    rcases Nat.lt_or_gt_of_ne hj with hlt | hgt
    · rw [List.getElem?_append_left (by omega), List.getElem?_take_of_lt hlt]
    · obtain ⟨i, rfl⟩ : ∃ i, j = k + 1 + i := ⟨j - (k + 1), by omega⟩
      rw [List.getElem?_append_right (by omega), hlength, show k + 1 + i - k = i + 1 by omega, List.singleton_append,
        List.getElem?_cons_succ, ← List.getElem?_map, hbare, List.getElem?_map, List.getElem?_drop]
  · rw [List.append_assoc, List.getElem?_append_right hlength.le, hlength, Nat.sub_self, hm]
    show some ((n.addNotes notes).comment.map Comment.text) = some (m.comment.map Comment.text)
    rw [((Node.bears_nil hn).add hrising).text_eq, List.nil_append, htexts, hlines, m.bareComment_commentLines]

/-- Where the root before it ends on the line of its comment, the first line of the comment of a root that is
printed over is hung on that root. -/
theorem reads_crowded (hne : lines ≠ []) {j : Nat} (hk : k = j + 1) {prev : Node} (hprev : roots[j]? = some prev)
    (hline : prev.span.stop.line = m.range.start.line) :
    ∃ reread, readDocument (String.ofList (text x ++ (text whole ++ text rest))) = .ok reread ∧
      ¬ Forest.SameBeside k roots reread := by
  have hrun := h.run_headed hheads hwhole
  obtain ⟨notes, n, fs, htexts, hfirst, -, hparses, -, -, -⟩ := h.parses_headed hheads hcore
  have hread := readDocument_of_parses hrun hparses
  rw [text_append, text_append] at hread
  refine ⟨_, hread, fun hsame => ?_⟩
  cases notes with
  | nil => exact hne htexts.symm
  | cons t ts =>
      have htake : roots.take k = roots.take j ++ [prev] := by
        rw [hk, List.take_add_one, hprev]
        rfl
      -- The first line is on the line where the root before ends, and the next line is not.
      have hfront : Element.Hangs (before ++ [.note t]) (roots.take j ++ [prev.addNotes [t]]) := by
        have hstep : Element.Walk.step ⟨prev :: (roots.take j).reverse, []⟩ (.note t) =
            ⟨prev.addNotes [t] :: (roots.take j).reverse, []⟩ := by
          simp [Element.Walk.step, hline, hfirst t rfl]
        have hhangs := h.hangs
        rw [htake, Element.Hangs, List.reverse_append] at hhangs
        rw [Element.Hangs, List.foldl_append, hhangs, List.reverse_append]
        exact hstep
      have hsplit : before ++ (((t :: ts).map Element.note ++ [Element.expr n]) ++ fs) =
          (before ++ [Element.note t]) ++ (ts.map Element.note ++ ([Element.expr n] ++ fs)) := by simp
      have hlined := hparses.lined hrun
      rw [hsplit] at hlined hsame
      have hattach : Element.attach
            ((before ++ [Element.note t]) ++ (ts.map Element.note ++ ([Element.expr n] ++ fs))) =
          (roots.take j ++ [prev.addNotes [t]]) ++
            Element.attach (ts.map Element.note ++ ([Element.expr n] ++ fs)) := by
        refine hfront.attach_append ?_ (.inr (by simp [Element.nodes]))
        intro last hlast u hu
        rw [List.getLast?_concat] at hlast
        cases hlast
        rw [Node.span_addNotes, hline, ← hfirst t rfl]
        have hproper := (hparses.rowed hrun.ok).proper (.note t) (by simp)
        have hnext := (List.pairwise_append.1 hlined).2.2 (.note t) (by simp) (.note u) (List.mem_of_mem_head? hu) t rfl
        exact Nat.lt_of_le_of_lt (Pos.line_le_of_le hproper.le) hnext
      have hlength : (roots.take j).length = j := by
        rw [List.length_take]
        exact Nat.min_eq_left (List.getElem?_eq_some_iff.1 hprev).1.le
      -- The root before has got a note and so is no longer what it was.
      have hbare := hsame.beside j (by omega)
      rw [hattach, List.append_assoc, List.getElem?_append_right hlength.le, hlength, Nat.sub_self, hprev] at hbare
      exact prev.bare_addNotes_ne t (Option.some.inj hbare)

end Parted

/-! ## A single edit in a place of a node -/

/-- An edit in a place of a node prints its anchor again, and nothing else. -/
theorem textChanges_of_child {t : Tree} (ht : t.Distinct) {e : Edit} {m a : Node} (hfits : e.Fits m)
    (hanchor : e.Anchor t (some a)) (ha : a ∈ t.nodes) (hm : m ∈ a.walk) (width : Nat) :
    textChanges t [e] width = .ok [a.printOver (a.reprinted [e] width)] := by
  cases hanchor with
  | some hparent hprinted =>
      have hsorted : Edit.latestFirst [e] = [e] := List.mergeSort_singleton _
      have hgroups : groupEdits t [e] = .ok [⟨a.id, a.range, [0], none⟩] := by
        simp only [groupEdits, List.zipIdx_cons, List.zipIdx_nil, List.foldlM_cons, List.foldlM_nil, hparent, hprinted]
        rfl
      have hprint := toTextChange_of_one ht ha hm hfits (List.getElem?_cons_zero : [e][0]? = some e) width
      have hrootless : [e].filterMap Edit.rootChange? = [] := by simp [hfits.rootChange?_eq]
      rw [textChanges, hsorted]
      refine bind_eq_ok.2 ⟨_, hgroups, bind_eq_ok.2 ⟨_, mapM_cons_eq_ok.2 ⟨_, _, hprint, rfl, rfl⟩, ?_⟩⟩
      rw [hrootless]
      exact congrArg Except.ok (List.mergeSort_singleton _)

/-- A change that can be applied replaces its range. -/
theorem exists_around {source after : String} {change : TextChange} (h : applyChanges source [change] = .ok after) :
    ∃ before covered behind, around source change.span = .ok (before, covered, behind) ∧
      after = String.ofList (before ++ (change.text.toList ++ behind)) := by
  have hsorted : TreeEdit.latestFirst [change] = [change] := List.mergeSort_singleton _
  obtain ⟨-, splices, hresolve, -⟩ := applyChanges_eq_ok_iff.1 h
  rw [hsorted] at hresolve
  obtain ⟨splice, -, hsplice, -, -⟩ := mapM_cons_eq_ok.1 hresolve
  obtain ⟨before, covered, behind, haround, -⟩ := Splice.resolve_eq_ok_iff.1 hsplice
  rw [applyChanges_singleton haround] at h
  exact ⟨before, covered, behind, haround, (Except.ok.inj h).symm⟩

/-- No two roots have a node with the same identity. -/
theorem Tree.Distinct.root_unique {t : Tree} (ht : t.Distinct) {a b : Node} (ha : a ∈ t.roots) (hb : b ∈ t.roots)
    {id : NodeId} (hida : id ∈ a.ids) (hidb : id ∈ b.ids) : a = b := by
  obtain ⟨i, hi⟩ := List.getElem?_of_mem ha
  obtain ⟨j, hj⟩ := List.getElem?_of_mem hb
  obtain rfl := Node.index_unique (List.nodup_iff_count_le_one.1 ht.roots_ids_nodup id) hi hj hida hidb
  exact Option.some.inj (hi.symm.trans hj)

/-- The comment of the root at the index would be printed on the line where the root before it ends. -/
def Tree.Crowded (t : Tree) (k : Nat) : Prop :=
  ∃ j prev root, k = j + 1 ∧ t.roots[j]? = some prev ∧ t.roots[k]? = some root ∧ root.comment.isSome ∧
    prev.span.stop.line = root.range.start.line

namespace Session

/-- What a batch of edits that is performed does to the text. -/
theorem changes_of_perform {s s' : Session String} {edits : List Edit} (hne : edits ≠ []) {committed : Committed}
    (h : s.perform edits = (.ok committed, s')) :
    ∃ changes after reread, textChanges s.tree edits s.settings.prettyWidth = .ok changes ∧
      applyChanges s.text changes = .ok after ∧ readDocument after = .ok reread ∧ s'.text = after := by
  rcases s.perform_cases edits with ⟨hnil, -⟩ | ⟨e, -, herror⟩ | ⟨changes, draft, hint, hplan, -⟩
  · exact absurd hnil hne
  · rw [h] at herror
    cases herror
  · obtain ⟨changes', hchanges, hdraft⟩ := bind_eq_ok.1 hplan
    obtain ⟨draft', hof, hpair⟩ := bind_eq_ok.1 hdraft
    cases hpair
    obtain ⟨happly, hread⟩ := Draft.ofChanges_eq_ok_iff.1 hof
    obtain ⟨committed', s'', hperform, htext⟩ := perform_of_changes hne hchanges happly hread
    cases h.symm.trans hperform
    exact ⟨_, _, _, hchanges, happly, hread, htext⟩

/-- A root is printed over with edits made in it. -/
theorem InStep.reprinted_root {s : Session String} (hs : s.InStep) {k : Nat} {root : Node}
    (hroot : s.tree.roots[k]? = some root) (hlist : root.Bracketed) {edits : List Edit}
    (htexts : ∀ e ∈ edits, ∀ text ∈ e.text?, Fragment text) {width : Nat} {before covered behind : List Char}
    (haround : around s.text root.range = .ok (before, covered, behind)) {reread : List Node}
    (hread : readDocument (String.ofList (before ++ ((root.reprinted edits width).toList ++ behind))) = .ok reread) :
    Forest.SameBeside k s.tree.roots reread ↔ ¬ s.tree.Crowded k := by
  obtain ⟨ls, es, m, hrun, htext, hparses, hroots, hm, hmroot⟩ := hs.read_root hroot
  obtain ⟨x, covered', rest, fore, aft, hparted⟩ := exists_parted hparses hrun hm
  have hrange : root.range = m.range := by rw [← root.range_anonymous, ← hmroot, m.range_anonymous]
  -- Places do not depend on identities: the range of the root is that of the root that was read.
  rw [hrange] at haround
  cases haround.symm.trans (hparted.around_eq htext)
  have hstands : s.tree.Stands root := ⟨root, List.mem_of_getElem? hroot, .self root⟩
  have hcopy : (root.edited edits).kind.isList := by
    rwa [Node.kind_edited, Kind.isList_refit, Kind.isList_map]
  obtain ⟨b, core, whole, hprinted, hwhole, hheads, hcore⟩ := ((hs.writable hstands).edited htexts).headed hcopy
    (max (width - root.range.start.ch) 1) root.range.start.ch
  have htext : m.comment.map Comment.text = root.comment.map Comment.text := by
    rw [← m.comment_text_anonymous, hmroot, root.comment_text_anonymous]
  have hlines : (root.edited edits).commentLines = m.commentLines := by
    refine Node.commentLines_congr ?_
    rw [Node.edited_eq, htext]
  rw [hlines] at hheads
  rw [Node.reprinted, ← hprinted] at hread
  rw [Forest.sameBeside_congr hroots rfl]
  have hsome : m.comment.isSome = root.comment.isSome := by
    rw [← Option.isSome_map (f := Comment.text), htext, Option.isSome_map]
  by_cases hcrowded : s.tree.Crowded k
  · obtain ⟨j, prev, root', hk, hprev, hroot', hcomment, hline⟩ := hcrowded
    cases hroot.symm.trans hroot'
    obtain ⟨prev', hprev', hsame⟩ := Node.exists_getElem?_of_anonymous hroots hprev
    have hne : m.commentLines ≠ [] := by
      intro hnil
      rw [m.commentLines_eq_nil_iff.1 hnil] at hsome
      rw [hcomment] at hsome
      cases hsome
    obtain ⟨reread', hread', hnot⟩ := hparted.reads_crowded hheads hwhole hcore hne hk hprev' (by
      rw [← hrange, ← prev'.span_anonymous, ← hsame, prev.span_anonymous, hline])
    cases hread.symm.trans hread'
    exact iff_of_false hnot (not_not.2 ⟨j, prev, root, hk, hprev, hroot, hcomment, hline⟩)
  · obtain ⟨reread', hread', hsame⟩ := hparted.reads_headed hheads hwhole hcore hm rfl (by
      by_cases hcomment : root.comment.isSome
      · refine .inr fun j prev' hk hprev' hline => ?_
        obtain ⟨prev, hprev, hsame⟩ := Node.exists_getElem?_of_anonymous hroots.symm hprev'
        refine hcrowded ⟨j, prev, root, hk, hprev, hroot, hcomment, ?_⟩
        rw [hrange, ← hline, ← prev.span_anonymous, ← hsame, prev'.span_anonymous]
      · rw [← hsome, Option.not_isSome_iff_eq_none] at hcomment
        exact .inl (m.commentLines_eq_nil_iff.2 hcomment))
    cases hread.symm.trans hread'
    exact iff_of_true hsame hcrowded

/-- A node inside a root is printed over. -/
theorem InStep.reprinted_inside {s : Session String} (hs : s.InStep) {k : Nat} {root : Node}
    (hroot : s.tree.roots[k]? = some root) {n : Node} (hn : root.Within n) (hne : n ≠ root) (hlist : n.Bracketed)
    {before covered behind : List Char} (haround : around s.text n.range = .ok (before, covered, behind))
    {ms : List Lexeme} {ss : List Sign} (hms : Prints ms ss) {reread : List Node}
    (hread : readDocument (String.ofList (before ++ (Lexeme.text ms ++ behind))) = .ok reread) :
    Forest.SameBeside k s.tree.roots reread := by
  obtain ⟨ls, es, m, hrun, htext, hparses, hroots, hm, hmroot⟩ := hs.read_root hroot
  have hrootlist : root.Bracketed := hn.bracketed hlist
  have hmlist : m.kind.isList := by
    rwa [← Kind.isList_map Node.anonymous, ← Node.kind_anonymous, hmroot, Node.kind_anonymous, Kind.isList_map]
  obtain ⟨x, b, core, y, fore, items, aft, hframed⟩ := exists_framed hparses hm hmlist
  obtain ⟨x', own, y', hcore, hown⟩ := ((hframed.spans hm).anonymous hmroot).between hrootlist hn hne
  have hends : ∀ c ∈ n.comment,
      c.span.EndsIn (tokens ((Pos.zero.advanceOver (Lexeme.text x)).advance b.opener) core) := by
    have hwalk : n ∈ root.children.flatMap Node.walk := by
      have hmem := hn.mem_walk
      rw [Node.walk_eq] at hmem
      exact (List.mem_cons.1 hmem).resolve_left hne
    obtain ⟨l, hl, hnl⟩ := List.mem_flatMap.1 hwalk
    have hl' := List.mem_map_of_mem (f := Node.anonymous) hl
    rw [← Node.children_of_anonymous hmroot] at hl'
    obtain ⟨l', hchild, hll'⟩ := List.mem_map.1 hl'
    have hn' := List.mem_map_of_mem (f := Node.anonymous) hnl
    rw [← l.walk_anonymous, ← hll', l'.walk_anonymous] at hn'
    obtain ⟨n', hmem, hnn'⟩ := List.mem_map.1 hn'
    exact Node.endsIn_of_anonymous hnn' (hframed.comments_between hm hrun l' hchild n' hmem)
  rw [Forest.sameBeside_congr hroots rfl]
  exact hframed.reads_inside hrun hcore hown hends htext haround hms hread

/-- An edit in a place of a node of a root changes only that root, and keeps the text of its comment, unless
the root is printed again with its comment on the line where the root before it ends. -/
theorem child_edit_keeps_comments_iff {s s' : Session String} (hs : s.InStep) (hids : s.tree.Identified) {e : Edit}
    (hbuilt : e.Built s.tree Expression) {k : Nat} {root : Node} (hroot : s.tree.roots[k]? = some root)
    {parent : NodeId} (hparent : e.parent? = some parent) (hinside : parent ∈ root.ids) {committed : Committed}
    (hperform : s.perform [e] = (.ok committed, s')) :
    Forest.SameBeside k s.tree.roots s'.tree.roots ↔
      ¬ (reprintedNode s.tree parent = .ok root ∧ s.tree.Crowded k) := by
  have ht := hids.distinct
  obtain ⟨m, hm, hfits⟩ := hbuilt.fits ht
  obtain ⟨a, hanchor, hstands, hlist, -, hma⟩ := hfits.anchor ht hm
  -- The printed node stands in the root that the edit is in.
  obtain ⟨root', hroot', hwithin⟩ := hstands
  obtain rfl : m.id = parent := Option.some.inj (hfits.parent?_eq.symm.trans hparent)
  obtain rfl : root' = root := ht.root_unique hroot' (List.mem_of_getElem? hroot)
    (List.mem_map_of_mem (Node.mem_walk_trans hwithin.mem_walk hma)) hinside
  obtain ⟨changes, after, reread, hchanges, happly, hread, htext⟩ := changes_of_perform (List.cons_ne_nil e []) hperform
  rw [textChanges_of_child ht hfits hanchor (Tree.Stands.mem_nodes ⟨root', hroot', hwithin⟩) hma] at hchanges
  cases hchanges
  obtain ⟨before, covered, behind, haround, rfl⟩ := exists_around happly
  have htexts : ∀ e' ∈ [e], ∀ text ∈ e'.text?, Fragment text := by
    intro e' he' text htext
    rw [List.mem_singleton.1 he'] at htext
    exact (hbuilt.text_ok ht text htext).fragment
  rw [Forest.sameBeside_congr rfl (roots_of_perform hs hperform htext hread)]
  have hanchored : reprintedNode s.tree m.id = .ok root' ↔ a = root' := by
    cases hanchor with
    | some hinside hprinted =>
        cases hinside.symm.trans hparent
        rw [hprinted, Except.ok.injEq]
  rw [hanchored]
  -- Printed below the root, the node brings its comment along between the brackets of the root.
  by_cases hself : a = root'
  · subst hself
    rw [and_iff_right rfl]
    exact hs.reprinted_root hroot hlist htexts haround hread
  · obtain ⟨ms, hms, hprints⟩ := hs.prints ⟨root', hroot', hwithin⟩ hlist htexts s.settings.prettyWidth
    refine iff_of_true ?_ fun h => hself h.1
    refine hs.reprinted_inside hroot hwithin hself hlist haround hprints ?_
    rw [hms]
    exact hread

/-- A child of a root is replaced, and the root is printed. -/
theorem perform_in_root {s : Session String} (ht : s.tree.Distinct) {root c : Node} (hroot : root ∈ s.tree.roots)
    (hc : c ∈ root.children) {field : String} {index : Nat} (hplace : root.locate c.id = .ok (field, index))
    {text : String} (hne : text ≠ "") {after : String}
    (happly : applyChanges s.text [root.printOver (root.reprinted
      [⟨c.range.start, c.range.stop, .replaceChild c.id root.id field index text⟩] s.settings.prettyWidth)] = .ok after)
    {reread : List Node} (hread : readDocument after = .ok reread) :
    ∃ e, Edit.replace s.tree text c.id = .ok e ∧ e.parent? = some root.id ∧
      ∃ committed s', s.perform [e] = (.ok committed, s') ∧ s'.text = after := by
  have hnode := Tree.root_mem_nodes hroot
  have hedit := Edit.replace_of_child ht hnode hc hplace hne
  obtain ⟨-, -, place, hslot, hchild⟩ := Edit.located ht (Edit.find_eq ht (Tree.mem_nodes_of_mem_walk hnode
    (Node.mem_walk_of_child hc))) (ht.parent?_of_child hnode hc) hplace
  refine ⟨_, hedit, rfl, perform_of_changes (List.cons_ne_nil _ _) ?_ happly hread⟩
  exact textChanges_of_child ht (.replace hslot hchild) (.some rfl (ht.reprintedNode_of_root hroot)) hnode
    root.mem_walk_self _

theorem expression_of_atom : Expression "b" := expression_of_tokens (by decide +kernel)

/-- An argument of a call is replaced. The comment behind the call is printed above it, and stays with it. -/
theorem child_edit_keeps_comments_iff_call_below :
    ∃ (s : Session String) (e : Edit), start "x ; d\n(f a) ; c" .default = .ok s ∧
      Edit.replace s.tree "b" ⟨6⟩ = .ok e ∧ ∃ committed s', s.perform [e] = (.ok committed, s') ∧
        s'.text = "x ; d\n; c\n(f b)" ∧ Forest.SameBeside 1 s.tree.roots s'.tree.roots := by
  obtain ⟨s, hstart, hbuffer, hids, prev, hprev, root, hroot, hline, c, hc, hid, hplace, hprint⟩ :
      ∃ s : Session String, start "x ; d\n(f a) ; c" .default = .ok s ∧ s.text = "x ; d\n(f a) ; c" ∧
        s.tree.Identified ∧
        ∃ prev : Node, prev ∈ s.tree.roots[0]? ∧ ∃ root : Node, root ∈ s.tree.roots[1]? ∧
          prev.span.stop.line ≠ root.range.start.line ∧
          ∃ c : Node, c ∈ root.children[1]? ∧ c.id = ⟨6⟩ ∧ root.locate c.id = .ok ("args", 0) ∧
            root.printOver (root.reprinted [⟨c.range.start, c.range.stop, .replaceChild c.id root.id "args" 0 "b"⟩]
              s.settings.prettyWidth) = ⟨⟨1, 0⟩, ⟨1, 9⟩, "; c\n(f b)"⟩ :=
    Except.exists_ok (by decide +kernel)
  have happly : applyChanges s.text [⟨⟨1, 0⟩, ⟨1, 9⟩, "; c\n(f b)"⟩] = .ok "x ; d\n; c\n(f b)" := by
    rw [hbuffer]
    cbv
  obtain ⟨reread, hread⟩ : ∃ reread, readDocument "x ; d\n; c\n(f b)" = .ok reread :=
    Except.exists_eq_ok (by decide +kernel)
  rw [← hprint] at happly
  obtain ⟨e, hedit, hparent, committed, s', hperform, htext⟩ := perform_in_root hids.distinct
    (List.mem_of_getElem? hroot) (List.mem_of_getElem? hc) hplace (by decide) happly hread
  refine ⟨s, e, hstart, hid ▸ hedit, committed, s', hperform, htext, ?_⟩
  refine (child_edit_keeps_comments_iff (start_inStep hstart) hids (.replace expression_of_atom hedit
    (hparent ▸ rfl)) hroot hparent (List.mem_map_of_mem root.mem_walk_self) hperform).2 ?_
  rintro ⟨-, j, prev', root', hj, hprev', hroot', -, hsame⟩
  obtain rfl : j = 0 := by omega
  cases hprev.symm.trans hprev'
  cases hroot.symm.trans hroot'
  exact hline hsame

/-- An argument of a call is replaced, and an atom is on the line of the call. The atom gets the comment. -/
theorem comment_of_edited_call_hung_on_neighbour :
    ∃ (s : Session String) (e : Edit), start "x (f a) ; c" .default = .ok s ∧
      Edit.replace s.tree "b" ⟨5⟩ = .ok e ∧ ∃ committed s', s.perform [e] = (.ok committed, s') ∧
        s'.text = "x ; c\n  (f b)" ∧ ¬ Forest.SameBeside 1 s.tree.roots s'.tree.roots := by
  obtain ⟨s, hstart, hbuffer, hids, prev, hprev, hlone, root, hroot, c, hc, hid, hplace, hprint⟩ :
      ∃ s : Session String, start "x (f a) ; c" .default = .ok s ∧ s.text = "x (f a) ; c" ∧
        s.tree.Identified ∧
        ∃ prev : Node, prev ∈ s.tree.roots[0]? ∧ prev.comment.isSome = false ∧
          ∃ root : Node, root ∈ s.tree.roots[1]? ∧ ∃ c : Node, c ∈ root.children[1]? ∧ c.id = ⟨5⟩ ∧
            root.locate c.id = .ok ("args", 0) ∧
            root.printOver (root.reprinted [⟨c.range.start, c.range.stop, .replaceChild c.id root.id "args" 0 "b"⟩]
              s.settings.prettyWidth) = ⟨⟨0, 2⟩, ⟨0, 11⟩, "; c\n  (f b)"⟩ :=
    Except.exists_ok (by decide +kernel)
  have happly : applyChanges s.text [⟨⟨0, 2⟩, ⟨0, 11⟩, "; c\n  (f b)"⟩] = .ok "x ; c\n  (f b)" := by
    rw [hbuffer]
    cbv
  obtain ⟨reread, hread, hhung⟩ : ∃ reread, readDocument "x ; c\n  (f b)" = .ok reread ∧
      reread[0]?.map (·.comment.isSome) = some true :=
    Except.exists_ok (by decide +kernel)
  rw [← hprint] at happly
  obtain ⟨e, hedit, hparent, committed, s', hperform, htext⟩ := perform_in_root hids.distinct
    (List.mem_of_getElem? hroot) (List.mem_of_getElem? hc) hplace (by decide) happly hread
  refine ⟨s, e, hstart, hid ▸ hedit, committed, s', hperform, htext, fun hsame => ?_⟩
  rw [Forest.sameBeside_congr rfl (roots_of_perform (start_inStep hstart) hperform htext hread)] at hsame
  obtain ⟨prev', hprev', hcomment⟩ := Option.map_eq_some_iff.1 hhung
  have hbare := hsame.beside 0 (by omega)
  rw [hprev', hprev] at hbare
  have hcomments := congrArg (·.comment.isSome) (Option.some.inj hbare)
  simp only [Node.bare_comment, Option.isSome_map, hcomment, hlone] at hcomments
  cases hcomments

end Session

end TreeEdit
