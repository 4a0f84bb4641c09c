import TreeEdit.Proofs.Offsets
import TreeEdit.Proofs.RootEdits
import TreeEdit.Proofs.Substitution

/-!
# A root put between the others

A text on lines of its own is put between the roots of a document. The place may be anywhere outside their
ranges, also in the blanks at the end of a comment or right beside an atom. What stands before the place and
what stands behind it can each be read alone (`Reader.Parses.cut`), so the new expression becomes a root and
every other root stays what it was. Only comments may change hands: those left over behind the last root go
to a new root behind them. The end of the text that was put in lies between the new root and the next one,
so the new root takes the focus: `Session.inserted_root_takes_focus`.
-/

namespace TreeEdit

open Reader Lexeme

/-! ## A document cut between its elements -/

theorem exists_append_of_advanceOver_le {p : Pos} {a b x y : List Char} (h : a ++ x = b ++ y)
    (hle : p.advanceOver a ≤ p.advanceOver b) : ∃ c, b = a ++ c ∧ x = c ++ y := by
  rcases List.append_eq_append_iff.1 h with ⟨c, rfl, rfl⟩ | ⟨c, rfl, rfl⟩
  · exact ⟨c, rfl, rfl⟩
  · have hlength := (Pos.advanceOver_le_iff p h rfl).1 hle
    rw [List.length_append] at hlength
    obtain rfl : c = [] := List.length_eq_zero_iff.1 (by omega)
    exact ⟨[], by simp, rfl⟩

/-- A shorter text may follow where a longer one does. -/
theorem Lexeme.Run.append_front {a ls left : List Lexeme} (h : Run (a ++ ls)) (hleft : Run left)
    {after : List Char} (htext : text ls = text left ++ after) : Run (a ++ left) := by
  refine h.left.append hleft fun x hx y hy => ?_
  obtain ⟨left', rfl⟩ := List.head?_eq_some_iff.1 hy
  cases ls with
  | nil =>
      have hnone := List.append_eq_nil_iff.1 htext.symm
      exact absurd (List.append_eq_nil_iff.1 hnone.1).1 (chars_ne_nil (hleft.ok y List.mem_cons_self))
  | cons m ms =>
      have hmeets : Meets x m := (List.isChain_append.1 h.meets).2.2 x hx m rfl
      have hbefore := (before_iff_meets (h.right.ok m List.mem_cons_self) ms).2 hmeets
      refine (before_iff_meets (hleft.ok y List.mem_cons_self) left').1 ?_
      obtain ⟨c, cs, hchars, -⟩ := head_of_ok (hleft.ok y List.mem_cons_self)
      have hhead : (text (m :: ms)).head? = (text (y :: left')).head? := by
        rw [htext, text_cons, hchars]
        rfl
      cases x with
      | atom _ | comment _ => simpa only [Before, hhead] using hbefore
      | _ => trivial

/-- The place lies within none of the elements. -/
def Element.Spares (q : Pos) (es : List Element) : Prop := ∀ e ∈ es, e.span.stop ≤ q ∨ q ≤ e.span.start

/-- An element that starts before the place ends there or before it. -/
theorem Element.Spares.stop_le {p : Pos} {before : List Char} {e : Element} {es : List Element}
    (h : Spares (p.advanceOver before) (e :: es)) (hstart : e.span.start = p) (hne : before ≠ []) :
    e.span.stop ≤ p.advanceOver before := by
  subst hstart
  exact (h e List.mem_cons_self).resolve_right (not_le.2 (Pos.lt_advanceOver hne _))

namespace Reader

/-- A text cut in two that can each be read, with the elements of either part. -/
structure Halved (p : Pos) (before after : List Char) (left right : List Lexeme) (fore aft : List Element) :
    Prop where
  text_left : text left = before
  text_right : text right = after
  run_left : Run left
  run_right : Run right
  parses_left : Parses p left fore
  parses_right : Parses (p.advanceOver before) right aft

/-- A comment cut in the blanks at its end has the same note as before. -/
theorem noteAt_of_append {p : Pos} {body front back : List Char} (h : body = front ++ back)
    (hle : (noteAt p body).span.stop ≤ p.advanceOver (';' :: front)) :
    noteAt p front = noteAt p body ∧ ∀ c ∈ back, isBlank c = true := by
  obtain ⟨cs, hbody, hcs⟩ := comment_eq_append body
  have hwhole : dropBlanksEnd (';' :: body) ++ cs = ';' :: front ++ back := by rw [← hbody, h, List.cons_append]
  obtain ⟨b, hfront, rfl⟩ := exists_append_of_advanceOver_le hwhole hle
  have hdrop : dropBlanksEnd (';' :: front) = dropBlanksEnd (';' :: body) := by
    have hb : ∀ c ∈ b, isBlank c = true := fun c hc => hcs c (List.mem_append_left _ hc)
    rw [hfront, dropBlanksEnd, List.reverse_append, List.dropWhile_append_of_pos (by simpa using hb)]
    exact List.rdropWhile_idempotent isBlank _
  exact ⟨by rw [noteAt, noteAt, hdrop], fun c hc => hcs c (List.mem_append_right _ hc)⟩

/-- A text is cut at its start, or behind its first lexemes if the rest of it can be cut there. -/
theorem Parses.cut_behind {p r : Pos} {ms ls : List Lexeme} {gs es : List Element} (hms : Parses p ms gs)
    (hr : p.advanceOver (text ms) = r) (hls : Parses r ls es) (hrun : Run (ms ++ ls)) {before after : List Char}
    (htext : text (ms ++ ls) = before ++ after) (hle : before ≠ [] → r ≤ p.advanceOver before)
    (hspares : Element.Spares (p.advanceOver before) (gs ++ es))
    (ih : ∀ {behind}, text ls = behind ++ after → Element.Spares (r.advanceOver behind) es →
      ∃ left right fore aft, es = fore ++ aft ∧ Halved r behind after left right fore aft) :
    ∃ left right fore aft, gs ++ es = fore ++ aft ∧ Halved p before after left right fore aft := by
  subst hr
  rcases eq_or_ne before [] with rfl | hne
  · exact ⟨[], ms ++ ls, [], gs ++ es, rfl, ⟨rfl, htext, .nil, hrun, .nil p, hms.append hls⟩⟩
  · rw [text_append] at htext
    obtain ⟨behind, rfl, hrest⟩ := exists_append_of_advanceOver_le htext (hle hne)
    rw [Pos.advanceOver_append] at hspares
    obtain ⟨left, right, fore, aft, rfl, h⟩ := ih hrest fun e he => hspares e (List.mem_append_right _ he)
    refine ⟨ms ++ left, right, gs ++ fore, aft, (List.append_assoc _ _ _).symm, ?_⟩
    exact {
      text_left := by rw [text_append, h.text_left]
      text_right := h.text_right
      run_left := hrun.append_front h.run_left (by rw [hrest, h.text_left])
      run_right := h.run_right
      parses_left := hms.append h.parses_left
      parses_right := by rw [Pos.advanceOver_append]; exact h.parses_right }

/-- A comment is cut in the blanks at its end. -/
theorem Parses.cut_comment {p : Pos} {body : List Char} {ls : List Lexeme} {es : List Element}
    (h : Parses (p.advanceOver (';' :: body)) ls es) (hrun : Run (.comment body :: ls)) {front back : List Char}
    (hbody : body = front ++ back) (hstop : (noteAt p body).span.stop ≤ p.advanceOver (';' :: front)) :
    Halved p (';' :: front) (back ++ text ls) [.comment front] (blanks back ++ ls) [.note (noteAt p body)] es := by
  obtain ⟨hnote, hblank⟩ := noteAt_of_append hbody hstop
  have hfront : (Lexeme.comment front).Ok := by
    intro hmem
    refine hrun.ok _ List.mem_cons_self ?_
    rw [hbody]
    exact List.mem_append_left _ hmem
  exact {
    text_left := by simp [chars]
    text_right := by rw [text_append, text_blanks]
    run_left := .cons hfront .nil (by simp [Before])
    run_right := hrun.tail.blanks_append hblank
    parses_left := by
      rw [← hnote]
      exact .comment front (.nil _)
    parses_right := by
      rw [hbody, ← List.cons_append, Pos.advanceOver_append] at h
      exact h.blanks_append }

/-- What can be read is cut at a place that lies within none of its elements. -/
theorem Parses.cut {p : Pos} {ls : List Lexeme} {es : List Element} (h : Parses p ls es) (hrun : Run ls)
    {before after : List Char} (htext : text ls = before ++ after)
    (hspares : Element.Spares (p.advanceOver before) es) :
    ∃ left right fore aft, es = fore ++ aft ∧ Halved p before after left right fore aft := by
  induction h generalizing before with
  | nil p =>
      obtain ⟨rfl, rfl⟩ := List.append_eq_nil_iff.1 htext.symm
      exact ⟨[], [], [], [], rfl, ⟨rfl, rfl, .nil, .nil, .nil p, .nil p⟩⟩
  | @blank p c ls es hrest ih =>
      refine cut_behind (.blank c (.nil _)) rfl hrest hrun htext (fun hne => ?_) hspares (ih hrun.tail)
      obtain ⟨d, behind, rfl⟩ := List.exists_cons_of_ne_nil hne
      obtain ⟨rfl, -⟩ := List.cons.inj htext
      exact Pos.le_advanceOver _ behind
  | @word p l t ls es hkind htoken hrest ih =>
      obtain ⟨hspan, -⟩ := spans_leaf hkind htoken
      rw [text_cons, text_nil, List.append_nil] at hspan
      have hword : Parses p [l] [.expr (leaf t)] := .word hkind htoken (.nil _)
      refine hword.cut_behind (by simp) hrest hrun htext (fun hne => ?_) hspares (ih hrun.tail)
      simpa [Element.span, hspan] using hspares.stop_le (by rw [Element.span, hspan]) hne
  | @list p q b inner ls es fs hq hinner hrest _ ih =>
      rw [list_eq_append] at hrun htext
      have hlist := Parses.list b hq hinner (.nil q)
      exact hlist.cut_behind hq.symm hrest hrun htext (hspares.stop_le rfl) hspares (ih hrun.right)
  | @comment p body ls es hrest ih =>
      rcases le_total (p.advanceOver (';' :: body)) (p.advanceOver before) with hle | hle
      · exact cut_behind (.comment body (.nil _)) (by simp [chars]) hrest hrun htext (fun _ => hle) hspares
          (ih hrun.tail)
      · -- The place is within the lexeme and behind its note, so only blanks of the comment are behind it.
        cases before with
        | nil => exact ⟨[], _, [], _, rfl, ⟨rfl, htext, .nil, hrun, .nil p, .comment body hrest⟩⟩
        | cons c front =>
            obtain ⟨rfl, -⟩ := List.cons.inj htext
            obtain ⟨back, hback, rfl⟩ : ∃ back, ';' :: body = ';' :: front ++ back ∧ after = back ++ text ls :=
              exists_append_of_advanceOver_le htext.symm hle
            have hstop := hspares.stop_le rfl (List.cons_ne_nil _ _)
            exact ⟨_, _, _, _, rfl, hrest.cut_comment hrun (List.cons.inj hback).2 hstop⟩

end Reader

namespace Element

theorem mem_of_mem_nodes {es : List Element} {n : Node} (h : n ∈ nodes es) : expr n ∈ es := by
  obtain ⟨e, he, hn⟩ := List.mem_filterMap.1 h
  cases e with
  | expr m => rwa [← Option.some.inj hn]
  | note t => cases hn

/-- Where there is an expression, every element lies in the range of a node. -/
theorem exists_covering {es : List Element} (h : attach es ≠ []) {e : Element} (he : e ∈ es) :
    ∃ m ∈ attach es, m.range.Covers e.span := by
  obtain ⟨blocks, left, hes, hblocks, hleft⟩ := attach_blocks es
  rw [hes, hleft.resolve_left h, List.map_nil, List.append_nil, List.mem_flatten] at he
  obtain ⟨block, hblock, he⟩ := he
  obtain ⟨i, hi⟩ := List.getElem?_of_mem hblock
  obtain ⟨m, hm, hcovers⟩ := forall₂_getElem? hblocks hi
  exact ⟨m, List.mem_of_getElem? hm, hcovers.covers e he⟩

/-- A place that no node goes around lies within none of the elements. -/
theorem spares_of_outside {es : List Element} (hne : attach es ≠ []) {q : Pos}
    (houtside : ∀ m ∈ attach es, m.range.strictlyContains q = false) : Spares q es := by
  intro e he
  obtain ⟨m, hm, hstart, hstop⟩ := exists_covering hne he
  have hnot := houtside m hm
  rw [Span.strictlyContains, Bool.and_eq_false_iff, decide_eq_false_iff_not, decide_eq_false_iff_not, not_lt,
    not_lt] at hnot
  exact hnot.symm.imp hstop.trans fun h => h.trans hstart

/-- Where elements are cut outside the ranges of their nodes, the nodes are parted as the elements are. -/
theorem exists_parting {p q r : Pos} {fore aft : List Element} (hrow : Rowed p (fore ++ aft) r)
    (hfore : ∀ e ∈ fore, e.span.stop ≤ q) (haft : ∀ e ∈ aft, q ≤ e.span.start)
    (houtside : ∀ m ∈ attach (fore ++ aft), m.range.strictlyContains q = false) :
    ∃ earlier later, attach (fore ++ aft) = earlier ++ later ∧
      earlier.map Node.kind = (nodes fore).map Node.kind ∧ later.map Node.kind = (nodes aft).map Node.kind ∧
      (∀ m ∈ earlier, m.range.stop ≤ q) ∧ ∀ m ∈ later, q < m.range.stop := by
  have hproper : ∀ n ∈ nodes (fore ++ aft), n.span.start < n.span.stop := by
    intro n hn
    exact hrow.proper _ (mem_of_mem_nodes hn)
  have hkinds := map_kind_attach (fore ++ aft)
  have hhung := (attach_hung (fore ++ aft)).flip
  rw [nodes_append] at hproper hkinds hhung
  refine ⟨_, _, (List.take_append_drop (nodes fore).length _).symm, ?_, ?_, ?_, ?_⟩
  · rw [List.map_take, hkinds, List.map_append, List.take_left' (List.length_map _)]
  · rw [List.map_drop, hkinds, List.map_append, List.drop_left' (List.length_map _)]
  · intro m hm
    obtain ⟨i, hi⟩ := List.getElem?_of_mem hm
    obtain ⟨n, hn, notes, hung⟩ := forall₂_getElem? (List.forall₂_take_append _ _ _ hhung) hi
    have hn := List.mem_of_getElem? hn
    have hstart : m.range.start < q := by
      refine m.range_start_le.trans_lt ?_
      rw [hung.span_kind_eq.1]
      exact (hproper n (List.mem_append_left _ hn)).trans_le (hfore _ (mem_of_mem_nodes hn))
    have hnot := houtside m (List.mem_of_mem_take hm)
    simpa [Span.strictlyContains, hstart] using hnot
  · intro m hm
    obtain ⟨i, hi⟩ := List.getElem?_of_mem hm
    obtain ⟨n, hn, notes, hung⟩ := forall₂_getElem? (List.forall₂_drop_append _ _ _ hhung) hi
    have hn := List.mem_of_getElem? hn
    calc q ≤ n.span.start := haft _ (mem_of_mem_nodes hn)
      _ < n.span.stop := hproper n (List.mem_append_right _ hn)
      _ = m.span.stop := by rw [hung.span_kind_eq.1]
      _ ≤ m.range.stop := m.le_range_stop

/-- What starts on the line behind some nodes starts afresh. -/
theorem afresh_below {r : Pos} {ns : List Node} (hns : ∀ n ∈ ns, n.range.stop ≤ r) {es : List Element}
    (hes : ∀ e ∈ es, r.advance '\n' ≤ e.span.start) : ∀ prev ∈ ns.getLast?, Afresh prev.span.stop.line es := by
  intro prev hprev t ht
  have hstop := prev.le_range_stop.trans (hns prev (List.mem_of_mem_getLast? hprev))
  calc prev.span.stop.line ≤ r.line := Pos.line_le_of_le hstop
    _ < (r.advance '\n').line := Nat.lt_succ_self _
    _ ≤ t.span.start.line := Pos.line_le_of_le (hes _ (List.mem_of_mem_head? ht))

/-- Behind an expression no comment is left over. -/
theorem hangs_concat (es : List Element) (n : Node) : Hangs (es ++ [expr n]) (attach (es ++ [expr n])) := by
  have hwalk : Hangs (es ++ [expr n]) ((n.addNotes (es.foldl Walk.step ⟨[], []⟩).waiting ::
      (es.foldl Walk.step ⟨[], []⟩).done).reverse) := by
    rw [Hangs, List.foldl_append, List.reverse_reverse]
    rfl
  rwa [hwalk.attach_eq]

end Element

/-! ## The document read again -/

theorem Lexeme.Run.append_newline {a b : List Lexeme} (ha : Run a) (hb : Run b) :
    Run (a ++ .blank '\n' :: b) := by
  refine ha.append (hb.cons rfl trivial) fun x _ y hy => ?_
  cases hy
  cases x <;> trivial

namespace Node

/-- What a node says, beside its own comment. -/
def bareKind (n : Node) : Kind Node := n.kind.map bare

theorem bareKind_of_bare {ns ms : List Node} (h : ns.map bare = ms.map bare) : ns.map bareKind = ms.map bareKind := by
  have hbare : ∀ n : Node, n.bareKind = n.bare.kind := fun n => by rw [n.bare_eq]; rfl
  have hkinds := congrArg (List.map kind) h
  simpa only [List.map_map, Function.comp_def, ← hbare] using hkinds

theorem bareKind_of_kind {ns ms : List Node} (h : ns.map kind = ms.map kind) : ns.map bareKind = ms.map bareKind := by
  have hbare := congrArg (List.map (Kind.map bare)) h
  rwa [List.map_map, List.map_map] at hbare

end Node

/-- A text on lines of its own. -/
def onOwnLines (cs : List Char) : List Char := '\n' :: (cs ++ ['\n'])

/-- An expression put on lines of its own between two parts of a document: it becomes a root between those of
the parts, and the roots behind it start behind its last line. -/
theorem Reader.Halved.reads_between {before after : List Char} {left right : List Lexeme} {fore aft : List Element}
    (h : Halved .zero before after left right fore aft) (hwhole : aft = [] ∨ Element.nodes aft ≠ [])
    {own : List Lexeme} {root : Node} (hown : Run own) (hroot : Parses .zero own [.expr root]) :
    ∃ earlier inserted later,
      readDocument (String.ofList (before ++ onOwnLines (text own) ++ after)) = .ok (earlier ++ inserted :: later) ∧
      earlier.map Node.bareKind = (Element.nodes fore).map Node.bareKind ∧ inserted.bareKind = root.bareKind ∧
      later.map Node.bareKind = (Element.nodes aft).map Node.bareKind ∧
      (∀ m ∈ earlier ++ [inserted], m.range.start < Pos.zero.advanceOver (before ++ onOwnLines (text own)) ∧
        m.range.stop ≤ Pos.zero.advanceOver (before ++ onOwnLines (text own))) ∧
      ∀ m ∈ later, Pos.zero.advanceOver (before ++ onOwnLines (text own)) ≤ m.range.start := by
  -- The expression ends at `r`, and the next line starts behind it.
  obtain ⟨r, hr⟩ : ∃ r, Pos.zero.advanceOver (before ++ '\n' :: text own) = r := ⟨_, rfl⟩
  have hnext : Pos.zero.advanceOver (before ++ onOwnLines (text own)) = r.advance '\n' := by
    rw [onOwnLines, ← List.cons_append, ← List.append_assoc, Pos.advanceOver_append, hr]
    rfl
  rw [hnext]
  let p := (Pos.zero.advanceOver before).advance '\n'
  have hmoved : Parses p own [.expr (root.beyond p)] := hroot.beyond p
  have hfront : Parses .zero (left ++ .blank '\n' :: own) (fore ++ [.expr (root.beyond p)]) := by
    refine h.parses_left.append (.blank '\n' ?_)
    rwa [h.text_left]
  have hrun : Run (left ++ .blank '\n' :: own) := h.run_left.append_newline hown
  have htextFront : text (left ++ .blank '\n' :: own) = before ++ '\n' :: text own := by
    rw [text_append, h.text_left]
    rfl
  have hspaced := (hfront.rowed hrun.ok).attach
  rw [htextFront, hr] at hspaced
  obtain ⟨fs, hfs, hbare, -, hfsWhole⟩ := h.parses_right.elsewhere (r.advance '\n')
  have hback := hfs.rowed h.run_right.ok
  have hafresh := Element.afresh_below (fun m hm => (hspaced.between m hm).stop) hback.start
  have hread : readDocument (String.ofList (before ++ onOwnLines (text own) ++ after)) =
      .ok (Element.attach (fore ++ [.expr (root.beyond p)]) ++ Element.attach fs) := by
    rw [← (Element.hangs_concat fore (root.beyond p)).attach_append hafresh (hfsWhole hwhole)]
    have hwholeRead := readDocument_of_parses (hrun.append_newline h.run_right)
      (hfront.append (.blank '\n' (by rwa [htextFront, hr])))
    rw [text_append, htextFront, text_cons, h.text_right] at hwholeRead
    rw [← hwholeRead, onOwnLines]
    simp [chars]
  have hkinds := Element.map_kind_attach (fore ++ [.expr (root.beyond p)])
  rw [Element.nodes_append, List.map_append] at hkinds
  obtain ⟨earlier, one, hroots, hearlier, hone⟩ := List.map_eq_append_iff.1 hkinds
  obtain ⟨inserted, rest, rfl, hinserted, hrest⟩ := List.map_eq_cons_iff.1 hone
  obtain rfl := List.map_eq_nil_iff.1 hrest
  rw [hroots] at hread hspaced
  refine ⟨earlier, inserted, Element.attach fs, by rw [hread]; simp, Node.bareKind_of_kind hearlier, ?_, ?_, ?_, ?_⟩
  · rw [Node.bareKind, hinserted]
    exact (Node.bare_eq_bare_iff.1 (root.bare_beyond p)).1
  · exact (Node.bareKind_of_bare hbare).trans (Node.bareKind_of_kind (Element.map_kind_attach aft))
  · intro m hm
    have hm := hspaced.between m hm
    exact ⟨(hm.range_le.trans hm.stop).trans_lt (r.lt_advance '\n'), hm.stop.trans (r.lt_advance '\n').le⟩
  · exact fun m hm => (hback.attach.between m hm).start

/-- A document of at least one root, and a place in it that is within the range of none: an expression can be
put there. -/
theorem readDocument_between {source : String} {roots : List Node} (hread : readDocument source = .ok roots)
    (hne : roots ≠ []) {pos : Pos} (hpos : pos.IsIn source)
    (houtside : ∀ m ∈ roots, m.range.strictlyContains pos = false) {own : String} {root : Node}
    (hown : Expression own) (hroot : readDocument own = .ok [root]) :
    ∃ before after earlier later earlier' inserted later', around source ⟨pos, pos⟩ = .ok (before, [], after) ∧
      (roots = earlier ++ later ∧ (∀ m ∈ earlier, m.range.stop ≤ pos) ∧ ∀ m ∈ later, pos < m.range.stop) ∧
      readDocument (String.ofList (before ++ onOwnLines own.toList ++ after)) = .ok (earlier' ++ inserted :: later') ∧
      (earlier'.map Node.bareKind = earlier.map Node.bareKind ∧ inserted.bareKind = root.bareKind ∧
        later'.map Node.bareKind = later.map Node.bareKind) ∧
      (∀ m ∈ earlier' ++ [inserted], m.range.start < Pos.zero.advanceOver (before ++ onOwnLines own.toList) ∧
        m.range.stop ≤ Pos.zero.advanceOver (before ++ onOwnLines own.toList)) ∧
      ∀ m ∈ later', Pos.zero.advanceOver (before ++ onOwnLines own.toList) ≤ m.range.start := by
  obtain ⟨ls, es, hrun, htext, hparse, rfl, -⟩ := readDocument_fills hread
  obtain ⟨before, after, hsplit, rfl⟩ := hpos
  have hrow := hparse.rowed hrun.ok
  obtain ⟨left, right, fore, aft, rfl, h⟩ :=
    hparse.cut hrun (htext.trans hsplit.symm) (Element.spares_of_outside hne houtside)
  have haft : ∀ e ∈ aft, Pos.zero.advanceOver before ≤ e.span.start := (h.parses_right.rowed h.run_right.ok).start
  have hfore : ∀ e ∈ fore, e.span.stop ≤ Pos.zero.advanceOver before := by
    have hstop := (h.parses_left.rowed h.run_left.ok).stop
    rwa [h.text_left] at hstop
  obtain ⟨earlier, later, hroots, hearlier, hlater, hstops, hbehind⟩ :=
    Element.exists_parting hrow hfore haft houtside
  have hwhole : aft = [] ∨ Element.nodes aft ≠ [] := by
    rw [or_iff_not_imp_right, not_not]
    intro hnone
    rw [hnone, List.map_nil, List.map_eq_nil_iff] at hlater
    rw [hlater, List.append_nil] at hroots
    refine List.eq_nil_iff_forall_not_mem.2 fun e he => ?_
    -- With no expression behind the place, an element there is in the range of a root before it.
    obtain ⟨m, hm, -, hstop⟩ := Element.exists_covering hne (List.mem_append_right fore he)
    have hproper := hrow.proper e (List.mem_append_right fore he)
    exact absurd ((hstop.trans (hstops m (hroots ▸ hm))).trans (haft e he)) (not_le.2 hproper)
  obtain ⟨own', hrun', -, htext', hexprs⟩ := exists_exprs hown.uncommented hroot
  obtain ⟨earlier', inserted, later', hreread, hearlier', hinserted, hlater', hfront, hback⟩ :=
    h.reads_between hwhole hrun' hexprs
  rw [htext'] at hreread hfront hback
  rw [← Node.bareKind_of_kind hearlier] at hearlier'
  rw [← Node.bareKind_of_kind hlater] at hlater'
  refine ⟨before, after, earlier, later, earlier', inserted, later', ?_, ⟨hroots, hstops, hbehind⟩, hreread,
    ⟨hearlier', hinserted, hlater'⟩, hfront, hback⟩
  exact around_eq_ok_iff.2 ⟨by rwa [List.append_nil], rfl, by rw [List.append_nil]⟩

/-! ## The focus -/

/-- Among siblings of which the first end at or before a place and the others start there or behind it, the
last of the first is nearest before the place. -/
theorem Tree.nearest_append {q : Pos} (inside : Node → Option Node) {front back : List Node} (best : Option Node)
    (hfront : ∀ n ∈ front, n.range.start < q ∧ n.range.stop ≤ q) (hback : ∀ n ∈ back, q ≤ n.range.start) :
    nearest q best ((front ++ back).map fun n => (n, inside n)) = front.getLast?.or best := by
  induction front generalizing best with
  | nil =>
      cases back with
      | nil => rfl
      | cons n back => exact if_pos (hback n List.mem_cons_self)
  | cons n front ih =>
      obtain ⟨⟨hstart, hstop⟩, hrest⟩ := List.forall_mem_cons.1 hfront
      rw [List.cons_append, List.map_cons, nearest, if_neg (not_le.2 hstart), if_pos hstop, ih _ hrest,
        List.getLast?_cons]
      cases front.getLast? <;> rfl

/-- A single change that puts text in suggests the place where that text ends. -/
theorem Focus.position?_singleton {old new : String} {change : TextChange} {before inside after : List Char}
    (haround : around old change.span = .ok (before, inside, after)) (hadds : change.addsText = true)
    (hnew : new.toList = before ++ change.text.toList ++ after) :
    position? old new [change] = some (Pos.zero.advanceOver (before ++ change.text.toList)) := by
  have hstart : offset? old change.start = some (byteSize before) := (offset?_of_around haround).1
  have hlast : lastInsertion? (earliestFirst [change]) = some ([], change) := by
    rw [earliestFirst, List.mergeSort_singleton]
    simp [lastInsertion?, hadds]
  have hoffset : endOffset? old [] change = some (byteSize (before ++ change.text.toList)) := by
    have hnonneg : ¬ (byteSize before : Int) < 0 := by omega
    simp [endOffset?, hstart, hnonneg]
  simp only [position?, hlast, hoffset, Option.map_some]
  rw [posOfOffset, hnew, posAfter_append]

/-- If a single change puts text in, the root before the end of that text takes the focus, unless it goes on
behind it. -/
theorem Focus.ofChanges_singleton {t : Tree} {old new : String} {change : TextChange}
    {before inside after : List Char} (haround : around old change.span = .ok (before, inside, after))
    (hadds : change.addsText = true) (hnew : new.toList = before ++ change.text.toList ++ after)
    {front back : List Node} {n : Node} (hroots : t.roots = front ++ n :: back)
    (hfront : ∀ m ∈ front ++ [n], m.range.start < Pos.zero.advanceOver (before ++ change.text.toList) ∧
      m.range.stop ≤ Pos.zero.advanceOver (before ++ change.text.toList))
    (hback : ∀ m ∈ back, Pos.zero.advanceOver (before ++ change.text.toList) ≤ m.range.start) :
    ofChanges t old new [change] = some n.id := by
  have hsplit : t.roots = (front ++ [n]) ++ back := by rw [hroots, List.append_assoc, List.singleton_append]
  rw [ofChanges, position?_singleton haround hadds hnew, Option.bind_some, Tree.before?, hsplit,
    Tree.nearest_append _ _ hfront hback, List.getLast?_concat]
  rfl

/-- A root is not inside a collapsed node. -/
theorem Focus.visible_root {t : Tree} {k : Nat} {n : Node} (hn : t.roots[k]? = some n) {collapsed : List NodeId}
    (h : collapsed = [] ∨ t.ids.Nodup) : visible t n.id collapsed = n.id := by
  rcases h with rfl | hnodup
  · have hnone : (t.ancestors n.id).find? (fun a => ([] : List NodeId).contains a.id) = none :=
      List.find?_eq_none.2 (by simp)
    rw [visible, hnone]
  · have hpath : t.pathOf? n.id = some [k] := Tree.pathOf?_of_nodup hnodup (by simpa [Tree.at?, Forest.at?] using hn)
    simp [visible, Tree.ancestors, hpath, Tree.at?, Forest.at?]

/-- What is inserted at the top level is put at a place that no root goes around. -/
theorem Edit.of_insert_root {t : Tree} {text field : String} {pos : Pos} {e : Edit}
    (h : Edit.insert t text none field pos = .ok e) :
    (∀ r ∈ t.roots, r.range.strictlyContains pos = false) ∧ e = ⟨pos, pos, .insertRoot text⟩ := by
  rw [Edit.insert, Edit.insertRoot] at h
  split at h
  · cases h
  · rename_i hnone
    exact ⟨by simpa using hnone, (Except.ok.inj h).symm⟩

theorem forall_range_of_anonymous {ns ms : List Node} (h : ns.map Node.anonymous = ms.map Node.anonymous)
    {P : Span → Prop} (hms : ∀ m ∈ ms, P m.range) : ∀ n ∈ ns, P n.range := by
  intro n hn
  have hmem := List.mem_map_of_mem (f := Node.range) hn
  rw [map_eq_of_anonymous Node.range_anonymous h] at hmem
  obtain ⟨m, hm, hrange⟩ := List.mem_map.1 hmem
  exact hrange ▸ hms m hm

theorem Node.bareKind_anonymous (n : Node) : n.anonymous.bareKind = n.bareKind :=
  (bare_eq_bare_iff.1 n.bare_anonymous).1

namespace Session

/-- One expression without comments is put on lines of its own anywhere between the roots. It becomes a root
behind those that end before the place, the others say what they said but for their own comments, and it takes
the focus. A collapsed node can only be in the way if it shares an identity with another. -/
theorem inserted_root_takes_focus {s : Session String} (hs : s.InStep) (hne : s.tree.roots ≠ []) {pos : Pos}
    (hpos : pos.IsIn s.text) {text : String} {root : Node} (hexpression : Expression text)
    (hread : readDocument text = .ok [root]) {field : String} {e : Edit}
    (he : Edit.insert s.tree ("\n" ++ text ++ "\n") none field pos = .ok e) :
    ∃ committed s' earlier later earlier' inserted later', s.perform [e] = (.ok committed, s') ∧
      s.tree.roots = earlier ++ later ∧ (∀ r ∈ earlier, r.range.stop ≤ pos) ∧ (∀ r ∈ later, pos < r.range.stop) ∧
      s'.tree.roots = earlier' ++ inserted :: later' ∧ earlier'.map Node.bareKind = earlier.map Node.bareKind ∧
      inserted.bareKind = root.bareKind ∧ later'.map Node.bareKind = later.map Node.bareKind ∧
      committed.focus = s'.focus ∧ (s.collapsed = [] ∨ s'.tree.ids.Nodup → s'.focus = some inserted.id) := by
  obtain ⟨read, hold, hsame⟩ := hs.roots
  obtain ⟨houtside, rfl⟩ := Edit.of_insert_root he
  have hreadNe : read ≠ [] := by
    rintro rfl
    exact hne (List.map_eq_nil_iff.1 hsame)
  obtain ⟨before, after, earlier, later, earlier', inserted, later', haround, ⟨rfl, hstops, hbehind⟩, hreread,
    ⟨hearlier, hinserted, hlater⟩, hfront, hback⟩ := readDocument_between hold hreadNe hpos
      (forall_range_of_anonymous (P := fun r => r.strictlyContains pos = false) hsame.symm houtside) hexpression hread
  have hlines : ("\n" ++ text ++ "\n").toList = onOwnLines text.toList := by simp [onOwnLines]
  have happly : applyChanges s.text [⟨pos, pos, "\n" ++ text ++ "\n"⟩] = .ok _ := applyChanges_singleton haround
  rw [hlines, ← List.append_assoc] at happly
  obtain ⟨committed, s', hperform, htext⟩ := perform_of_changes
    (List.cons_ne_nil (⟨pos, pos, .insertRoot ("\n" ++ text ++ "\n")⟩ : Edit) [])
    (textChanges_of_root rfl rfl _) happly hreread
  obtain ⟨-, changes, -, hchanges, -, -, hcommitted, hfocus⟩ := commit_of_perform hperform
  rw [textChanges_of_root rfl rfl] at hchanges
  cases hchanges
  have hsame' := roots_of_perform hs hperform htext hreread
  rw [List.map_append] at hsame hsame'
  obtain ⟨old, oldBehind, hroots, hold, holdBehind⟩ := List.map_eq_append_iff.1 hsame
  obtain ⟨new, rest, hroots', hnew, hrest⟩ := List.map_eq_append_iff.1 hsame'
  obtain ⟨n, newBehind, rfl, hn, hnewBehind⟩ := List.map_eq_cons_iff.1 hrest
  have hbare {ns ms : List Node} (h : ns.map Node.anonymous = ms.map Node.anonymous) :
      ns.map Node.bareKind = ms.map Node.bareKind := map_eq_of_anonymous Node.bareKind_anonymous h
  refine ⟨committed, s', old, oldBehind, new, n, newBehind, hperform, hroots,
    forall_range_of_anonymous (P := fun r => r.stop ≤ pos) hold hstops,
    forall_range_of_anonymous (P := fun r => pos < r.stop) holdBehind hbehind, hroots', ?_, ?_, ?_, hcommitted,
    fun hdistinct => ?_⟩
  · rw [hbare hnew, hearlier, hbare hold]
  · rw [← n.bareKind_anonymous, hn, inserted.bareKind_anonymous, hinserted]
  · rw [hbare hnewBehind, hlater, hbare holdBehind]
  · have hfirst : (new ++ [n]).map Node.anonymous = (earlier' ++ [inserted]).map Node.anonymous := by
      simp only [List.map_append, hnew, List.map_cons, hn, List.map_nil]
    rw [← hlines] at hfront hback htext
    have hpointed : Focus.ofChanges s'.tree s.text s'.text [⟨pos, pos, "\n" ++ text ++ "\n"⟩] = some n.id := by
      refine Focus.ofChanges_singleton haround (by simp [TextChange.addsText])
        (by rw [htext, String.toList_ofList]) hroots'
        (forall_range_of_anonymous (P := fun r => r.start < _ ∧ r.stop ≤ _) hfirst hfront)
        (forall_range_of_anonymous (P := fun r => _ ≤ r.start) hnewBehind hback)
    have hvisible : Focus.visible s'.tree n.id s.collapsed = n.id :=
      Focus.visible_root (k := new.length) (by simp [hroots']) hdistinct
    rw [hfocus, Focus.resolve, show latestFirst [_] = [_] from List.mergeSort_singleton _, hpointed]
    exact congrArg some hvisible

/-- A call put into the blank behind a comment becomes the second of three roots. -/
theorem inserted_root_takes_focus_behind_comment :
    ∃ s e committed s' inserted, start "a ; c \n; d\nb" .default = .ok s ∧
      Edit.insert s.tree ("\n" ++ "(h)" ++ "\n") none "" ⟨0, 6⟩ = .ok e ∧ s.perform [e] = (.ok committed, s') ∧
      s'.tree.roots.length = 3 ∧ s'.tree.roots[1]? = some inserted ∧ s'.focus = some inserted.id := by
  obtain ⟨s, hstart, ⟨htext, hcollapsed, hcount, hlength⟩, e, he, -⟩ :
      ∃ s, start "a ; c \n; d\nb" .default = .ok s ∧
        (s.text = "a ; c \n; d\nb" ∧ s.collapsed = [] ∧
          (s.tree.roots.filter fun r => decide (r.range.stop ≤ ⟨0, 6⟩)).length = 1 ∧ s.tree.roots.length = 2) ∧
        ∃ e ∈ (Edit.insert s.tree ("\n" ++ "(h)" ++ "\n") none "" ⟨0, 6⟩).toOption, e.start = ⟨0, 6⟩ :=
    Except.exists_ok (by decide +kernel)
  have he := Except.toOption_eq_some.1 he
  have hpos : (⟨0, 6⟩ : Pos).IsIn s.text := by
    rw [htext]
    exact ⟨"a ; c ".toList, "\n; d\nb".toList, by decide, by decide⟩
  have hne : s.tree.roots ≠ [] := by
    rintro hnil
    simp [hnil] at hlength
  obtain ⟨root, hread⟩ := expression_of_call.single
  obtain ⟨committed, s', earlier, later, earlier', inserted, later', hperform, hroots, hstops, hbehind, hroots',
    hkept, -, hkept', -, hfocus⟩ :=
      inserted_root_takes_focus (start_inStep hstart) hne hpos expression_of_call hread he
  have hone : earlier.length = 1 := by
    rw [hroots, List.filter_append, List.filter_eq_self.2 (by simpa using hstops),
      List.filter_eq_nil_iff.2 (by simpa using hbehind), List.append_nil] at hcount
    exact hcount
  have hone' : earlier'.length = 1 := by simpa [hone] using congrArg List.length hkept
  have hlater : later'.length = later.length := by simpa using congrArg List.length hkept'
  refine ⟨s, e, committed, s', inserted, hstart, he, hperform, ?_, ?_, hfocus (.inl hcollapsed)⟩
  · rw [hroots, List.length_append] at hlength
    rw [hroots', List.length_append, List.length_cons]
    omega
  · rw [hroots', List.getElem?_append_right (by omega), hone']
    rfl

end Session

end TreeEdit
