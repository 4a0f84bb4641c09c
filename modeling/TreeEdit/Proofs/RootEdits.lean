import Mathlib
import TreeEdit.Proofs.Performed
import TreeEdit.Proofs.Rows

/-!
# Edits of single roots

A root is deleted or replaced by writing over its range, without printing anything again. So it depends on
what meets at the cut whether the other roots stay what they were. Comments do no harm there, and neither
do brackets or strings, but two atoms become one: `Session.root_edit_local_iff`.
-/

namespace TreeEdit

open Reader Lexeme

/-! ## Signs of what was read -/

theorem Node.flatten_bare (n : Node) : n.bare.flatten = n.flatten := by
  have hfold : n.bare.fold Flat.step = n.fold Flat.step := by
    induction n using Node.induct with
    | step n ih =>
        have hkind : n.kind.map (fold Flat.step ∘ bare) = n.kind.map (fold Flat.step) := Kind.map_congr_left ih
        rw [bare_eq, fold_eq, fold_eq Flat.step n, Kind.map_map, hkind]
        rfl
  rw [flatten, hfold, flatten]

theorem flatMap_flatten_of_bare {ns ms : List Node} (h : ns.map Node.bare = ms.map Node.bare) :
    ns.flatMap Node.flatten = ms.flatMap Node.flatten := by
  have hbare : ∀ ns : List Node, (ns.map Node.bare).flatMap Node.flatten = ns.flatMap Node.flatten := by
    intro ns
    rw [List.flatMap_map]
    exact congrArg (List.flatMap · ns) (funext Node.flatten_bare)
  rw [← hbare ns, h, hbare]

theorem Reader.Parses.signs_eq {p : Pos} {ls : List Lexeme} {es : List Element} (h : Parses p ls es) :
    signs ls = (Element.attach es).flatMap Node.flatten := by
  have hfills := Refines.parts (Element.attach_sameShape es) _ _ h.fills
  rw [hfills.signs_eq, fill_parts, List.flatMap_def]

/-! ## Atoms that meet -/

namespace Lexeme

/-- Runs that join make a run with one sign less. -/
theorem Run.glue {a b : List Lexeme} (ha : Run a) (hclosed : Closed a) (hb : Run b)
    (h : Joins (text a) (text b)) :
    ∃ ls, Run ls ∧ text ls = text a ++ text b ∧ (signs ls).length < (signs (a ++ b)).length ∧
      ∀ opened, openAfter ls opened = openAfter (a ++ b) opened := by
  obtain ⟨x, u, v, y, rfl, rfl⟩ := (joins_iff ha hclosed hb).1 h
  have hu : (Lexeme.atom u).Ok := ha.ok _ (by simp)
  have hv : (Lexeme.atom v).Ok := hb.ok _ (by simp)
  have hy : Run (.atom (u ++ v) :: y) := by
    refine .cons ⟨by simp [hu.1], ?_⟩ hb.tail hb.before
    intro c hc
    exact (List.mem_append.1 hc).elim (hu.2 c) (hv.2 c)
  refine ⟨x ++ .atom (u ++ v) :: y, ha.left.append hy ?_, ?_, ?_, ?_⟩
  · intro l hl m hm
    cases hm
    have hmeets : Meets l (.atom u) := (List.isChain_append.1 ha.meets).2.2 l hl _ rfl
    cases l with
    | comment body => cases hmeets
    | atom w => exact hmeets
    | _ => trivial
  · simp [chars]
  · simp [signs, sign?]
  · intro opened
    rw [List.append_assoc, openAfter_append, openAfter_append x]
    rfl

/-- Texts that can be scanned one behind the other, if the first does not end in a comment: the signs are
as many as before, or less where atoms join. -/
theorem Run.join {a b : List Lexeme} (ha : Run a) (hclosed : Closed a) (hb : Run b) :
    ∃ ls, Run ls ∧ text ls = text a ++ text b ∧ (signs ls).length ≤ (signs (a ++ b)).length ∧
      (Joins (text a) (text b) → (signs ls).length < (signs (a ++ b)).length) ∧
      ∀ opened, openAfter ls opened = openAfter (a ++ b) opened := by
  by_cases h : Joins (text a) (text b)
  · obtain ⟨ls, hrun, htext, hlt, hopen⟩ := ha.glue hclosed hb h
    exact ⟨ls, hrun, htext, hlt.le, fun _ => hlt, hopen⟩
  · exact ⟨a ++ b, ha.append_of_not_joins hclosed hb h, text_append a b, le_refl _, fun hj => absurd hj h,
      fun _ => rfl⟩

end Lexeme

/-! ## Rows at another place -/

namespace Element

theorem nodes_beyond (p : Pos) (es : List Element) : nodes (es.map (beyond p)) = (nodes es).map (Node.beyond p) := by
  induction es with
  | nil => rfl
  | cons e es ih =>
      cases e with
      | expr n => exact congrArg (n.beyond p :: ·) ih
      | note t => exact ih

theorem afresh_beyond_iff (p : Pos) (es : List Element) : Afresh p.line (es.map (beyond p)) ↔ Afresh 0 es := by
  rcases es with _ | ⟨_ | t, es⟩
  · simp [Afresh]
  · simp [Afresh, beyond]
  · have hline : ((t.beyond p).span.start).line = p.line + t.span.start.line := rfl
    simp [Afresh, beyond, hline]

theorem hangs_exprs (ns : List Node) : Hangs (ns.map expr) ns := by
  have hfold : ∀ (ns : List Node) (done : List Node),
      (ns.map expr).foldl Walk.step ⟨done, []⟩ = ⟨ns.reverse ++ done, []⟩ := by
    intro ns
    induction ns with
    | nil => exact fun _ => rfl
    | cons n ns ih =>
        intro done
        rw [List.map_cons, List.foldl_cons, Walk.step, addNotes_nil, ih]
        simp
  rw [Hangs, hfold, List.append_nil]

theorem afresh_exprs (line : Nat) (ns : List Node) : Afresh line (ns.map expr) := by
  cases ns <;> simp [Afresh]

end Element

namespace Reader

/-- Where there is no comment, there are only expressions. -/
theorem Parses.exprs {p : Pos} {ls : List Lexeme} {es : List Element} (h : Parses p ls es)
    (hls : ∀ body, .comment body ∉ ls) : es = (Element.nodes es).map .expr := by
  induction h with
  | nil p => rfl
  | blank c _ ih => exact ih fun body hbody => hls body (List.mem_cons_of_mem _ hbody)
  | comment body _ _ => exact absurd List.mem_cons_self (hls body)
  | word _ _ _ ih =>
      exact congrArg (_ :: ·) (ih fun body hbody => hls body (List.mem_cons_of_mem _ hbody))
  | list b _ _ _ _ ih =>
      refine congrArg (_ :: ·) (ih fun body hbody => hls body ?_)
      simp [hbody]

theorem Parses.append {p : Pos} {xs ys : List Lexeme} {es fs : List Element} (h : Parses p xs es)
    (h' : Parses (p.advanceOver (text xs)) ys fs) : Parses p (xs ++ ys) (es ++ fs) := by
  induction h with
  | nil p => exact h'
  | blank c _ ih => exact .blank c (ih h')
  | comment body _ ih =>
      rw [text_cons, Pos.advanceOver_append] at h'
      exact .comment body (ih h')
  | word hkind htoken _ ih =>
      rw [text_cons, Pos.advanceOver_append] at h'
      exact .word hkind htoken (ih h')
  | @list p q b inner xs es fs hq hinner _ _ ih =>
      rw [list_eq_append, text_append, Pos.advanceOver_append, ← hq] at h'
      have hlist := Parses.list b hq hinner (ih h')
      rwa [List.cons_append, List.cons_append, List.append_assoc, List.cons_append]

end Reader

/-- What a text says does not change when it is read at another place. -/
theorem Reader.Parses.elsewhere {p : Pos} {ls : List Lexeme} {es : List Element} (h : Parses p ls es) (q : Pos) :
    ∃ fs, Parses q ls fs ∧ (Element.attach fs).map Node.bare = (Element.attach es).map Node.bare ∧
      (Element.Afresh p.line es → Element.Afresh q.line fs) ∧
      (es = [] ∨ Element.nodes es ≠ [] → fs = [] ∨ Element.nodes fs ≠ []) := by
  obtain ⟨gs, hgs, rfl⟩ := h.of_beyond (p.beyond_zero).symm
  have hbare : ∀ q : Pos, (Element.attach (gs.map (Element.beyond q))).map Node.bare =
      (Element.attach gs).map Node.bare := by
    intro q
    rw [Element.attach_beyond, List.map_map]
    exact congrArg (List.map · _) (funext (Node.bare_beyond q))
  refine ⟨gs.map (Element.beyond q), hgs.beyond q, by rw [hbare, hbare], ?_, ?_⟩
  · rw [Element.afresh_beyond_iff, Element.afresh_beyond_iff]
    exact id
  · rw [Element.nodes_beyond, Element.nodes_beyond]
    simp

/-! ## A root written over -/

theorem readDocument_of_parses {ls : List Lexeme} {es : List Element} (hrun : Run ls) (h : Parses .zero ls es) :
    readDocument (String.ofList (text ls)) = .ok (Element.attach es) := by
  refine readDocument_eq_ok_iff.2 ⟨ls, es, hrun, (String.toList_ofList).symm, ?_, rfl⟩
  have hreads := h.reads [] [] []
  rw [List.append_nil, List.append_nil] at hreads
  rw [hreads]
  simp [elementsFrom]

namespace Parted

variable {ls : List Lexeme} {roots : List Node} {k : Nat} {m : Node} {x : List Lexeme} {covered : List Char}
  {rest : List Lexeme} {before after : List Element}

/-- The range of the root parts the text as the lexemes are parted. -/
theorem around_eq {source : String} (h : Parted ls roots k m x covered rest before after)
    (htext : text ls = source.toList) : around source m.range = .ok (text x, covered, text rest) := by
  refine around_eq_ok_iff.2 ⟨?_, h.start.symm, ?_⟩
  · rw [← htext, h.text_eq, List.append_assoc]
  · rw [h.stop, h.start, Pos.advanceOver_append]

/-- Expressions written over a root between texts they do not join: they take its place. -/
theorem reads_of_not_joins (h : Parted ls roots k m x covered rest before after) {own : List Lexeme}
    {news : List Node} (hown : Run own) (hclosed : Closed own) (hnews : Parses .zero own (news.map .expr))
    (hright : ¬ Joins (text own) (text rest)) (hleft : ¬ Joins (text x) (text own ++ text rest)) :
    ∃ reread, readDocument (String.ofList (text x ++ (text own ++ text rest))) = .ok reread ∧
      reread.map Node.bare = (roots.take k ++ (news ++ roots.drop (k + 1))).map Node.bare := by
  have hplace : m.range.start = Pos.zero.advanceOver (text x) := h.start
  have hmoved : (news.map Element.expr).map (Element.beyond m.range.start) =
      (news.map (Node.beyond m.range.start)).map .expr := by
    simp only [List.map_map]
    rfl
  have hmiddle : Parses (Pos.zero.advanceOver (text x)) own ((news.map (Node.beyond m.range.start)).map .expr) := by
    rw [← hmoved, ← hplace]
    exact hnews.beyond m.range.start
  obtain ⟨fs, hfs, hbare, hafresh, hwhole⟩ := h.right.elsewhere (Pos.zero.advanceOver (text (x ++ own)))
  have hfront : Parses .zero (x ++ own) (before ++ (news.map (Node.beyond m.range.start)).map .expr) :=
    h.left.append hmiddle
  have hhangs : Element.Hangs (before ++ (news.map (Node.beyond m.range.start)).map .expr)
      (roots.take k ++ news.map (Node.beyond m.range.start)) :=
    h.hangs.append (Element.hangs_exprs _) fun _ _ => Element.afresh_exprs _ _
  have hok : ∀ l ∈ x ++ own, l.Ok := by
    intro l hl
    exact (List.mem_append.1 hl).elim (h.run_left.ok l) (hown.ok l)
  have hspaced := (hfront.rowed hok).attach
  rw [hhangs.attach_eq] at hspaced
  have hattach := hhangs.attach_append ?_ (hwhole h.whole)
  · have hrun : Run ((x ++ own) ++ rest) := by
      rw [List.append_assoc]
      refine h.run_left.append_of_not_joins h.closed (hown.append_of_not_joins hclosed h.run_right hright) ?_
      rwa [text_append]
    have hread := readDocument_of_parses hrun (hfront.append hfs)
    rw [text_append, text_append, List.append_assoc, hattach] at hread
    refine ⟨_, hread, ?_⟩
    have hnewsBare : (news.map (Node.beyond m.range.start)).map Node.bare = news.map Node.bare := by
      rw [List.map_map]
      exact congrArg (List.map · news) (funext (Node.bare_beyond _))
    rw [List.append_assoc, List.map_append, List.map_append, hnewsBare, hbare, h.attach_eq, List.map_append,
      List.map_append]
  · intro prev hprev
    have hstop := (hspaced.between prev (List.mem_of_mem_getLast? hprev)).stop
    exact (hafresh h.afresh).mono (Pos.line_le_of_le (prev.le_range_stop.trans hstop))

/-- Expressions written over a root between texts that one of them joins: the document can still be read,
but it says less. -/
theorem reads_of_joins (h : Parted ls roots k m x covered rest before after) {own : List Lexeme}
    {news : List Node} (hown : Run own) (hclosed : Closed own) (hnews : Parses .zero own (news.map .expr))
    (hjoins : Joins (text own) (text rest) ∨ Joins (text x) (text own ++ text rest)) :
    ∃ reread, readDocument (String.ofList (text x ++ (text own ++ text rest))) = .ok reread ∧
      reread.map Node.bare ≠ (roots.take k ++ (news ++ roots.drop (k + 1))).map Node.bare := by
  obtain ⟨ms, hms, htext, hle, hlt, hopen⟩ := hown.join hclosed h.run_right
  obtain ⟨whole, hwhole, hwtext, hwle, hwlt, hwopen⟩ := h.run_left.join h.closed hms
  rw [htext] at hwtext hwlt
  have hbalanced : openAfter whole [] = some [] := by
    rw [hwopen, openAfter_append, h.left.balanced [], Option.bind_some, hopen, openAfter_append, hnews.balanced [],
      Option.bind_some, h.right.balanced []]
  obtain ⟨es, hes⟩ := (exists_elements_iff [] .zero []).2 hbalanced
  have hread : readDocument (String.ofList (text x ++ (text own ++ text rest))) = .ok (Element.attach es) := by
    rw [← hwtext]
    exact readDocument_eq_ok_iff.2 ⟨whole, es, hwhole, (String.toList_ofList).symm, hes, rfl⟩
  refine ⟨_, hread, fun hbare => ?_⟩
  have hsigns : signs whole = signs (x ++ (own ++ rest)) := by
    rw [(parses_of_ok hes).signs_eq, flatMap_flatten_of_bare hbare, signs_append, signs_append, h.left.signs_eq,
      hnews.signs_eq, h.right.signs_eq, h.hangs.attach_eq, (Element.hangs_exprs news).attach_eq, h.attach_eq,
      List.flatMap_append, List.flatMap_append]
  have hlength := congrArg List.length hsigns
  simp only [signs_append, List.length_append] at hlength hle hlt hwle hwlt
  rcases hjoins with hjoins | hjoins
  · have := hlt hjoins
    omega
  · have := hwlt hjoins
    omega

end Parted

/-- The text change of a single edit between the roots. -/
theorem textChanges_of_root {t : Tree} {e : Edit} {change : TextChange} (hparent : e.parent? = none)
    (hchange : e.rootChange? = some change) (width : Nat) : textChanges t [e] width = .ok [change] := by
  simp [textChanges, Edit.latestFirst, groupEdits, hparent, hchange, latestFirst, bind, Except.bind, pure,
    Except.pure, List.zipIdx]

theorem applyChanges_singleton {source : String} {change : TextChange} {before covered after : List Char}
    (h : around source change.span = .ok (before, covered, after)) :
    applyChanges source [change] = .ok (String.ofList (before ++ (change.text.toList ++ after))) := by
  have hsorted : latestFirst [change] = [change] := List.mergeSort_singleton _
  obtain ⟨splice, hresolve, hsplice⟩ : ∃ splice, Splice.resolve source change = .ok splice ∧
      splice = ⟨before.length, before.length + covered.length, change.text.toList⟩ :=
    ⟨_, Splice.resolve_eq_ok_iff.2 ⟨_, _, _, h, rfl⟩, rfl⟩
  refine applyChanges_eq_ok_iff.2 ⟨by rw [hsorted]; rfl, [splice], ?_, ?_⟩
  · rw [hsorted, List.mapM_cons, hresolve]
    rfl
  · rw [List.foldl_cons, List.foldl_nil, hsplice, ← (around_eq_ok_iff.1 h).1, Splice.apply_parts,
      List.append_assoc]

/-- The lexemes of a text without comments. -/
theorem exists_exprs {text : String} {news : List Node}
    (huncommented : ∃ ts, tokenize text = .ok ts ∧ ∀ t ∈ ts, t.kind ≠ .comment) (hread : readDocument text = .ok news) :
    ∃ own, Run own ∧ Closed own ∧ Lexeme.text own = text.toList ∧ Parses .zero own (news.map .expr) := by
  obtain ⟨own, es, hrun, htext, hparse, rfl, -⟩ := readDocument_fills hread
  obtain ⟨ts, htokens, hcomment⟩ := huncommented
  rw [tokenize, ← htext, tokensFrom_run hrun] at htokens
  cases htokens
  have hfree : ∀ body, Lexeme.comment body ∉ own := by
    intro body hbody
    obtain ⟨a, b, rfl⟩ := List.append_of_mem hbody
    exact hcomment _ (mem_tokens_iff.2 ⟨a, _, b, rfl, rfl⟩) rfl
  have hexprs := hparse.exprs hfree
  have hattach : Element.attach es = Element.nodes es := by
    nth_rewrite 1 [hexprs]
    exact (Element.hangs_exprs _).attach_eq
  refine ⟨own, hrun, ?_, htext, by rwa [hattach, ← hexprs]⟩
  rintro l hl body rfl
  exact hfree body (List.mem_of_mem_getLast? hl)

namespace Session

/-- A root in the text that a session has read. -/
theorem InStep.read_root {s : Session String} (hs : s.InStep) {k : Nat} {root : Node}
    (hroot : s.tree.roots[k]? = some root) :
    ∃ ls es m, Run ls ∧ Lexeme.text ls = s.text.toList ∧ Parses .zero ls es ∧
      s.tree.roots.map Node.anonymous = (Element.attach es).map Node.anonymous ∧
      (Element.attach es)[k]? = some m ∧ m.anonymous = root.anonymous := by
  obtain ⟨read, hread, hroots⟩ := hs.roots
  obtain ⟨ls, es, hrun, htext, hparses, rfl, -⟩ := readDocument_fills hread
  have hanonymous := congrArg (·[k]?) hroots
  simp only [List.getElem?_map, hroot, Option.map_some] at hanonymous
  obtain ⟨m, hm, hmroot⟩ := Option.map_eq_some_iff.1 hanonymous.symm
  exact ⟨ls, es, m, hrun, htext, hparses, hroots, hm, hmroot⟩

/-- Text without comments written over a root: the text is committed, and the expressions in it take the
place of the root unless they join what is around them. -/
theorem perform_over_root {s : Session String} (hs : s.InStep) {k : Nat} {n : Node}
    (hn : s.tree.roots[k]? = some n) :
    ∃ before covered after, around s.text n.range = .ok (before, covered, after) ∧
      ∀ {e : Edit} {text : String} {news : List Node}, e.parent? = none →
        e.rootChange? = some ⟨n.range.start, n.range.stop, text⟩ →
        (∃ ts, tokenize text = .ok ts ∧ ∀ t ∈ ts, t.kind ≠ .comment) → readDocument text = .ok news →
        ∃ committed s', s.perform [e] = (.ok committed, s') ∧
          s'.text = String.ofList (before ++ (text.toList ++ after)) ∧
          (s'.tree.roots.map Node.bare =
              (s.tree.roots.take k ++ (news ++ s.tree.roots.drop (k + 1))).map Node.bare ↔
            ¬ Joins text.toList after ∧ ¬ Joins before (text.toList ++ after)) := by
  obtain ⟨ls, es, m, hrun, htext, hparse, hroots, hm, hnm⟩ := hs.read_root hn
  obtain ⟨x, covered, rest, before, after, hparted⟩ := exists_parted hparse hrun hm
  have haround : around s.text n.range = .ok (Lexeme.text x, covered, Lexeme.text rest) := by
    rw [← n.range_anonymous, ← hnm, m.range_anonymous]
    exact hparted.around_eq htext
  refine ⟨_, _, _, haround, fun {e text news} hparent hchange huncommented hnews => ?_⟩
  obtain ⟨own, hown, hclosed, hownText, hexprs⟩ := exists_exprs huncommented hnews
  obtain ⟨reread, hreread, hiff⟩ : ∃ reread,
      readDocument (String.ofList (Lexeme.text x ++ (text.toList ++ Lexeme.text rest))) = .ok reread ∧
        (reread.map Node.bare =
            ((Element.attach es).take k ++ (news ++ (Element.attach es).drop (k + 1))).map Node.bare ↔
          ¬ Joins text.toList (Lexeme.text rest) ∧ ¬ Joins (Lexeme.text x) (text.toList ++ Lexeme.text rest)) := by
    rw [← hownText]
    by_cases hjoins : ¬ Joins (Lexeme.text own) (Lexeme.text rest) ∧
        ¬ Joins (Lexeme.text x) (Lexeme.text own ++ Lexeme.text rest)
    · obtain ⟨reread, hreread, hbare⟩ := hparted.reads_of_not_joins hown hclosed hexprs hjoins.1 hjoins.2
      exact ⟨reread, hreread, iff_of_true hbare hjoins⟩
    · obtain ⟨reread, hreread, hbare⟩ :=
        hparted.reads_of_joins hown hclosed hexprs (by rwa [not_and_or, not_not, not_not] at hjoins)
      exact ⟨reread, hreread, iff_of_false hbare hjoins⟩
  obtain ⟨committed, s', hperform, hs'⟩ := perform_of_changes (List.cons_ne_nil e [])
    (textChanges_of_root hparent hchange _) (applyChanges_singleton haround) hreread
  refine ⟨committed, s', hperform, hs', ?_⟩
  have hbares := map_eq_of_anonymous Node.bare_anonymous hroots
  rw [map_eq_of_anonymous Node.bare_anonymous (roots_of_perform hs hperform hs' hreread), ← hiff]
  simp only [List.map_append, List.map_take, List.map_drop, hbares]

/-- A root is deleted, and it is replaced by a single expression without comments. The other roots stay what
they were, and the root list is otherwise as asked for, exactly if no atoms meet at the cut. -/
theorem root_edit_local_iff {s : Session String} (hs : s.InStep) (hids : s.tree.Identified) {k : Nat} {n : Node}
    (hn : s.tree.roots[k]? = some n) :
    ∃ before covered after, around s.text n.range = .ok (before, covered, after) ∧
      (∃ e, Edit.delete s.tree n.id = .ok e ∧ ∃ committed s', s.perform [e] = (.ok committed, s') ∧
        s'.text = String.ofList (before ++ after) ∧
        (s'.tree.roots.map Node.bare = (s.tree.roots.eraseIdx k).map Node.bare ↔ ¬ Joins before after)) ∧
      ∀ text root, Expression text → readDocument text = .ok [root] →
        ∃ e, Edit.replace s.tree text n.id = .ok e ∧ ∃ committed s', s.perform [e] = (.ok committed, s') ∧
          s'.text = String.ofList (before ++ (text.toList ++ after)) ∧
          (s'.tree.roots.map Node.bare = (s.tree.roots.set k root).map Node.bare ↔
            ¬ Joins before text.toList ∧ ¬ Joins text.toList after) := by
  have hroot : n ∈ s.tree.roots := List.mem_of_getElem? hn
  obtain ⟨before, covered, after, haround, hperform⟩ := perform_over_root hs hn
  have hempty : readDocument "" = .ok [] := readDocument_of_parses .nil (.nil .zero)
  refine ⟨before, covered, after, haround, ⟨_, Edit.delete_of_root hids.distinct hroot, ?_⟩, ?_⟩
  · obtain ⟨committed, s', hcommit, htext, hiff⟩ := hperform (e := ⟨_, _, .deleteRoot n.id⟩) rfl rfl
      ⟨[], tokensFrom_nil .zero, by simp⟩ hempty
    refine ⟨committed, s', hcommit, htext, ?_⟩
    rw [List.eraseIdx_eq_take_drop_succ]
    exact hiff.trans (and_iff_right (not_joins_nil after))
  · intro text root hexpression hread
    have hne : text ≠ "" := by
      rintro rfl
      cases hempty.symm.trans hread
    obtain ⟨committed, s', hcommit, htext, hiff⟩ := hperform (e := ⟨_, _, .replaceRoot n.id text⟩) rfl rfl
      hexpression.uncommented hread
    refine ⟨_, Edit.replace_of_root hids.distinct hroot hne, committed, s', hcommit, htext, ?_⟩
    have hk : k < s.tree.roots.length := (List.getElem?_eq_some_iff.1 hn).1
    rw [joins_append_right (by simpa using hne), and_comm] at hiff
    rw [List.set_eq_take_append_cons_drop, if_pos hk]
    exact hiff

/-- A call between atoms is deleted together with its comment, and only the atoms remain. -/
theorem root_edit_local_iff_spaced_call :
    ∃ s n e, start "a (b) ; c\nd" .default = .ok s ∧ s.tree.roots[1]? = some n ∧ Edit.delete s.tree n.id = .ok e ∧
      ∃ committed s', s.perform [e] = (.ok committed, s') ∧ s'.text = "a \nd" ∧
        s'.tree.roots.map Node.bare = (s.tree.roots.eraseIdx 1).map Node.bare := by
  obtain ⟨s, hstart, hids, n, hn, hcut⟩ : ∃ s, start "a (b) ; c\nd" .default = .ok s ∧
      s.tree.Identified ∧
        ∃ n ∈ s.tree.roots[1]?, ("a ".toList, "(b) ; c".toList, "\nd".toList) ∈ (around s.text n.range).toOption :=
    Except.exists_ok (by decide +kernel)
  obtain ⟨before, covered, after, haround, ⟨e, he, committed, s', hperform, htext, hiff⟩, -⟩ :=
    root_edit_local_iff (start_inStep hstart) hids hn
  cases haround.symm.trans (Except.toOption_eq_some.1 hcut)
  exact ⟨s, n, e, hstart, hn, he, committed, s', hperform, htext, hiff.2 (by simp [Joins, isDelimiter, isBlank])⟩

/-- A call with atoms right beside it is deleted, and the atoms become one. -/
theorem deleted_root_joins_its_neighbours :
    ∃ s n e, start "a(b)c" .default = .ok s ∧ s.tree.roots[1]? = some n ∧ Edit.delete s.tree n.id = .ok e ∧
      ∃ committed s', s.perform [e] = (.ok committed, s') ∧ s'.text = "ac" ∧
        s'.tree.roots.map Node.bare ≠ (s.tree.roots.eraseIdx 1).map Node.bare := by
  obtain ⟨s, hstart, hids, n, hn, hcut⟩ : ∃ s, start "a(b)c" .default = .ok s ∧
      s.tree.Identified ∧
        ∃ n ∈ s.tree.roots[1]?, (['a'], "(b)".toList, ['c']) ∈ (around s.text n.range).toOption :=
    Except.exists_ok (by decide +kernel)
  have hdelete := Edit.delete_of_root hids.distinct (List.mem_of_getElem? hn)
  obtain ⟨before, covered, after, haround, hover⟩ := perform_over_root (start_inStep hstart) hn
  cases haround.symm.trans (Except.toOption_eq_some.1 hcut)
  have hempty : readDocument "" = .ok [] := readDocument_of_parses .nil (.nil .zero)
  obtain ⟨committed, s', hperform, htext, hiff⟩ := hover (e := ⟨_, _, .deleteRoot n.id⟩) rfl rfl
    ⟨[], tokensFrom_nil .zero, by simp⟩ hempty
  refine ⟨s, n, _, hstart, hn, hdelete, committed, s', hperform, htext, fun hbare => ?_⟩
  rw [List.eraseIdx_eq_take_drop_succ] at hbare
  exact (hiff.1 hbare).2 (by simp [Joins, isDelimiter, isBlank])

end Session

end TreeEdit
