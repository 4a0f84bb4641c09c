import TreeEdit.Proofs.Written

/-!
# Printed nodes are read back

`Doc.ReadsBack d n` says that however the document `d` is set, and wherever it stands, the reader
takes it for one expression with comments above it, and that this is the node `n` up to bare form. A
list in brackets reads back if its items do: the first item stands behind the bracket, or behind the
keyword on its line, and each of the others behind a place to break. A comment that stands above an
item is on a line of its own unless it follows the keyword; then its first line hangs on the keyword
at first, and recognition passes it on.

The main result is `Node.Sound.readsBack`: every sound node reads back.
-/

namespace TreeEdit

open Reader Lexeme

namespace Reader

/-- The reader takes the tokens for these elements, whatever stands around them. -/
def Reads (ts : List Token) (es : List Element) : Prop :=
  ∀ rest stack elements,
    elementsFrom (ts ++ rest) stack elements = elementsFrom rest stack (es.reverse ++ elements)

theorem Reads.nil : Reads [] [] := fun _ _ _ => rfl

theorem Reads.append {ts us : List Token} {es fs : List Element} (h : Reads ts es)
    (h' : Reads us fs) : Reads (ts ++ us) (es ++ fs) := by
  intro rest stack elements
  rw [List.append_assoc, h, h', List.reverse_append, List.append_assoc]

theorem Reads.leaf {t : Token} (h : t.kind = .atom ∨ t.kind = .string) :
    Reads [t] [.expr (leaf t)] := by
  intro rest stack elements
  rcases h with h | h <;> simp [elementsFrom, h]

theorem Reads.comment {t : Token} (h : t.kind = .comment) : Reads [t] [.note ⟨t.span, t.text⟩] := by
  intro rest stack elements
  simp [elementsFrom, h]

theorem Reads.list {ts : List Token} {es : List Element} (h : Reads ts es) {o c : Token} {b : Bracket}
    (ho : o.kind = .opening b) (hc : c.kind = .closing b) :
    Reads (o :: (ts ++ [c])) [.expr (list es.reverse ⟨o.span.start, c.span.stop⟩)] := by
  intro rest stack elements
  rw [List.cons_append, elementsFrom, ho]
  simp only
  rw [List.append_assoc, h]
  simp [elementsFrom, hc]

end Reader

/-! ## Comments above an item -/

/-- The comment of a node with these lines above it. -/
def bareComment : List String → Option Comment
  | [] => none
  | texts => some ⟨.unassigned, joinLines texts, ⟨.zero, .zero⟩, 0⟩

/-- The notes are in the order of the text. -/
def Note.Ordered (notes : List Note) : Prop :=
  notes.Pairwise fun a b => a.span.start ≤ b.span.start

theorem Note.sorted_of_ordered {notes : List Note} (h : Note.Ordered notes) : Note.sorted notes = notes :=
  List.mergeSort_of_pairwise (h.imp fun h => by simpa using h)

theorem Node.addNotes_of_ordered {m : Node} {t : Note} {ts : List Note} (hm : m.comment = none)
    (h : Note.Ordered (t :: ts)) : m.addNotes (t :: ts) = m.withComment (some (.ofNotes t ts)) := by
  simp [addNotes, hm, Note.sorted_of_ordered h]

theorem Node.addNotes_bare {m : Node} {notes : List Note} (hm : m.comment = none)
    (h : Note.Ordered notes) :
    (m.addNotes notes).bare = { m.bare with comment := bareComment (notes.map Note.text) } := by
  cases notes with
  | nil =>
      rw [addNotes_nil, bare_eq, hm]
      rfl
  | cons t ts =>
      rw [addNotes_of_ordered hm h, bare_withComment]
      rfl

namespace Element

theorem foldl_step_notes {done : List Node} {waiting notes : List Note}
    (h : waiting ≠ [] ∨ ∀ prev ∈ done.head?, ∀ t ∈ notes.head?,
      prev.span.stop.line ≠ t.span.start.line) :
    (notes.map Element.note).foldl Walk.step ⟨done, waiting⟩ = ⟨done, waiting ++ notes⟩ := by
  induction notes generalizing waiting with
  | nil => simp
  | cons t ts ih =>
      have hstep : Walk.step ⟨done, waiting⟩ (.note t) = ⟨done, waiting ++ [t]⟩ := by
        unfold Walk.step
        cases waiting with
        | cons w ws => rfl
        | nil =>
            cases done with
            | nil => rfl
            | cons prev before =>
                have hline : prev.span.stop.line ≠ t.span.start.line := by
                  simpa using h
                simp [hline]
      rw [List.map_cons, List.foldl_cons, hstep, ih (.inl (by simp))]
      simp

/-- Notes that do not stand on the line of the expression before them hang on the expression after
them. -/
theorem foldl_step_item {done : List Node} {notes : List Note} {m : Node}
    (h : ∀ prev ∈ done.head?, ∀ t ∈ notes.head?, prev.span.stop.line ≠ t.span.start.line) :
    (notes.map Element.note ++ [Element.expr m]).foldl Walk.step ⟨done, []⟩ =
      ⟨m.addNotes notes :: done, []⟩ := by
  rw [List.foldl_append, foldl_step_notes (.inr h)]
  rfl

/-- Behind a keyword the first note hangs on the keyword, whose line it shares, and the others on the
expression. -/
theorem foldl_step_afterKeyword {keyword m : Node} {notes : List Note}
    (hfirst : ∀ t ∈ notes.head?, keyword.span.stop.line = t.span.start.line)
    (hlater : ∀ t ∈ notes.tail, keyword.span.stop.line ≠ t.span.start.line) :
    (notes.map Element.note ++ [Element.expr m]).foldl Walk.step ⟨[keyword], []⟩ =
      ⟨[m.addNotes notes.tail, keyword.addNotes (notes.take 1)], []⟩ := by
  cases notes with
  | nil => rfl
  | cons t ts =>
      have hstep : Walk.step ⟨[keyword], []⟩ (.note t) = ⟨[keyword.addNotes [t]], []⟩ := by
        simp [Walk.step, hfirst t rfl]
      rw [List.map_cons, List.cons_append, List.foldl_cons, hstep, foldl_step_item]
      · rfl
      · intro prev hprev u hu
        cases hprev
        rw [Node.span_addNotes]
        exact hlater u (List.mem_of_mem_head? hu)

end Element

theorem joinLines_cons_joinLines (s : String) {ts : List String} (h : ts ≠ []) :
    joinLines [s, joinLines ts] = joinLines (s :: ts) := by
  cases ts with
  | nil => exact absurd rfl h
  | cons t ts =>
      rw [← String.toList_inj]
      simp [toList_joinLines, List.intercalate_cons_cons]

theorem bareComment_of_ne {texts : List String} (h : texts ≠ []) :
    bareComment texts = some ⟨.unassigned, joinLines texts, ⟨.zero, .zero⟩, 0⟩ := by
  cases texts with
  | nil => exact absurd rfl h
  | cons t ts => rfl

theorem Note.le_start_foldl_union {p : Pos} {ts : List Note} {span : Span} (hspan : p ≤ span.start)
    (h : ∀ t ∈ ts, p ≤ t.span.start) :
    p ≤ (ts.foldl (fun span note => span.union note.span) span).start := by
  induction ts generalizing span with
  | nil => exact hspan
  | cons t ts ih =>
      refine ih ?_ fun u hu => h u (List.mem_cons_of_mem t hu)
      simp only [Span.union, Pos.earlier]
      split
      · exact hspan
      · exact h t List.mem_cons_self

/-- Lines hung on a node in two steps, the first line last. -/
theorem Node.addNotes_addNotes_bare {m : Node} {t : Note} {ts : List Note} (hm : m.comment = none)
    (h : Note.Ordered (t :: ts)) :
    ((m.addNotes ts).addNotes [t]).bare = (m.addNotes (t :: ts)).bare := by
  cases ts with
  | nil => rfl
  | cons u us =>
      obtain ⟨hle, htail⟩ := List.pairwise_cons.1 h
      have hstart : t.span.start ≤ (Comment.ofNotes u us).note.span.start :=
        Note.le_start_foldl_union (hle u List.mem_cons_self) fun v hv =>
          hle v (List.mem_cons_of_mem u hv)
      have hsorted : Note.sorted [t, (Comment.ofNotes u us).note] =
          [t, (Comment.ofNotes u us).note] :=
        Note.sorted_of_ordered (by simpa [Note.Ordered] using hstart)
      have hadd : (m.addNotes (u :: us)).addNotes [t] =
          (m.addNotes (u :: us)).withComment (some (.ofNotes t [(Comment.ofNotes u us).note])) := by
        rw [addNotes_of_ordered hm htail, addNotes]
        simp [withComment, hsorted]
      rw [hadd, bare_withComment, addNotes_bare hm htail, addNotes_bare hm h]
      have htext := joinLines_cons_joinLines t.text (List.cons_ne_nil u.text (us.map Note.text))
      simpa [bareComment, Comment.bare, Comment.ofNotes, Comment.make, Comment.note] using htext

namespace Reader

/-- The part of a comment that hung on the keyword comes back to the item it stood above. -/
theorem passKeywordComment_item {keyword m : Node} {notes : List Note} (rest : List Node)
    (hkeyword : keyword.comment = none) (hm : m.comment = none) (h : Note.Ordered notes) :
    (passKeywordComment
        (keyword.addNotes (notes.take 1) :: m.addNotes notes.tail :: rest)).map Node.bare =
      (keyword :: m.addNotes notes :: rest).map Node.bare := by
  cases notes with
  | nil => exact congrArg (List.map Node.bare) (passKeywordComment_of_none hkeyword)
  | cons t ts =>
      have hadd : keyword.addNotes [t] = keyword.withComment (some (.ofNotes t [])) :=
        Node.addNotes_of_ordered hkeyword (List.pairwise_singleton _ _)
      have hnote : (Comment.ofNotes t []).note = t := by
        simp [Comment.ofNotes, Comment.make, Comment.note, joinLines_singleton]
      have hpass : passKeywordComment (keyword.addNotes [t] :: m.addNotes ts :: rest) =
          (keyword.addNotes [t]).withComment none :: (m.addNotes ts).addNotes [t] :: rest := by
        rw [passKeywordComment, hadd]
        simp only [Node.withComment, hnote]
      have hback : ((keyword.addNotes [t]).withComment none).bare = keyword.bare := by
        rw [hadd, Node.bare_withComment, Node.bare_withComment, Node.bare_eq, hkeyword]
      rw [List.take_succ_cons, List.take_zero, List.tail_cons, hpass, List.map_cons, List.map_cons,
        Node.addNotes_addNotes_bare hm h, hback]
      rfl

end Reader

/-! ## Runs of lexemes that are read as one item, and as items behind one another -/

/-- The run does not end in a comment, so that a blank or a bracket may stand behind it. -/
def Lexeme.Closed (ls : List Lexeme) : Prop := ∀ l ∈ ls.getLast?, ∀ body, l ≠ .comment body

/-- The run from `p` on is read as one expression with notes above it. -/
structure ReadsAs (p : Pos) (ls : List Lexeme) (notes : List Note) (m : Node) : Prop where
  run : Run ls
  closed : Closed ls
  reads : Reads (tokens p ls) (notes.map .note ++ [.expr m])
  comment : m.comment = none
  stop : m.span.stop = p.advanceOver (text ls)
  ordered : Note.Ordered notes
  first : ∀ t ∈ notes.head?, t.span.start.line = p.line
  later : ∀ t ∈ notes.tail, p.line < t.span.start.line

/-- The run from `p` on is read as expressions, each behind a blank. -/
structure ReadsOn (p : Pos) (ls : List Lexeme) (es : List Element) (items : List Node) : Prop where
  run : Run ls
  head : ∀ l ∈ ls.head?, ∃ c, l = .blank c
  closed : Closed ls
  reads : Reads (tokens p ls) es
  walk : ∀ done : List Node, (∀ prev ∈ done.head?, prev.span.stop.line ≤ p.line) →
    es.foldl Element.Walk.step ⟨done, []⟩ = ⟨items.reverse ++ done, []⟩

namespace Lexeme

theorem closed_singleton {l : Lexeme} (h : ∀ body, l ≠ .comment body) : Closed [l] := by
  rintro _ ⟨⟩
  exact h

theorem Closed.append {a b : List Lexeme} (ha : Closed a) (hb : Closed b) : Closed (a ++ b) := by
  intro l hl
  rw [List.getLast?_append, Option.mem_def, Option.or_eq_some_iff] at hl
  rcases hl with hl | ⟨-, hl⟩
  · exact hb l hl
  · exact ha l hl

theorem meets_blank {l : Lexeme} (h : ∀ body, l ≠ .comment body) (c : Char) : Meets l (.blank c) := by
  cases l with
  | comment body => exact absurd rfl (h body)
  | _ => trivial

theorem meets_closing {l : Lexeme} (h : ∀ body, l ≠ .comment body) (b : Bracket) :
    Meets l (.closing b) := by
  cases l with
  | comment body => exact absurd rfl (h body)
  | _ => trivial

/-- Blank characters as lexemes. -/
def blanks (cs : List Char) : List Lexeme := cs.map .blank

@[simp] theorem text_blanks (cs : List Char) : text (blanks cs) = cs := by
  induction cs with
  | nil => rfl
  | cons c cs ih => exact congrArg (c :: ·) ih

@[simp] theorem tokens_blanks (p : Pos) (cs : List Char) : tokens p (blanks cs) = [] := by
  induction cs generalizing p with
  | nil => rfl
  | cons c cs ih => exact ih _

theorem closed_blanks (cs : List Char) : Closed (blanks cs) := by
  intro l hl body
  obtain ⟨c, -, rfl⟩ := List.mem_map.1 (List.mem_of_mem_getLast? hl)
  exact Lexeme.noConfusion

theorem Run.blanks_append {cs : List Char} (hcs : ∀ c ∈ cs, isBlank c = true) {ls : List Lexeme}
    (h : Run ls) : Run (blanks cs ++ ls) := by
  induction cs with
  | nil => exact h
  | cons c cs ih =>
      obtain ⟨hc, hcs⟩ := List.forall_mem_cons.1 hcs
      exact (ih hcs).cons hc trivial

end Lexeme

theorem ReadsAs.notes_eq_nil {p : Pos} {ls : List Lexeme} {notes : List Note} {m : Node}
    (h : ReadsAs p ls notes m) (hnone : (m.addNotes notes).comment = none) : notes = [] := by
  cases notes with
  | nil => rfl
  | cons t ts =>
      rw [Node.addNotes_of_ordered h.comment h.ordered] at hnone
      cases hnone

theorem ReadsOn.nil (p : Pos) : ReadsOn p [] [] [] :=
  ⟨.nil, by simp, by simp [Closed], .nil, fun _ _ => rfl⟩

/-- An item with others behind it. -/
theorem ReadsAs.andOn {p : Pos} {ls ls' : List Lexeme} {notes : List Note} {m : Node}
    {es : List Element} {items : List Node} (hitem : ReadsAs p ls notes m)
    (hrest : ReadsOn (p.advanceOver (text ls)) ls' es items) :
    Run (ls ++ ls') ∧ Closed (ls ++ ls') ∧
      Reads (tokens p (ls ++ ls')) ((notes.map .note ++ [.expr m]) ++ es) := by
  refine ⟨hitem.run.append hrest.run ?_, hitem.closed.append hrest.closed, ?_⟩
  · intro l hl l' hl'
    obtain ⟨c, rfl⟩ := hrest.head l' hl'
    exact meets_blank (hitem.closed l hl) c
  · rw [tokens_append]
    exact hitem.reads.append hrest.reads

theorem ReadsOn.cons {p : Pos} {sep : List Char} {ls ls' : List Lexeme} {notes : List Note} {m : Node}
    {es : List Element} {items : List Node} (hne : sep ≠ []) (hsep : ∀ c ∈ sep, isBlank c = true)
    (hline : notes ≠ [] → p.line < (p.advanceOver sep).line)
    (hitem : ReadsAs (p.advanceOver sep) ls notes m)
    (hrest : ReadsOn ((p.advanceOver sep).advanceOver (text ls)) ls' es items) :
    ReadsOn p (blanks sep ++ (ls ++ ls')) ((notes.map .note ++ [.expr m]) ++ es)
      (m.addNotes notes :: items) := by
  obtain ⟨hrun, hclosed, hreads⟩ := hitem.andOn hrest
  refine ⟨hrun.blanks_append hsep, ?_, (closed_blanks sep).append hclosed, ?_, ?_⟩
  · cases sep with
    | nil => exact absurd rfl hne
    | cons c cs =>
        rintro l ⟨⟩
        exact ⟨c, rfl⟩
  · rw [tokens_append, tokens_blanks, List.nil_append, text_blanks]
    exact hreads
  · intro done hdone
    rw [List.foldl_append, Element.foldl_step_item, hrest.walk]
    · simp
    · rintro prev ⟨⟩
      rw [Node.span_addNotes, hitem.stop]
    · -- A note above the item stands on a later line than the item before.
      intro prev hprev t ht heq
      have hnotes : notes ≠ [] := by
        rintro rfl
        cases ht
      have hlt := hline hnotes
      rw [← hitem.first t ht, ← heq] at hlt
      exact absurd (hdone prev hprev) (by omega)

theorem Element.attach_of_walk {es : List Element} {items : List Node}
    (h : es.foldl Walk.step ⟨[], []⟩ = ⟨items.reverse, []⟩) : attach es = items := by
  rw [attach, h, Walk.finish]
  cases hr : items.reverse with
  | nil => simpa using hr.symm
  | cons prev before =>
      simp only [addNotes_nil]
      rw [← hr, List.reverse_reverse]

/-- A list in brackets, from the elements between them. -/
theorem ReadsAs.list (b : Bracket) {p : Pos} {ls : List Lexeme} {es : List Element} {items : List Node}
    (hrun : Run ls) (hclosed : Closed ls) (hreads : Reads (tokens (p.advance b.opener) ls) es)
    (hattach : Element.attach es = items) :
    ∃ span, ReadsAs p (.opening b :: (ls ++ [.closing b])) [] (.make (recognise items) span) := by
  let q := (p.advance b.opener).advanceOver (text ls)
  have hcloser : Run [.closing b] := Run.nil.cons trivial trivial
  have htokens : tokens p (.opening b :: (ls ++ [.closing b])) =
      .ofChars (.opening b) p [b.opener] ::
        (tokens (p.advance b.opener) ls ++ [.ofChars (.closing b) q [b.closer]]) := by
    rw [tokens, tokens_append]
    rfl
  have hlist := hreads.list (o := .ofChars (.opening b) p [b.opener])
    (c := .ofChars (.closing b) q [b.closer]) rfl rfl
  rw [Reader.list, List.reverse_reverse, hattach] at hlist
  -- No comment hangs on the list itself: its notes are those of the items between the brackets.
  refine ⟨⟨p, q.advanceOver [b.closer]⟩, ?_, ?_, ?_, rfl, ?_, .nil, by simp, by simp⟩
  · refine (hrun.append hcloser ?_).cons trivial trivial
    rintro l hl _ ⟨⟩
    exact meets_closing (hclosed l hl) b
  · have hends : Closed [.opening b] ∧ Closed [.closing b] := by
      constructor <;> exact closed_singleton fun body => Lexeme.noConfusion
    exact hends.1.append (hclosed.append hends.2)
  · rw [htokens]
    exact hlist
  · have htext : text (.opening b :: (ls ++ [.closing b])) = b.opener :: (text ls ++ [b.closer]) := by
      rw [text_cons, text_append]
      rfl
    rw [htext]
    exact (Pos.advanceOver_append (p.advance b.opener) (text ls) [b.closer]).symm

/-! ## Ways to set a document -/

namespace Doc

theorem isBlank_freshLine (indent : Nat) : ∀ c ∈ freshLine indent, isBlank c = true := by
  intro c hc
  rcases List.mem_cons.1 hc with rfl | hc
  · decide
  · rw [(List.mem_replicate.1 hc).2]
    decide

theorem line_advanceOver_freshLine (p : Pos) (indent : Nat) :
    (p.advanceOver (freshLine indent)).line = p.line + 1 := by
  have hspaces : '\n' ∉ List.replicate indent ' ' := by simp
  rw [Pos.line_advanceOver, freshLine, List.count_cons_self, List.count_eq_zero.2 hspaces]

/-- However the document is set, and wherever it stands, it is read as the node, with the comment of
the node above it; set flat it has none. -/
def ReadsBack (d : Doc) (n : Node) : Prop :=
  ∀ flat cs, Sets flat d cs → ∀ p, ∃ ls notes m, Lexeme.text ls = cs ∧ ReadsAs p ls notes m ∧
    (m.addNotes notes).bare = n.bare ∧ (flat = true → notes = [])

theorem broken_readsOn {flat : Bool} {docs : List Doc} {ns : List Node}
    (h : List.Forall₂ ReadsBack docs ns) {cs : List Char} (hs : Sets flat (Layout.broken docs) cs)
    (p : Pos) :
    ∃ ls es items, Lexeme.text ls = cs ∧ ReadsOn p ls es items ∧
      items.map Node.bare = ns.map Node.bare := by
  induction h generalizing cs p with
  | nil =>
      rw [sets_concat_nil_iff.1 hs]
      exact ⟨[], [], [], rfl, .nil p, rfl⟩
  | @cons d n ds ns hd _ ih =>
      obtain ⟨sep, _, rfl, hsep, hmore⟩ := sets_concat_cons_iff.1 hs
      obtain ⟨x, y, rfl, hx, hy⟩ := sets_concat_cons_iff.1 hmore
      obtain ⟨ls, notes, m, rfl, hitem, hbare, hflat⟩ := hd flat x hx (p.advanceOver sep)
      obtain ⟨ls', es, items, rfl, hrest, hbares⟩ :=
        ih hy ((p.advanceOver sep).advanceOver (Lexeme.text ls))
      refine ⟨blanks sep ++ (ls ++ ls'), _, m.addNotes notes :: items, by simp, .cons ?_ ?_ ?_ hitem hrest,
        by rw [List.map_cons, List.map_cons, hbare, hbares]⟩
      · rcases sets_line_iff.1 hsep with ⟨_, rfl⟩ | ⟨_, indent, rfl⟩ <;> exact List.cons_ne_nil _ _
      · rcases sets_line_iff.1 hsep with ⟨_, rfl⟩ | ⟨_, indent, rfl⟩
        · simp [isBlank]
        · exact isBlank_freshLine indent
      · -- A comment above the item needs a line of its own, and it has one: set flat, the item has no comment.
        intro hnotes
        rcases sets_line_iff.1 hsep with ⟨rfl, _⟩ | ⟨_, indent, rfl⟩
        · exact absurd (hflat rfl) hnotes
        · rw [line_advanceOver_freshLine]
          exact Nat.lt_succ_self _

/-- The characters from `p` on are read as elements that are recognised as the kind. -/
def ItemsRead (p : Pos) (cs : List Char) (k : Kind Node) : Prop :=
  ∃ ls es, Lexeme.text ls = cs ∧ Run ls ∧ Closed ls ∧ Reads (tokens p ls) es ∧
    (recognise (Element.attach es)).map Node.bare = k.map Node.bare

/-- A list in brackets reads back if what stands between the brackets does. -/
theorem ItemsRead.inBrackets {b : Bracket} {p : Pos} {cs : List Char} {n : Node}
    (h : ItemsRead (p.advance b.opener) cs n.kind) (hcomment : n.comment = none) :
    ∃ ls notes m, Lexeme.text ls = b.opener :: (cs ++ [b.closer]) ∧ ReadsAs p ls notes m ∧
      (m.addNotes notes).bare = n.bare ∧ notes = [] := by
  obtain ⟨ls, es, rfl, hrun, hclosed, hreads, hkind⟩ := h
  obtain ⟨span, hlist⟩ := ReadsAs.list b hrun hclosed hreads rfl
  refine ⟨_, [], _, ?_, hlist, ?_, rfl⟩
  · rw [text_cons, text_append]
    rfl
  · rw [addNotes_nil, Node.bare_eq_bare_iff, hcomment]
    exact ⟨hkind, rfl⟩

theorem itemsRead_nil {k : Kind Node} (hkind : (recognise []).map Node.bare = k.map Node.bare)
    (p : Pos) : ItemsRead p [] k :=
  ⟨[], [], rfl, .nil, by simp [Closed], .nil, hkind⟩

/-- The first item stands at the start, each of the others behind a place to break. -/
theorem items_read {flat : Bool} {d : Doc} {n : Node} {docs : List Doc} {ns : List Node}
    {x y : List Char} (hd : d.ReadsBack n) (hdocs : List.Forall₂ ReadsBack docs ns)
    (hx : Sets flat d x) (hy : Sets flat (Layout.broken docs) y) (p : Pos) :
    ∃ ls es, Lexeme.text ls = x ++ y ∧ Run ls ∧ Closed ls ∧ Reads (tokens p ls) es ∧
      (Element.attach es).map Node.bare = (n :: ns).map Node.bare := by
  obtain ⟨ls, notes, m, rfl, hitem, hbare, -⟩ := hd flat x hx p
  obtain ⟨ls', es, items, rfl, hrest, hbares⟩ :=
    broken_readsOn hdocs hy (p.advanceOver (Lexeme.text ls))
  have hattach : Element.attach ((notes.map .note ++ [.expr m]) ++ es) = m.addNotes notes :: items := by
    refine Element.attach_of_walk ?_
    rw [List.foldl_append, Element.foldl_step_item (by simp), hrest.walk]
    · simp
    · rintro prev ⟨⟩
      rw [Node.span_addNotes, hitem.stop]
  obtain ⟨hrun, hclosed, hreads⟩ := hitem.andOn hrest
  refine ⟨ls ++ ls', _, by simp, hrun, hclosed, hreads, ?_⟩
  rw [hattach, List.map_cons, List.map_cons, hbare, hbares]

theorem itemsRead_cons {flat : Bool} {d : Doc} {n : Node} {docs : List Doc} {ns : List Node}
    {x y : List Char} {k : Kind Node} (hd : d.ReadsBack n) (hdocs : List.Forall₂ ReadsBack docs ns)
    (hx : Sets flat d x) (hy : Sets flat (Layout.broken docs) y) (hcalm : Calm (n :: ns))
    (hkind : (recognise (n :: ns)).map Node.bare = k.map Node.bare) (p : Pos) :
    ItemsRead p (x ++ y) k := by
  obtain ⟨ls, es, htext, hrun, hclosed, hreads, hbare⟩ := items_read hd hdocs hx hy p
  exact ⟨ls, es, htext, hrun, hclosed, hreads, (recognise_congr hcalm hbare).trans hkind⟩

theorem atom_ok_of_all {s : String} (h : (!s.toList.isEmpty && s.toList.all (!isDelimiter ·)) = true) :
    (Lexeme.atom s.toList).Ok := by
  rw [Bool.and_eq_true, List.all_eq_true] at h
  exact ⟨by simpa using h.1, fun c hc => by simpa using h.2 c hc⟩

theorem keyword_ok {keyword : String} (h : (form? keyword).isSome) :
    (Lexeme.atom keyword.toList).Ok ∧ Kind.ofAtom keyword = .literal keyword .symbol := by
  unfold form? at h
  split at h
  all_goals first
    | exact ⟨atom_ok_of_all rfl, rfl⟩
    | cases h

/-- The first item stands on the line of the keyword, each of the others behind a place to break. -/
theorem itemsRead_keyword {flat : Bool} {keyword : String} {d : Doc} {n : Node} {docs : List Doc}
    {ns : List Node} {x y : List Char} {k : Kind Node} (hform : (form? keyword).isSome)
    (hd : d.ReadsBack n) (hdocs : List.Forall₂ ReadsBack docs ns) (hx : Sets flat d x)
    (hy : Sets flat (Layout.broken docs) y) (hcalm : Calm (keywordNode keyword :: n :: ns))
    (hkind : (recognise (keywordNode keyword :: n :: ns)).map Node.bare = k.map Node.bare) (p : Pos) :
    ItemsRead p (keyword.toList ++ ' ' :: (x ++ y)) k := by
  obtain ⟨hok, hatom⟩ := keyword_ok hform
  let t : Token := .ofChars .atom p keyword.toList
  let q := (p.advanceOver keyword.toList).advance ' '
  obtain ⟨ls, notes, m, rfl, hitem, hbare, -⟩ := hd flat x hx q
  obtain ⟨ls', es, items, rfl, hrest, hbares⟩ :=
    broken_readsOn hdocs hy (q.advanceOver (Lexeme.text ls))
  have hleaf : (leaf t).bare = (keywordNode keyword).bare := by
    have hkind : leaf t = .make (.ofAtom keyword) t.span := by
      simp [leaf, t, Token.ofChars]
    rw [hkind, hatom, keywordNode, Node.bare_make, Node.bare_make]
  -- The first line of the comment of the item stands behind the keyword on its line, so it is hung on the
  -- keyword.
  have hattach : Element.attach (.expr (leaf t) :: ((notes.map .note ++ [.expr m]) ++ es)) =
      (leaf t).addNotes (notes.take 1) :: m.addNotes notes.tail :: items := by
    refine Element.attach_of_walk ?_
    have hstep : Element.Walk.step ⟨[], []⟩ (.expr (leaf t)) = ⟨[leaf t], []⟩ := rfl
    rw [List.foldl_cons, hstep, List.foldl_append, Element.foldl_step_afterKeyword, hrest.walk]
    · simp
    · rintro prev ⟨⟩
      rw [Node.span_addNotes, hitem.stop]
    · intro u hu
      exact (hitem.first u hu).symm
    · intro u hu
      exact Nat.ne_of_lt (hitem.later u hu)
  obtain ⟨hrun, hclosed, hreads⟩ := hitem.andOn hrest
  have hblank : Run (.blank ' ' :: (ls ++ ls')) := hrun.cons (by simp [Lexeme.Ok, isBlank]) trivial
  refine ⟨.atom keyword.toList :: .blank ' ' :: (ls ++ ls'), _, by simp [Lexeme.chars],
    hblank.cons hok ?_, ?_, Reads.append (.leaf (t := t) (.inl rfl)) hreads, ?_⟩
  · rintro c ⟨⟩
    decide
  · have hends : Closed [.atom keyword.toList, .blank ' '] := by
      rintro _ ⟨⟩ body
      exact Lexeme.noConfusion
    exact hends.append hclosed
  · -- The first line of the comment hangs on the keyword and is passed on to the item.
    have hsym : ((leaf t).addNotes (notes.take 1)).symbol? = (keywordNode keyword).symbol? := by
      rw [Node.symbol?_addNotes, ← Node.bare_symbol?, hleaf, Node.bare_symbol?]
    have hshape : (shapeOf? ((leaf t).addNotes (notes.take 1) :: m.addNotes notes.tail :: items)).isSome := by
      rwa [shapeOf?_cons_of_symbol?_eq hsym _ []]
    rw [List.singleton_append, hattach, ← recognise_passKeywordComment hshape, ← hkind]
    refine recognise_congr hcalm ?_
    rw [passKeywordComment_item items rfl hitem.comment hitem.ordered]
    simp only [List.map_cons, hleaf, hbare, hbares]

/-! ## Layouts -/

/-- A document that is always set as a list in brackets reads back if what stands between the brackets
does. -/
theorem list_readsBack (b : Bracket) {d : Doc} {n : Node} (hcomment : n.comment = none)
    (h : ∀ flat cs, Sets flat d cs → ∃ inner, cs = b.opener :: (inner ++ [b.closer]) ∧
      ∀ p, ItemsRead p inner n.kind) : d.ReadsBack n := by
  intro flat cs hcs p
  obtain ⟨inner, rfl, hinner⟩ := h flat cs hcs
  obtain ⟨ls, notes, m, htext, hreads, hbare, hnotes⟩ :=
    (hinner (p.advance b.opener)).inBrackets hcomment
  exact ⟨ls, notes, m, htext, hreads, hbare, fun _ => hnotes⟩

theorem application_readsBack {d : Doc} {n n' : Node} {docs : List Doc} {ns : List Node}
    (hd : d.ReadsBack n) (hdocs : List.Forall₂ ReadsBack docs ns) (hcalm : Calm (n :: ns))
    (hkind : (recognise (n :: ns)).map Node.bare = n'.kind.map Node.bare)
    (hcomment : n'.comment = none) : (Layout.application d docs).ReadsBack n' := by
  refine list_readsBack .round hcomment fun flat cs hcs => ?_
  obtain ⟨flat', x, y, rfl, hx, hy⟩ := sets_application hcs
  exact ⟨x ++ y, rfl, itemsRead_cons hd hdocs hx hy hcalm hkind⟩

theorem form_readsBack {keyword : String} {d : Doc} {n n' : Node} {docs : List Doc} {ns : List Node}
    (hform : (form? keyword).isSome) (hd : d.ReadsBack n) (hdocs : List.Forall₂ ReadsBack docs ns)
    (hcalm : Calm (keywordNode keyword :: n :: ns))
    (hkind : (recognise (keywordNode keyword :: n :: ns)).map Node.bare = n'.kind.map Node.bare)
    (hcomment : n'.comment = none) : (Layout.form keyword (d :: docs)).ReadsBack n' := by
  refine list_readsBack .round hcomment fun flat cs hcs => ?_
  obtain ⟨flat', x, y, rfl, hx, hy⟩ := sets_form hcs
  exact ⟨keyword.toList ++ ' ' :: (x ++ y), rfl, itemsRead_keyword hform hd hdocs hx hy hcalm hkind⟩

theorem bracketed_readsBack (b : Bracket) {opener closer : String}
    (hopener : opener.toList = [b.opener]) (hcloser : closer.toList = [b.closer]) {docs : List Doc}
    {ns : List Node} {n : Node} (hdocs : List.Forall₂ ReadsBack docs ns) (hcalm : Calm ns)
    (hkind : (recognise ns).map Node.bare = n.kind.map Node.bare) (hcomment : n.comment = none) :
    (Layout.bracketed opener closer docs).ReadsBack n := by
  refine list_readsBack b hcomment fun flat cs hcs => ?_
  obtain ⟨flat', inner, rfl, hinner⟩ := sets_bracketed hcs
  refine ⟨inner, by simp [hopener, hcloser], ?_⟩
  cases hdocs with
  | nil =>
      rw [sets_concat_nil_iff.1 hinner]
      exact itemsRead_nil hkind
  | cons hd hdocs =>
      rw [join_cons] at hinner
      obtain ⟨x, y, rfl, hx, hy⟩ := sets_append_iff.1 hinner
      exact itemsRead_cons hd hdocs hx hy hcalm hkind

theorem round_readsBack {docs : List Doc} {ns : List Node} {n : Node}
    (hdocs : List.Forall₂ ReadsBack docs ns) (hcalm : Calm ns)
    (hkind : (recognise ns).map Node.bare = n.kind.map Node.bare) (hcomment : n.comment = none) :
    (Layout.round docs).ReadsBack n :=
  bracketed_readsBack .round rfl rfl hdocs hcalm hkind hcomment

theorem square_readsBack {docs : List Doc} {ns : List Node} {n : Node}
    (hdocs : List.Forall₂ ReadsBack docs ns) (hcalm : Calm ns)
    (hkind : (recognise ns).map Node.bare = n.kind.map Node.bare) (hcomment : n.comment = none) :
    (Layout.square docs).ReadsBack n :=
  bracketed_readsBack .square rfl rfl hdocs hcalm hkind hcomment

theorem leaf_readsBack {s : String} {l : Lexeme} {n : Node} (hl : l.Ok) (hchars : l.chars = s.toList)
    (htoken : ∀ p, ∃ t, l.token? p = some t ∧ (t.kind = .atom ∨ t.kind = .string) ∧
      t.span.stop = p.advanceOver s.toList ∧ (leaf t).kind = n.kind)
    (hcomment : n.comment = none) : (text s).ReadsBack n := by
  intro flat cs hcs p
  obtain ⟨t, ht, hkind, hstop, hleaf⟩ := htoken p
  have htokens : tokens p [l] = [t] := by simp [tokens, ht]
  refine ⟨[l], [], leaf t, ?_, ⟨Run.nil.cons hl (by cases l <;> simp [Before]), ?_, ?_, rfl, ?_, .nil,
    by simp, by simp⟩, ?_, fun _ => rfl⟩
  · rw [sets_text_iff.1 hcs, text_cons, hchars, text_nil, List.append_nil]
  · refine closed_singleton ?_
    rintro body rfl
    cases ht
    simp [Token.ofChars] at hkind
  · rw [htokens]
    exact .leaf hkind
  · rw [text_cons, hchars, text_nil, List.append_nil]
    exact hstop
  · rw [addNotes_nil, Node.bare_eq_bare_iff, hleaf, hcomment]
    exact ⟨rfl, rfl⟩

theorem atom_readsBack {s : String} {n : Node} (hs : (Lexeme.atom s.toList).Ok)
    (hkind : Kind.ofAtom s = n.kind) (hcomment : n.comment = none) : (text s).ReadsBack n := by
  refine leaf_readsBack hs rfl ?_ hcomment
  intro p
  refine ⟨_, rfl, .inl rfl, rfl, ?_⟩
  rw [← hkind]
  simp [leaf, Token.ofChars, Node.make]

theorem string_readsBack {s : String} {body : List Char} {n : Node} (hbody : (Lexeme.string body).Ok)
    (hs : s.toList = '"' :: body) (hkind : n.kind = .literal s .string) (hcomment : n.comment = none) :
    (text s).ReadsBack n := by
  refine leaf_readsBack hbody hs.symm ?_ hcomment
  intro p
  refine ⟨_, rfl, .inr rfl, by rw [hs]; rfl, ?_⟩
  rw [hkind, ← String.ofList_toList (s := s), hs]
  simp [leaf, Token.ofChars, Node.make]

/-- One more line of a comment above an item. -/
theorem commentLine_readsAs {body : List Char} {indent : Nat} {p : Pos} {ls : List Lexeme}
    {notes : List Note} {m : Node} (hok : (Lexeme.comment body).Ok)
    (htrim : dropBlanksEnd (';' :: body) = ';' :: body)
    (h : ReadsAs ((p.advanceOver (';' :: body)).advanceOver (freshLine indent)) ls notes m) :
    ReadsAs p (.comment body :: (blanks (freshLine indent) ++ ls))
      (⟨⟨p, p.advanceOver (';' :: body)⟩, String.ofList (';' :: body)⟩ :: notes) m := by
  -- What follows starts on the next line, so every note of it stands below this one.
  have hline : ∀ t ∈ notes, p.line < t.span.start.line := by
    intro t ht
    have hle : p.line ≤ (p.advanceOver (';' :: body)).line := p.line_le_advanceOver _
    have hfresh := line_advanceOver_freshLine (p.advanceOver (';' :: body)) indent
    cases notes with
    | nil => cases ht
    | cons u us =>
        rcases List.mem_cons.1 ht with rfl | ht
        · have hfirst := h.first t rfl
          omega
        · have hlater := h.later t ht
          omega
  refine ⟨?_, ?_, ?_, h.comment, ?_, ?_, ?_, hline⟩
  · refine (h.run.blanks_append (isBlank_freshLine indent)).cons hok ?_
    rintro c ⟨⟩
    rfl
  · intro l hl
    exact ((closed_blanks (freshLine indent)).append h.closed) l hl
  · rw [tokens, tokens_append, tokens_blanks, text_blanks, List.nil_append, List.map_cons,
      List.cons_append]
    have hline : Reads ((Lexeme.comment body).token? p).toList
        [.note ⟨⟨p, p.advanceOver (';' :: body)⟩, String.ofList (';' :: body)⟩] := by
      rw [Lexeme.token?, htrim]
      exact .comment rfl
    exact hline.append h.reads
  · rw [h.stop, text_cons, text_append, text_blanks, Pos.advanceOver_append, Pos.advanceOver_append]
    rfl
  · refine List.pairwise_cons.2 ⟨?_, h.ordered⟩
    intro t ht
    exact Pos.le_def.2 (.inl (hline t ht))
  · rintro t ⟨⟩
    rfl

/-- The lines of a comment, each on a line of its own, above a document without one. -/
theorem comment_readsAs {d : Doc} {n : Node} (hd : d.ReadsBack n) (hn : n.comment = none)
    {lines : List String} (hne : lines ≠ []) (hlines : ∀ l ∈ lines, CommentLine l) {flat : Bool}
    {cs : List Char} (hcs : Sets flat (concat [join (lines.map text) hardLine, hardLine, d]) cs) (p : Pos) :
    flat = false ∧ ∃ ls notes m, Lexeme.text ls = cs ∧ ReadsAs p ls notes m ∧ m.bare = n.bare ∧
      notes.map Note.text = lines := by
  obtain ⟨rfl, hbelow⟩ := setsBelow_of_sets hne hcs
  refine ⟨rfl, ?_⟩
  clear hne hcs
  induction hbelow generalizing p with
  | document hcs =>
      obtain ⟨ls, notes, m, htext, hreads, hbare, -⟩ := hd false _ hcs p
      have hnotes : notes = [] := hreads.notes_eq_nil ((Node.comment_eq_none_of_bare hbare).2 hn)
      subst hnotes
      exact ⟨ls, [], m, htext, hreads, hbare, rfl⟩
  | @line line lines cs indent _ ih =>
      obtain ⟨⟨body, hbody, hok, htrim⟩, hlines⟩ := List.forall_mem_cons.1 hlines
      obtain ⟨ls, notes, m, rfl, hreads, hbare, htexts⟩ :=
        ih hlines ((p.advanceOver (';' :: body)).advanceOver (freshLine indent))
      refine ⟨_, _, m, ?_, commentLine_readsAs hok htrim hreads, hbare, ?_⟩
      · rw [text_cons, text_append, text_blanks, hbody]
        rfl
      · rw [List.map_cons, htexts, ← hbody, String.ofList_toList]

theorem underComment_readsBack {d : Doc} (n n' : Node) (hd : d.ReadsBack n) (hn : n.comment = none)
    (hkind : n'.kind = n.kind) (hcomment : ∀ c ∈ n'.comment, CommentText c.text) :
    (Layout.underComment n'.comment d).ReadsBack n' := by
  cases hc : n'.comment with
  | none =>
      have hbare : n'.bare = n.bare := by
        rw [Node.bare_eq_bare_iff, hkind, hc, hn]
        exact ⟨rfl, rfl⟩
      intro flat cs hcs p
      rw [hbare]
      exact hd flat cs hcs p
  | some c =>
      have hlines := linesOf_ne_nil c.text
      intro flat cs hcs p
      obtain ⟨rfl, ls, notes, m, htext, hreads, hbare, htexts⟩ :=
        comment_readsAs hd hn hlines (hcomment c hc) hcs p
      refine ⟨ls, notes, m, htext, hreads, ?_, Bool.noConfusion⟩
      rw [Node.addNotes_bare hreads.comment hreads.ordered, htexts, hbare, Node.bare_eq n,
        Node.bare_eq n', hkind, hc, bareComment_of_ne hlines, joinLines_linesOf]
      rfl

end Doc

/-! ## Every sound node reads back -/

theorem Node.doc_eq (n : Node) :
    n.doc = Layout.underComment n.comment (Layout.kind (n.kind.map Node.printed)) := by
  have hstep : ∀ below, (Layout.step n below).whole =
      Layout.underComment n.comment (Layout.kind below) := by
    intro below
    unfold Layout.step
    cases below <;> rfl
  rw [← hstep, ← printed_eq]
  rfl

theorem Node.printed_header (n : Node) : n.printed.header = n.header.map Node.doc := by
  have hother : (∀ ids, n.kind ≠ .identifiers ids) → n.printed.header = [n.doc] := by
    intro hkind
    rw [Node.doc, ← Node.printed, printed_eq]
    unfold Layout.step
    cases hk : n.kind with
    | identifiers ids => exact absurd hk (hkind ids)
    | _ => rfl
  cases hk : n.kind with
  | identifiers ids =>
      rw [printed_eq, header, hk]
      simp only [Kind.map, Layout.step, List.map_map]
      rfl
  | _ =>
      rw [hother (by simp [hk]), header, hk]
      rfl

namespace Doc

theorem forall₂_readsBack {ms : List Node} (h : ∀ m ∈ ms, m.doc.ReadsBack m.raw) :
    List.Forall₂ ReadsBack (ms.map Node.doc) (ms.map Node.raw) := by
  induction ms with
  | nil => exact .nil
  | cons m ms ih =>
      obtain ⟨hm, hms⟩ := List.forall_mem_cons.1 h
      exact .cons hm (ih hms)

theorem forall₂_printed {ms : List Node} (h : ∀ m ∈ ms, m.doc.ReadsBack m.raw) :
    List.Forall₂ ReadsBack ((ms.map Node.printed).map Layout.Printed.whole) (ms.map Node.raw) := by
  rw [List.map_map]
  exact forall₂_readsBack h

theorem keyword_readsBack {keyword : String} (h : (form? keyword).isSome) :
    (text keyword).ReadsBack (keywordNode keyword) :=
  atom_readsBack (keyword_ok h).1 (keyword_ok h).2 rfl

/-- A list that starts with no keyword, in round brackets. -/
theorem round_readsBack_listNode {docs : List Doc} {ns : List Node}
    (hdocs : List.Forall₂ ReadsBack docs ns) (hplain : shapeOf? ns = none) :
    (Layout.round docs).ReadsBack (listNode ns) :=
  round_readsBack hdocs (calm_of_none hplain) (by rw [recognise_of_none hplain]; rfl) rfl

theorem kind_readsBack {k : Kind Node} (hread : k.Readable)
    (hparts : ∀ m ∈ k.parts, m.doc.ReadsBack m.raw) {n : Node} (hkind : n.kind = k.raw)
    (hcomment : n.comment = none) : (Layout.kind (k.map Node.printed)).ReadsBack n := by
  cases k with
  | literal value type =>
      cases type with
      | string =>
          obtain ⟨body, hbody, hvalue⟩ := hread
          exact string_readsBack hbody hvalue hkind hcomment
      | _ => exact atom_readsBack hread.1 (hread.2.trans hkind.symm) hcomment
  | blank => exact atom_readsBack (atom_ok_of_all rfl) hkind.symm hcomment
  | pasted text => exact hread.elim
  | vacated => exact hread.elim
  | app func args =>
      obtain ⟨hfunc, hargs⟩ := List.forall_mem_cons.1 hparts
      exact application_readsBack hfunc (forall₂_printed hargs)
        hread.calm (hread.back.trans (by rw [hkind])) hcomment
  | identifiers ids =>
      exact round_readsBack (forall₂_printed hparts) hread.calm
        (hread.back.trans (by rw [hkind])) hcomment
  | variableDef name body =>
      exact form_readsBack rfl (hparts name (by simp)) (.cons (hparts body (by simp)) .nil) hread.calm
        (hread.back.trans (by rw [hkind])) hcomment
  | functionDef name params body =>
      have hheader : List.Forall₂ ReadsBack (name.printed.whole :: params.printed.header)
          ((name :: params.header).map Node.raw) := by
        rw [Node.printed_header]
        exact .cons (hparts name (by simp)) (forall₂_readsBack fun m hm => hparts m (by simp [hm]))
      have hlist := round_readsBack_listNode hheader (hread.plain _ (by simp [Kind.plainLists]))
      exact form_readsBack rfl hlist (.cons (hparts body (by simp)) .nil) hread.calm
        (hread.back.trans (by rw [hkind])) hcomment
  | lambda args body =>
      exact form_readsBack rfl (hparts args (by simp)) (.cons (hparts body (by simp)) .nil) hread.calm
        (hread.back.trans (by rw [hkind])) hcomment
  | structDef name fields =>
      exact form_readsBack rfl (hparts name (by simp)) (.cons (hparts fields (by simp)) .nil)
        hread.calm (hread.back.trans (by rw [hkind])) hcomment
  | conditional test yes no =>
      have hno : List.Forall₂ ReadsBack ((no.map Node.printed).map Layout.Printed.whole).toList
          (no.map Node.raw).toList := by
        cases no with
        | none => exact .nil
        | some no => exact .cons (hparts no (by simp)) .nil
      exact form_readsBack rfl (hparts test (by simp)) (.cons (hparts yes (by simp)) hno) hread.calm
        (hread.back.trans (by rw [hkind])) hcomment
  | cond clauses =>
      exact application_readsBack (keyword_readsBack rfl)
        (forall₂_printed hparts) hread.calm
        (hread.back.trans (by rw [hkind])) hcomment
  | clause test body =>
      obtain ⟨htest, hbody⟩ := List.forall_mem_cons.1 hparts
      exact square_readsBack (.cons htest (forall₂_printed hbody))
        hread.calm (hread.back.trans (by rw [hkind])) hcomment
  | letIn form bindings body =>
      have hbindings : ∀ m ∈ bindings, m.doc.ReadsBack m.raw := fun m hm => hparts m (by simp [hm])
      have hlist := round_readsBack_listNode (forall₂_printed hbindings)
        (hread.plain _ (by simp [Kind.plainLists]))
      have hform : (form? form.keyword).isSome := by cases form <;> rfl
      exact form_readsBack hform hlist (.cons (hparts body (by simp)) .nil) hread.calm
        (hread.back.trans (by rw [hkind])) hcomment
  | binding name value =>
      exact square_readsBack (.cons (hparts name (by simp)) (.cons (hparts value (by simp)) .nil))
        hread.calm (hread.back.trans (by rw [hkind])) hcomment
  | guarded form predicate exprs =>
      obtain ⟨hpredicate, hexprs⟩ := List.forall_mem_cons.1 hparts
      have hform : (form? form.keyword).isSome := by cases form <;> rfl
      exact form_readsBack hform hpredicate (forall₂_printed hexprs)
        hread.calm (hread.back.trans (by rw [hkind])) hcomment
  | sequence exprs =>
      exact application_readsBack (keyword_readsBack rfl)
        (forall₂_printed hparts) hread.calm
        (hread.back.trans (by rw [hkind])) hcomment
  | unknown elts =>
      exact round_readsBack (forall₂_printed hparts) hread.calm
        (hread.back.trans (by rw [hkind])) hcomment

end Doc

open Doc in
/-- Every sound node reads back. -/
theorem Node.Sound.readsBack {n : Node} (h : n.Sound) : n.doc.ReadsBack n.raw := by
  induction h with
  | @intro n hkind hcomment _ ih =>
      rw [doc_eq]
      exact underComment_readsBack (Node.make n.kind.raw n.span) n.raw
        (kind_readsBack hkind ih rfl rfl) rfl rfl hcomment

end TreeEdit
