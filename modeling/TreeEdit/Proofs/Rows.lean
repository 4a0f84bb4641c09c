import TreeEdit.Proofs.PlaceInvariance
import TreeEdit.Proofs.Margins

/-!
# A document taken apart at a root

The range of a root is a stretch of the text, and what stands before it and behind it can be read alone:
`exists_parted`. Before it are the roots before it, with all their comments. Behind it are the roots after
it, and no comment that would hang on anything else, because whatever follows a comment starts on a later
line.
-/

namespace TreeEdit

open Reader Lexeme

/-! ## Comments end their lines -/

namespace Element

/-- Whatever follows a note starts on a later line. -/
def Lined (es : List Element) : Prop :=
  es.Pairwise fun a b => ∀ t, a = note t → t.span.stop.line < b.span.start.line

theorem Lined.expr_cons {n : Node} {es : List Element} (h : Lined es) : Lined (expr n :: es) :=
  List.pairwise_cons.2 ⟨by rintro _ _ _ ⟨⟩, h⟩

end Element

namespace Reader

theorem Parses.lined {p : Pos} {ls : List Lexeme} {es : List Element} (h : Parses p ls es) (hrun : Run ls) :
    Element.Lined es := by
  induction h with
  | nil p => exact .nil
  | blank c _ ih => exact ih hrun.tail
  | @comment p body ls es hrest ih =>
      refine List.pairwise_cons.2 ⟨?_, ih hrun.tail⟩
      rintro e he _ ⟨⟩
      -- The comment is followed by the end of its line.
      cases ls with
      | nil => cases hrest; cases he
      | cons l ls =>
          have hmeets : l = .blank '\n' := (List.isChain_cons_cons.1 hrun.meets).1
          subst hmeets
          cases hrest with
          | blank _ hrest =>
              have hstart := (hrest.rowed hrun.tail.tail.ok).start e he
              have hstop := Pos.line_le_of_le (noteAt_span p body).2
              have hline := Pos.line_le_of_le hstart
              rw [Pos.advance, if_pos rfl] at hline
              exact Nat.lt_of_le_of_lt hstop hline
          | word hkind htoken _ => obtain ⟨_, h⟩ | ⟨_, h⟩ := eq_word hkind htoken <;> cases h
  | word _ _ _ ih => exact (ih hrun.tail).expr_cons
  | @list p q b inner ls es fs _ _ _ _ ih =>
      rw [list_eq_append] at hrun
      exact (ih hrun.right).expr_cons

end Reader

/-! ## What a comment covers -/

/-- The second span lies in the first. -/
def Span.Covers (s t : Span) : Prop := s.start ≤ t.start ∧ t.stop ≤ s.stop

namespace Span

theorem Covers.refl (s : Span) : s.Covers s := ⟨le_refl _, le_refl _⟩

theorem Covers.trans {s t u : Span} (h : s.Covers t) (h' : t.Covers u) : s.Covers u :=
  ⟨h.1.trans h'.1, h'.2.trans h.2⟩

theorem union_covers_left (s t : Span) : (s.union t).Covers s := by
  constructor
  · simp only [union, Pos.earlier]
    split
    · exact le_refl _
    · rename_i h
      exact (lt_of_not_ge h).le
  · simp only [union, Pos.later]
    split
    · assumption
    · exact le_refl _

theorem union_covers_right (s t : Span) : (s.union t).Covers t := by
  constructor
  · simp only [union, Pos.earlier]
    split
    · assumption
    · exact le_refl _
  · simp only [union, Pos.later]
    split
    · exact le_refl _
    · rename_i h
      exact (lt_of_not_ge h).le

end Span

theorem Comment.ofNotes_covers (first : Note) (rest : List Note) :
    ∀ t ∈ first :: rest, (Comment.ofNotes first rest).span.Covers t.span := by
  have hfold : ∀ (ts : List Note) (s : Span),
      (ts.foldl (fun span note => span.union note.span) s).Covers s ∧
        ∀ t ∈ ts, (ts.foldl (fun span note => span.union note.span) s).Covers t.span := by
    intro ts
    induction ts with
    | nil => exact fun s => ⟨.refl s, by simp⟩
    | cons t ts ih =>
        intro s
        obtain ⟨hs, hts⟩ := ih (s.union t.span)
        exact ⟨hs.trans (s.union_covers_left t.span),
          List.forall_mem_cons.2 ⟨hs.trans (s.union_covers_right t.span), hts⟩⟩
  exact List.forall_mem_cons.2 (hfold rest first.span)

namespace Node

theorem range_covers_comment {n : Node} {c : Comment} (h : c ∈ n.comment) : n.range.Covers c.span := by
  rw [range, Option.mem_def.1 h]
  exact Span.union_covers_right _ _

theorem range_covers_span (n : Node) : n.range.Covers n.span := ⟨n.range_start_le, n.le_range_stop⟩

theorem comment_addNotes_covers (n : Node) (notes : List Note) :
    ∀ t ∈ notes ++ (n.comment.map Comment.note).toList,
      ∃ c ∈ (n.addNotes notes).comment, c.span.Covers t.span := by
  intro t ht
  unfold addNotes
  split
  · rename_i hempty
    obtain rfl : notes = [] := List.isEmpty_iff.1 hempty
    obtain ⟨c, hc, rfl⟩ : ∃ c, n.comment = some c ∧ c.note = t := by simpa using ht
    exact ⟨c, hc, .refl _⟩
  · have hsorted : t ∈ Note.sorted (notes ++ (n.comment.map Comment.note).toList) := by
      rwa [Note.sorted, List.mem_mergeSort]
    split
    · rename_i hnil
      rw [hnil] at hsorted
      cases hsorted
    · rename_i first rest hcons
      rw [hcons] at hsorted
      exact ⟨_, rfl, Comment.ofNotes_covers first rest t hsorted⟩

/-- A node has all the notes in its range that were hung on it. -/
theorem Hung.covers {n m : Node} {notes : List Note} (h : n.Hung notes m) :
    ∀ t ∈ notes, ∃ c ∈ m.comment, c.span.Covers t.span := by
  induction h with
  | bare => simp
  | @add m notes more _ ih =>
      intro t ht
      rcases List.mem_append.1 ht with ht | ht
      · obtain ⟨c, hc, hcovers⟩ := ih t ht
        obtain ⟨d, hd, hnote⟩ := comment_addNotes_covers m more c.note (by simp [Option.mem_def.1 hc])
        exact ⟨d, hd, hnote.trans hcovers⟩
      · exact comment_addNotes_covers m more t (List.mem_append_left _ ht)

end Node

namespace Element

theorem Block.covers {es : List Element} {m : Node} (h : Block es m) : ∀ e ∈ es, m.range.Covers e.span := by
  obtain ⟨n, before, after, rfl, hhung⟩ := h
  have hnotes : ∀ t ∈ before ++ after, m.range.Covers t.span := by
    intro t ht
    obtain ⟨c, hc, hcovers⟩ := hhung.covers t ht
    exact (Node.range_covers_comment hc).trans hcovers
  intro e he
  simp only [List.mem_append, List.mem_map, List.mem_cons] at he
  rcases he with ⟨t, ht, rfl⟩ | rfl | ⟨t, ht, rfl⟩
  · exact hnotes t (List.mem_append_left _ ht)
  · rw [span, ← hhung.sameShape.1]
    exact m.range_covers_span
  · exact hnotes t (List.mem_append_right _ ht)

/-- The range of an expression starts with its block. -/
theorem Block.range_start {p q : Pos} {e : Element} {es : List Element} {m : Node} (h : Block (e :: es) m)
    (hrow : Rowed p (e :: es) q) : m.range.start = e.span.start := by
  obtain ⟨f, hf, hstart⟩ := (h.range_mem hrow.fresh).1
  refine le_antisymm (h.covers e List.mem_cons_self).1 ?_
  rw [← hstart]
  rcases List.mem_cons.1 hf with rfl | hf
  · exact le_refl _
  · exact (hrow.proper e List.mem_cons_self).le.trans ((List.pairwise_cons.1 hrow.ordered).1 f hf)

/-- The range of an expression ends with its block. -/
theorem Block.range_stop {p q : Pos} {e : Element} {es : List Element} {m : Node} (h : Block (es ++ [e]) m)
    (hrow : Rowed p (es ++ [e]) q) : m.range.stop = e.span.stop := by
  have he : e ∈ es ++ [e] := by simp
  obtain ⟨f, hf, hstop⟩ := (h.range_mem hrow.fresh).2
  refine le_antisymm ?_ (h.covers e he).2
  rw [← hstop]
  rcases List.mem_append.1 hf with hf | hf
  · have hsep := (List.pairwise_append.1 hrow.ordered).2.2 f hf e (List.mem_singleton_self e)
    exact hsep.trans (hrow.proper e he).le
  · rw [List.mem_singleton.1 hf]

/-! ## The comments of a row hang within it -/

/-- All the notes among the elements hang on these expressions, whatever comes after. -/
def Hangs (es : List Element) (ns : List Node) : Prop := es.foldl Walk.step ⟨[], []⟩ = ⟨ns.reverse, []⟩

/-- No note among the elements would hang on an expression that ends on this line and stands before
them. -/
def Afresh (line : Nat) (es : List Element) : Prop := ∀ t, es.head? = some (note t) → line < t.span.start.line

theorem Afresh.mono {a b : Nat} {es : List Element} (h : Afresh b es) (hab : a ≤ b) : Afresh a es :=
  fun t ht => Nat.lt_of_le_of_lt hab (h t ht)

theorem Hangs.nil : Hangs [] [] := rfl

theorem Hangs.attach_eq {es : List Element} {ns : List Node} (h : Hangs es ns) : attach es = ns := by
  rw [attach, h, Walk.finish]
  cases hns : ns.reverse with
  | nil => simpa using hns.symm
  | cons n before =>
      have hrev := congrArg List.reverse hns
      rw [List.reverse_reverse] at hrev
      simp [addNotes_nil, hrev]

/-- Expressions further back do not matter to a walk that has met one, or has a note waiting, or meets
one first. -/
theorem foldl_step_append (done : List Node) (es : List Element) (w : Walk)
    (h : w.done ≠ [] ∨ w.waiting ≠ [] ∨ ∀ prev ∈ done.head?, Afresh prev.span.stop.line es) :
    es.foldl Walk.step ⟨w.done ++ done, w.waiting⟩ =
      ⟨(es.foldl Walk.step w).done ++ done, (es.foldl Walk.step w).waiting⟩ := by
  induction es generalizing w with
  | nil => rfl
  | cons e es ih =>
      -- Only a first note with nothing seen and nothing waiting looks at the expressions further back, and it
      -- is afresh.
      have hstep : Walk.step ⟨w.done ++ done, w.waiting⟩ e =
          ⟨(w.step e).done ++ done, (w.step e).waiting⟩ := by
        obtain ⟨seen, waiting⟩ := w
        cases e with
        | expr n => rfl
        | note t =>
            rcases waiting with _ | ⟨u, waiting⟩
            · rcases seen with _ | ⟨prev, seen⟩
              · rcases done with _ | ⟨prev, done⟩
                · rfl
                · have hfresh : Afresh prev.span.stop.line (note t :: es) := by simpa using h
                  have hline := (hfresh t rfl).ne
                  simp [Walk.step, hline]
              · simp only [Walk.step, List.cons_append]
                split <;> rfl
            · rfl
      -- After any step one of the first two conditions holds.
      have hmet : (w.step e).done ≠ [] ∨ (w.step e).waiting ≠ [] := by
        obtain ⟨seen, waiting⟩ := w
        cases e with
        | expr n => exact .inl (List.cons_ne_nil _ _)
        | note t =>
            rcases step_note ⟨seen, waiting⟩ t with ⟨prev, before, -, -, hnote⟩ | hnote
            · rw [hnote]
              exact .inl (List.cons_ne_nil _ _)
            · rw [hnote]
              exact .inr (by simp)
      rw [List.foldl_cons, hstep, ih _ (hmet.imp_right .inl), List.foldl_cons]

theorem Hangs.foldl_append {es fs : List Element} {ns : List Node} (h : Hangs es ns)
    (hfresh : ∀ prev ∈ ns.getLast?, Afresh prev.span.stop.line fs) :
    (es ++ fs).foldl Walk.step ⟨[], []⟩ = ⟨(fs.foldl Walk.step ⟨[], []⟩).done ++ ns.reverse,
      (fs.foldl Walk.step ⟨[], []⟩).waiting⟩ := by
  rw [List.foldl_append, h]
  refine foldl_step_append ns.reverse fs ⟨[], []⟩ (.inr (.inr ?_))
  rwa [List.head?_reverse]

theorem Hangs.append {es fs : List Element} {ns ms : List Node} (h : Hangs es ns) (h' : Hangs fs ms)
    (hfresh : ∀ prev ∈ ns.getLast?, Afresh prev.span.stop.line fs) : Hangs (es ++ fs) (ns ++ ms) := by
  rw [Hangs, h.foldl_append hfresh, h', List.reverse_append]

theorem length_attach (es : List Element) : (attach es).length = (nodes es).length :=
  (attach_sameShape es).length_eq.symm

/-- What follows a row is read as it is read alone. -/
theorem Hangs.attach_append {es fs : List Element} {ns : List Node} (h : Hangs es ns)
    (hfresh : ∀ prev ∈ ns.getLast?, Afresh prev.span.stop.line fs) (hfs : fs = [] ∨ nodes fs ≠ []) :
    attach (es ++ fs) = ns ++ attach fs := by
  rcases hfs with rfl | hfs
  · rw [List.append_nil, h.attach_eq]
    exact (List.append_nil ns).symm
  · have hlength := length_attach fs
    rw [attach] at hlength
    rw [attach, h.foldl_append hfresh, attach]
    generalize fs.foldl Walk.step ⟨[], []⟩ = w at hlength ⊢
    obtain ⟨done, waiting⟩ := w
    rcases done with _ | ⟨prev, before⟩
    · exact absurd (List.length_eq_zero_iff.1 hlength.symm) hfs
    · simp [Walk.finish]

/-! ## The first block of a row -/

theorem exists_first_expr {es : List Element} (h : nodes es ≠ []) :
    ∃ (before : List Note) (n : Node) (rest : List Element), es = before.map note ++ expr n :: rest := by
  induction es with
  | nil => exact absurd rfl h
  | cons e es ih =>
      cases e with
      | expr n => exact ⟨[], n, es, rfl⟩
      | note t =>
          obtain ⟨before, n, rest, rfl⟩ := ih h
          exact ⟨t :: before, n, rest, rfl⟩

theorem hangs_block {before : List Note} (n : Node) :
    Hangs (before.map note ++ [expr n]) [n.addNotes before] :=
  foldl_step_item (by simp)

theorem hangs_block_note {before : List Note} {n : Node} {t : Note} (h : n.span.stop.line = t.span.start.line) :
    Hangs (before.map note ++ [expr n, note t]) [(n.addNotes before).addNotes [t]] := by
  have hsplit : before.map note ++ [expr n, note t] = (before.map note ++ [expr n]) ++ [note t] := by simp
  rw [Hangs, hsplit, List.foldl_append, hangs_block n]
  simp [Walk.step, h]

theorem block_notes (before : List Note) (n : Node) : Block (before.map note ++ [expr n]) (n.addNotes before) :=
  ⟨n, before, [], rfl, by simpa using Node.Hung.bare.add before⟩

/-- A single expression takes all the notes. -/
theorem block_of_one {es : List Element} {n m : Node} {ms : List Node} (hn : nodes es = [n])
    (h : attach es = m :: ms) : Block es m ∧ ms = [] := by
  have hlength := length_attach es
  rw [hn, h] at hlength
  obtain rfl : ms = [] := List.length_eq_zero_iff.1 (by simpa using hlength)
  refine ⟨?_, rfl⟩
  obtain ⟨blocks, hes, hblocks⟩ := walk_blocks es
  rw [attach] at h
  generalize es.foldl Walk.step ⟨[], []⟩ = w at hes hblocks h
  obtain ⟨done, waiting⟩ := w
  cases hblocks with
  | nil => cases h
  | @cons block d blocks done hblock hblocks =>
      have hdone : done = [] := by
        have hlength := congrArg List.length h
        simpa [Walk.finish] using hlength
      subst hdone
      cases hblocks
      have hm : d.addNotes waiting = m := by simpa [Walk.finish] using h
      rw [hes, ← hm]
      simpa using hblock.add waiting

/-- A row is the block of its first expression and the row of the others. -/
theorem exists_first_block {p q : Pos} {es : List Element} (hrow : Rowed p es q) (hlined : Lined es) {m : Node}
    {ms : List Node} (h : attach es = m :: ms) :
    ∃ block rest, es = block ++ rest ∧ Block block m ∧ attach rest = ms ∧
      Afresh m.range.stop.line rest ∧ (rest = [] ∨ nodes rest ≠ [] ∧ Hangs block [m]) := by
  -- It is enough to find a block that hangs on its own and is followed by another expression.
  have hlater : ∀ {block rest : List Element} {d : Node}, es = block ++ rest → Block block d →
      Hangs block [d] → nodes rest ≠ [] → Afresh d.range.stop.line rest →
      ∃ block rest, es = block ++ rest ∧ Block block m ∧ attach rest = ms ∧
        Afresh m.range.stop.line rest ∧ (rest = [] ∨ nodes rest ≠ [] ∧ Hangs block [m]) := by
    intro block rest d hes hblock hhangs hrest hfresh
    have hattach : attach es = d :: attach rest := by
      rw [hes]
      refine hhangs.attach_append ?_ (.inr hrest)
      rintro prev ⟨⟩
      exact hfresh.mono (Pos.line_le_of_le d.le_range_stop)
    rw [h] at hattach
    obtain ⟨rfl, rfl⟩ := List.cons.inj hattach
    exact ⟨block, rest, hes, hblock, rfl, hfresh, .inr ⟨hrest, hhangs⟩⟩
  have hnodes : nodes es ≠ [] := by
    rw [← List.length_pos_iff, ← length_attach, h]
    exact Nat.succ_pos _
  obtain ⟨before, n, tail, hes⟩ := exists_first_expr hnodes
  -- If there is one expression only, all notes go to it. If there are more, the note behind the first one on
  -- its line belongs to its block.
  by_cases htail : nodes tail = []
  · have hone : nodes es = [n] := by
      rw [hes, nodes_append, nodes_notes]
      exact congrArg (n :: ·) htail
    obtain ⟨hblock, rfl⟩ := block_of_one hone h
    exact ⟨es, [], (List.append_nil es).symm, hblock, rfl, by rintro _ ⟨⟩, .inl rfl⟩
  · by_cases hsame : ∃ t rest, tail = note t :: rest ∧ n.span.stop.line = t.span.start.line
    · obtain ⟨t, rest, rfl, hline⟩ := hsame
      have hes' : es = (before.map note ++ [expr n] ++ [note t]) ++ rest := by simp [hes]
      have hblock := (block_notes before n).add [t]
      refine hlater hes' hblock ?_ htail ?_
      · rw [List.append_assoc]
        exact hangs_block_note hline
      · rw [hes'] at hrow hlined
        rw [hblock.range_stop hrow.left]
        intro u hu
        refine (List.pairwise_append.1 hlined).2.2 (note t) (by simp) (note u) ?_ t rfl
        exact List.mem_of_mem_head? hu
    · have hes' : es = (before.map note ++ [expr n]) ++ tail := by simp [hes]
      have hblock := block_notes before n
      refine hlater hes' hblock (hangs_block n) htail ?_
      rw [hes'] at hrow
      rw [hblock.range_stop hrow.left]
      intro t ht
      obtain ⟨rest, rfl⟩ := List.head?_eq_some_iff.1 ht
      have hsep : n.span.stop ≤ t.span.start :=
        (List.pairwise_append.1 hrow.ordered).2.2 (expr n) (by simp) (note t) (by simp)
      have hline : n.span.stop.line ≠ t.span.start.line := fun hline => hsame ⟨t, rest, rfl, hline⟩
      exact Nat.lt_of_le_of_ne (Pos.line_le_of_le hsep) hline

/-- A row taken apart at one of its expressions. -/
theorem exists_block {p q : Pos} {es : List Element} (hrow : Rowed p es q) (hlined : Lined es) {k : Nat} {m : Node}
    (h : (attach es)[k]? = some m) :
    ∃ before block after, es = before ++ (block ++ after) ∧ Hangs before ((attach es).take k) ∧ Block block m ∧
      attach after = (attach es).drop (k + 1) ∧ Afresh m.range.stop.line after ∧ (after = [] ∨ nodes after ≠ []) := by
  induction k generalizing es with
  | zero =>
      rw [← List.head?_eq_getElem?] at h
      obtain ⟨ms, hms⟩ := List.head?_eq_some_iff.1 h
      obtain ⟨block, rest, rfl, hblock, hrest, hfresh, hcases⟩ := exists_first_block hrow hlined hms
      refine ⟨[], block, rest, rfl, .nil, hblock, ?_, hfresh, hcases.imp_right And.left⟩
      rw [hms]
      exact hrest
  | succ k ih =>
      cases hms : attach es with
      | nil =>
          rw [hms] at h
          cases h
      | cons first ms =>
          rw [hms, List.getElem?_cons_succ] at h
          obtain ⟨block, rest, rfl, -, rfl, hfresh, rfl | ⟨-, hhangs⟩⟩ := exists_first_block hrow hlined hms
          · cases h
          · obtain ⟨before, block', after, rfl, hbefore, hblock', hafter, hfresh', hcases⟩ :=
              ih hrow.right (List.pairwise_append.1 hlined).2.1 h
            refine ⟨block ++ before, block', after, by simp, ?_, hblock', hafter, hfresh', hcases⟩
            refine hhangs.append hbefore ?_
            rintro prev ⟨⟩ t ht
            refine hfresh.mono (Pos.line_le_of_le first.le_range_stop) t ?_
            rw [List.head?_append, ht]
            rfl

end Element

/-! ## The lexemes of a part of a row -/

namespace Reader

variable {p : Pos} {ls : List Lexeme}

/-- Elements divided, with the blanks between them on the left. -/
theorem Parses.divide {es a b : List Element} (h : Parses p ls es) (hes : es = a ++ b) :
    ∃ x y, ls = x ++ y ∧ Parses p x a ∧ Parses (p.advanceOver (text x)) y b ∧
      ∀ l ∈ y.head?, ∀ c, l ≠ .blank c := by
  -- A blank goes to the left in any case; at any other lexeme the division falls in front of it or behind it.
  induction h generalizing a with
  | nil p =>
      obtain ⟨rfl, rfl⟩ := List.append_eq_nil_iff.1 hes.symm
      exact ⟨[], [], rfl, .nil p, .nil p, by simp⟩
  | blank c _ ih =>
      obtain ⟨x, y, rfl, hx, hy, hhead⟩ := ih hes
      exact ⟨.blank c :: x, y, rfl, .blank c hx, hy, hhead⟩
  | @comment p body ls es hrest ih =>
      cases a with
      | nil =>
          cases hes
          exact ⟨[], _, rfl, .nil p, .comment body hrest, by simp⟩
      | cons e a =>
          obtain ⟨rfl, hes'⟩ := List.cons.inj hes
          obtain ⟨x, y, rfl, hx, hy, hhead⟩ := ih hes'
          refine ⟨.comment body :: x, y, rfl, .comment body hx, ?_, hhead⟩
          rwa [text_cons, Pos.advanceOver_append]
  | @word p l t ls es hkind htoken hrest ih =>
      cases a with
      | nil =>
          cases hes
          refine ⟨[], _, rfl, .nil p, .word hkind htoken hrest, ?_⟩
          obtain ⟨cs, rfl⟩ | ⟨body, rfl⟩ := eq_word hkind htoken <;> simp
      | cons e a =>
          obtain ⟨rfl, hes'⟩ := List.cons.inj hes
          obtain ⟨x, y, rfl, hx, hy, hhead⟩ := ih hes'
          refine ⟨l :: x, y, rfl, .word hkind htoken hx, ?_, hhead⟩
          rwa [text_cons, Pos.advanceOver_append]
  | @list p q c inner ls es fs hstop hinner hrest _ ih =>
      cases a with
      | nil =>
          cases hes
          exact ⟨[], _, rfl, .nil p, .list c hstop hinner hrest, by simp⟩
      | cons e a =>
          obtain ⟨rfl, hes'⟩ := List.cons.inj hes
          obtain ⟨x, y, rfl, hx, hy, hhead⟩ := ih hes'
          refine ⟨.opening c :: (inner ++ .closing c :: x), y, by simp, .list c hstop hinner hx, ?_, hhead⟩
          rwa [list_eq_append, text_append, Pos.advanceOver_append, ← hstop]

theorem Parses.start_eq {e : Element} {es : List Element} (h : Parses p ls (e :: es))
    (hhead : ∀ l ∈ ls.head?, ∀ c, l ≠ .blank c) : e.span.start = p := by
  cases h with
  | blank c _ => exact absurd rfl (hhead _ rfl c)
  | comment body _ => rfl
  | word hkind htoken _ =>
      obtain ⟨hspan, -⟩ := spans_leaf hkind htoken
      rw [Element.span, hspan]
  | list _ _ _ _ => rfl

theorem Parses.blanks_append {cs : List Char} {es : List Element} (h : Parses (p.advanceOver cs) ls es) :
    Parses p (blanks cs ++ ls) es := by
  induction cs generalizing p with
  | nil => exact h
  | cons c cs ih => exact .blank c (ih h)

/-- What stands behind an element. A comment leaves the blanks at its end. -/
theorem Parses.behind {e : Element} {es a b : List Element} (h : Parses p ls es) (hrun : Run ls)
    (hes : es = a ++ e :: b) :
    ∃ covered rest, text ls = covered ++ text rest ∧ e.span.stop = p.advanceOver covered ∧ Run rest ∧
      Parses e.span.stop rest b := by
  induction h generalizing a with
  | nil p => simp at hes
  | @blank p c ls es _ ih =>
      obtain ⟨covered, rest, htext, hstop, hrest⟩ := ih hrun.tail hes
      exact ⟨c :: covered, rest, congrArg (c :: ·) htext, hstop, hrest⟩
  | @comment p body ls es hbehind ih =>
      cases a with
      | nil =>
          cases hes
          obtain ⟨cs, hbody, hcs⟩ := comment_eq_append body
          refine ⟨dropBlanksEnd (';' :: body), blanks cs ++ ls, ?_, rfl, hrun.tail.blanks_append hcs, ?_⟩
          · rw [text_append, text_blanks, ← List.append_assoc, ← hbody]
            rfl
          · refine blanks_append ?_
            rw [hbody, Pos.advanceOver_append] at hbehind
            exact hbehind
      | cons f a =>
          obtain ⟨covered, rest, htext, hstop, hrest⟩ := ih hrun.tail (List.cons.inj hes).2
          refine ⟨(';' :: body) ++ covered, rest, ?_, ?_, hrest⟩
          · rw [List.append_assoc, ← htext]
            rfl
          · rw [Pos.advanceOver_append, hstop]
  | @word p l t ls es hkind htoken hbehind ih =>
      cases a with
      | nil =>
          cases hes
          obtain ⟨hspan, -⟩ := spans_leaf hkind htoken
          rw [text_cons, text_nil, List.append_nil] at hspan
          have hstop : (Element.expr (leaf t)).span.stop = p.advanceOver l.chars := by
            rw [Element.span, hspan]
          exact ⟨l.chars, ls, rfl, hstop, hrun.tail, hstop ▸ hbehind⟩
      | cons f a =>
          obtain ⟨covered, rest, htext, hstop, hrest⟩ := ih hrun.tail (List.cons.inj hes).2
          refine ⟨l.chars ++ covered, rest, ?_, ?_, hrest⟩
          · rw [List.append_assoc, ← htext, text_cons]
          · rw [Pos.advanceOver_append, hstop]
  | @list p q c inner ls es fs hq _ hbehind _ ih =>
      rw [list_eq_append] at hrun ⊢
      cases a with
      | nil =>
          cases hes
          refine ⟨text (.opening c :: (inner ++ [.closing c])), ls, text_append _ _, ?_, hrun.right, hbehind⟩
          exact hq
      | cons f a =>
          obtain ⟨covered, rest, htext, hstop, hrest⟩ := ih hrun.right (List.cons.inj hes).2
          refine ⟨text (.opening c :: (inner ++ [.closing c])) ++ covered, rest, ?_, ?_, hrest⟩
          · rw [List.append_assoc, ← htext, text_append]
          · rw [Pos.advanceOver_append, hstop, hq]

end Reader

/-! ## A document taken apart -/

/-- A text taken apart at the range of one of its roots: what stands before the range can be read, and so
can what stands behind it. -/
structure Parted (ls : List Lexeme) (roots : List Node) (k : Nat) (m : Node) (x : List Lexeme)
    (covered : List Char) (rest : List Lexeme) (before after : List Element) : Prop where
  text_eq : text ls = text x ++ (covered ++ text rest)
  start : m.range.start = Pos.zero.advanceOver (text x)
  stop : m.range.stop = m.range.start.advanceOver covered
  run_left : Run x
  closed : Closed x
  run_right : Run rest
  left : Parses .zero x before
  hangs : Element.Hangs before (roots.take k)
  right : Parses m.range.stop rest after
  attach_eq : Element.attach after = roots.drop (k + 1)
  afresh : Element.Afresh m.range.stop.line after
  whole : after = [] ∨ Element.nodes after ≠ []

theorem exists_parted {ls : List Lexeme} {es : List Element} (h : Parses .zero ls es) (hrun : Run ls) {k : Nat}
    {m : Node} (hm : (Element.attach es)[k]? = some m) :
    ∃ x covered rest before after, Parted ls (Element.attach es) k m x covered rest before after := by
  have hrow := h.rowed hrun.ok
  obtain ⟨before, block, after, rfl, hhangs, hblock, hattach, hafresh, hwhole⟩ :=
    Element.exists_block hrow (h.lined hrun) hm
  obtain ⟨x, y, rfl, hx, hy, hhead⟩ := h.divide rfl
  have hne : block ≠ [] := by
    obtain ⟨n, _, _, rfl, -⟩ := hblock
    simp
  have hstart : m.range.start = Pos.zero.advanceOver (text x) := by
    obtain ⟨first, others, rfl⟩ := List.exists_cons_of_ne_nil hne
    rw [hblock.range_start hrow.right.left]
    exact hy.start_eq hhead
  obtain ⟨others, last, rfl⟩ := (List.eq_nil_or_concat' block).resolve_left hne
  have hstop := hblock.range_stop hrow.right.left
  obtain ⟨covered, rest, htext, hcovered, hrest, hright⟩ := hy.behind hrun.right (List.append_assoc _ _ _)
  rw [← hstop] at hcovered hright
  refine ⟨x, covered, rest, before, after, ?_, hstart, by rw [hcovered, hstart], hrun.left, ?_, hrest, hx, hhangs,
    hright, hattach, hafresh, hwhole⟩
  · rw [text_append, htext]
  · -- Behind a comment the line ends, but here the block follows.
    rintro l hl body rfl
    cases y with
    | nil =>
        generalize hes : others ++ [last] ++ after = es at hy
        cases hy
        simp at hes
    | cons first y =>
        have hmeets : first = .blank '\n' := (List.isChain_append.1 hrun.meets).2.2 _ hl first rfl
        exact hhead first rfl _ hmeets

end TreeEdit
