import TreeEdit.Proofs.CommentLines
import TreeEdit.Proofs.Copies
import TreeEdit.Proofs.RootEdits

/-!
# Comments printed above their nodes

A list that is printed over its old place is a list in brackets again, and the lines of its comment stand
above it, each on a line of its own: `Node.Writable.headed`. Read from any place on, these lines are notes
in front of one expression: `Lexeme.Heads.parses`.
-/

namespace TreeEdit

open Reader Lexeme

namespace Lexeme

/-- Shifting the lines leaves blanks blank. -/
theorem hang_blanks (column : Nat) {cs : List Char} (hcs : ∀ c ∈ cs, isBlank c = true) (ls : List Lexeme) :
    ∃ ds, (∀ d ∈ ds, isBlank d = true) ∧ hang column (blanks cs ++ ls) = blanks ds ++ hang column ls := by
  induction cs with
  | nil => exact ⟨[], by simp, rfl⟩
  | cons c cs ih =>
      obtain ⟨hc, hcs⟩ := List.forall_mem_cons.1 hcs
      obtain ⟨ds, hds, hrest⟩ := ih hcs
      obtain ⟨gs, hgap, hgs⟩ := gap_eq_blanks column (blank c) (blanks cs ++ ls)
      have hcons : blanks (c :: cs) ++ ls = blank c :: (blanks cs ++ ls) := rfl
      refine ⟨c :: (gs ++ ds), ?_, ?_⟩
      · intro d hd
        rcases List.mem_cons.1 hd with rfl | hd
        · exact hc
        · exact (List.mem_append.1 hd).elim (hgs d) (hds d)
      · rw [hcons, hang, hgap, hrest]
        simp [blanks]

/-- Comments with these texts, each on a line of its own, and some lexemes below them. -/
inductive Heads : List String → List Lexeme → List Lexeme → Prop
  | nil (below : List Lexeme) : Heads [] below below
  | cons {body cs : List Char} {lines : List String} {below whole : List Lexeme} (ok : (comment body).Ok)
      (trimmed : dropBlanksEnd (';' :: body) = ';' :: body) (margin : ∀ c ∈ cs, isBlank c = true) :
      Heads lines below whole →
        Heads (String.ofList (';' :: body) :: lines) below (comment body :: blank '\n' :: (blanks cs ++ whole))

namespace Heads

variable {lines : List String} {below whole : List Lexeme}

theorem run (h : Heads lines below whole) (hbelow : Run below) : Run whole := by
  induction h with
  | nil _ => exact hbelow
  | cons hok _ hmargin _ ih =>
      have hnewline : (blank '\n').Ok := rfl
      refine (((ih hbelow).blanks_append hmargin).cons hnewline trivial).cons hok ?_
      rintro c ⟨⟩
      rfl

/-- Shifting the lines shifts what stands below the comments, and the comments stay above it. -/
theorem hang (h : Heads lines below whole) (column : Nat) :
    Heads lines (Lexeme.hang column below) (Lexeme.hang column whole) := by
  induction h with
  | nil _ => exact .nil _
  | @cons body cs lines below whole hok htrim hmargin _ ih =>
      obtain ⟨ds, hds, hrest⟩ := hang_blanks column hmargin whole
      obtain ⟨gs, hgap, hgs⟩ := gap_eq_blanks column (blank '\n') (blanks cs ++ whole)
      have hwhole : Lexeme.hang column (comment body :: blank '\n' :: (blanks cs ++ whole)) =
          comment body :: blank '\n' :: (blanks (gs ++ ds) ++ Lexeme.hang column whole) := by
        show comment body :: (gap column (comment body) _ ++ (blank '\n' :: (gap column (blank '\n') _ ++ _))) = _
        rw [gap_of_ne (by simp), hgap, hrest]
        simp [blanks]
      rw [hwhole]
      refine .cons hok htrim ?_ ih
      intro d hd
      exact (List.mem_append.1 hd).elim (hgs d) (hds d)

/-- The comments are notes in front of whatever stands below them. The first is where the reading starts,
and what stands below them is on a later line. -/
theorem parses (h : Heads lines below whole) (p : Pos) :
    ∃ (q : Pos) (notes : List Note), notes.map Note.text = lines ∧ (∀ t ∈ notes.head?, t.span.start = p) ∧
      (lines = [] → q = p) ∧ q.advanceOver (text below) = p.advanceOver (text whole) ∧
      ∀ es, Parses q below es → Parses p whole (notes.map .note ++ es) := by
  induction h generalizing p with
  | nil _ => exact ⟨p, [], rfl, by simp, fun _ => rfl, rfl, fun _ hes => hes⟩
  | @cons body cs lines below whole hok htrim hmargin _ ih =>
      obtain ⟨q, notes, htexts, -, -, hstop, hparses⟩ :=
        ih (((p.advanceOver (';' :: body)).advance '\n').advanceOver cs)
      refine ⟨q, noteAt p body :: notes, ?_, ?_, by simp, ?_, ?_⟩
      · rw [List.map_cons, htexts, noteAt, htrim]
      · rintro t ⟨⟩
        rfl
      · rw [hstop, text_cons, text_cons, text_append, text_blanks, Pos.advanceOver_append, Pos.advanceOver_append,
          Pos.advanceOver_append]
        rfl
      · intro es hes
        refine .comment body (.blank '\n' ?_)
        exact (hparses es hes).blanks_append

end Heads

/-- Shifting the lines of a list leaves it a list. -/
theorem hang_list (column : Nat) (b : Bracket) (core : List Lexeme) :
    ∃ core', hang column (opening b :: (core ++ [closing b])) = opening b :: (core' ++ [closing b]) ∧
      ∀ opened, openAfter core' opened = openAfter core opened := by
  have hcore : ∀ core : List Lexeme, ∃ core', hang column (core ++ [closing b]) = core' ++ [closing b] ∧
      ∀ opened, openAfter core' opened = openAfter core opened := by
    intro core
    induction core with
    | nil => exact ⟨[], by simp [hang, gap_of_ne], fun _ => rfl⟩
    | cons l core ih =>
        obtain ⟨core', hhang, hopen⟩ := ih
        obtain ⟨gs, hgap, -⟩ := gap_eq_blanks column l (core ++ [closing b])
        refine ⟨l :: (blanks gs ++ core'), ?_, fun opened => ?_⟩
        · rw [List.cons_append, hang, hgap, hhang]
          simp
        · rw [← List.singleton_append, openAfter_append, ← List.singleton_append (l := core), openAfter_append]
          refine congrArg _ (funext fun opened => ?_)
          have hblanks : Balanced (blanks gs) := balanced_of_signs_eq_nil (signs_blanks gs)
          rw [openAfter_append, hblanks, Option.bind_some, hopen]
  obtain ⟨core', hhang, hopen⟩ := hcore core
  refine ⟨core', ?_, hopen⟩
  rw [hang, gap_of_ne (by simp), hhang]
  rfl

end Lexeme

namespace Doc

/-- The lines of a comment are set above the document. -/
theorem comment_heads {d : Doc} {lines : List String} (hne : lines ≠ []) (hlines : ∀ l ∈ lines, CommentLine l)
    {flat : Bool} {cs : List Char} (hcs : Sets flat (concat [join (lines.map text) hardLine, hardLine, d]) cs) :
    ∃ ds, Sets flat d ds ∧ ∀ below, Lexeme.text below = ds →
      ∃ whole, Lexeme.text whole = cs ∧ Heads lines below whole := by
  obtain ⟨rfl, hbelow⟩ := setsBelow_of_sets hne hcs
  clear hne hcs
  induction hbelow with
  | @document cs hcs => exact ⟨cs, hcs, fun below htext => ⟨below, htext, .nil below⟩⟩
  | @line line lines cs indent _ ih =>
      obtain ⟨⟨body, hbody, hok, htrim⟩, hlines⟩ := List.forall_mem_cons.1 hlines
      obtain ⟨ds, hds, hbelow⟩ := ih hlines
      obtain ⟨margin, hfresh, hmargin⟩ : ∃ margin, freshLine indent = '\n' :: margin ∧ ∀ c ∈ margin, isBlank c = true :=
        ⟨_, rfl, fun c hc => isBlank_freshLine indent c (List.mem_cons_of_mem _ hc)⟩
      refine ⟨ds, hds, fun below htext => ?_⟩
      obtain ⟨whole, rfl, hheads⟩ := hbelow below htext
      refine ⟨.comment body :: .blank '\n' :: (blanks margin ++ whole), by simp [hbody, hfresh, Lexeme.chars], ?_⟩
      rw [← String.ofList_toList (s := line), hbody]
      exact .cons hok htrim hmargin hheads

end Doc

/-- However a list that can be printed is set, it stands in brackets below the lines of its comment. -/
theorem Node.Writable.set_headed {n : Node} (h : n.Writable) (hlist : n.kind.isList) {flat : Bool} {cs : List Char}
    (hcs : Doc.Sets flat n.doc cs) :
    ∃ b core whole, text whole = cs ∧ Heads n.commentLines (.opening b :: (core ++ [.closing b])) whole ∧
      Run (.opening b :: (core ++ [.closing b])) ∧ Balanced core := by
  cases h with
  | intro hkind hcomment hparts =>
      obtain ⟨ss, -, hencloses⟩ := Doc.kind_encloses hlist fun m hm => (hparts m hm).spells
      rw [doc_eq] at hcs
      obtain ⟨ds, hds, hbelow⟩ : ∃ ds, Doc.Sets flat (Layout.kind (n.kind.map Node.printed)) ds ∧
          ∀ below, text below = ds → ∃ whole, text whole = cs ∧ Heads n.commentLines below whole := by
        rw [commentLines]
        cases hc : n.comment with
        | none =>
            rw [hc] at hcs
            exact ⟨cs, hcs, fun below hbelow => ⟨below, hbelow, .nil below⟩⟩
        | some c =>
            rw [hc] at hcs
            exact Doc.comment_heads (linesOf_ne_nil c.text) (hcomment c hc) hcs
      obtain ⟨b, core, rfl, hcore⟩ := hencloses flat ds hds
      obtain ⟨whole, hwhole, hheads⟩ := hbelow (.opening b :: (core ++ [.closing b])) (by simp [chars])
      exact ⟨b, core, whole, hwhole, hheads, (hcore.list b).run, hcore.balanced⟩

/-- A list that is printed over its old place stands in brackets below the lines of its comment. -/
theorem Node.Writable.headed {n : Node} (h : n.Writable) (hlist : n.kind.isList) (width column : Nat) :
    ∃ b core whole, text whole = (hangingIndent (n.pretty width) column).toList ∧ Run whole ∧
      Heads n.commentLines (.opening b :: (core ++ [.closing b])) whole ∧ Balanced core := by
  obtain ⟨b, core, whole, htext, hheads, hrun, hcore⟩ := h.set_headed hlist (n.pretty_sets width)
  have hwhole : Run whole := hheads.run hrun
  by_cases hcolumn : column = 0
  · exact ⟨b, core, whole, by rw [htext, hangingIndent, if_pos hcolumn], hwhole, hheads, hcore⟩
  · obtain ⟨core', hlist', hopen⟩ := hang_list column b core
    have hheads' := hheads.hang column
    rw [hlist'] at hheads'
    refine ⟨b, core', hang column whole, ?_, run_hang hwhole column, hheads', fun opened => ?_⟩
    · rw [text_hang hwhole, htext, toList_hangingIndent _ hcolumn]
    · rw [hopen, hcore]

end TreeEdit
