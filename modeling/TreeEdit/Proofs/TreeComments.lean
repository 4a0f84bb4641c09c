import Mathlib
import TreeEdit.Proofs.CommentLines
import TreeEdit.Proofs.OwnCode

/-!
# Comments in company

A comment stands in a list, or at the top level, together with the expressions of that list. The tokens of
a text are sorted by the list they stand in (`Reader.levels`), without any regard to what the reader makes
of them. This says which comments the tree has: those in company of an expression, except where the only
expression is the atom `begin` or the atom `cond`. Such a list is a form without parts, and its comments have
nowhere to go.

Main statement: `comments_dealt_to_nodes`. The comments in the tree are these, each at one node and once.
-/

namespace TreeEdit

open Reader Lexeme

namespace Reader

/-! ## Tokens by the list they stand in -/

/-- What stands directly in a list: its comments, and for each expression its text if it is an atom. -/
structure Level where
  comments : List Token := []
  exprs : List (Option String) := []

/-- What stands in one part of a list and then in the next. -/
def Level.append (a b : Level) : Level := ⟨a.comments ++ b.comments, a.exprs ++ b.exprs⟩

/-- The lists that close in some tokens, and what stands outside them, from the levels of the lists that are
open and of the innermost one. -/
def levelsFrom : List Token → List Level → Level → List Level × Level
  | [], _, here => ([], here)
  | t :: ts, outer, here =>
    match t.kind with
    | .opening _ => levelsFrom ts (here :: outer) {}
    | .closing _ =>
      match outer with
      | [] => ([], here)
      | above :: outer =>
        let (lists, top) := levelsFrom ts outer (above.append { exprs := [none] })
        (here :: lists, top)
    | .comment => levelsFrom ts outer (here.append { comments := [t] })
    | .atom => levelsFrom ts outer (here.append { exprs := [some t.text] })
    | .string => levelsFrom ts outer (here.append { exprs := [none] })

/-- The lists of a text and its top level. -/
def levels (tokens : List Token) : List Level × Level := levelsFrom tokens [] {}

/-- The list consists of a keyword that is a form on its own. -/
def Level.Alone (l : Level) : Prop := l.exprs = [some "begin"] ∨ l.exprs = [some "cond"]

instance (l : Level) : Decidable l.Alone := inferInstanceAs (Decidable (_ ∨ _))

/-- The comments of the lists that have an expression, and of the top level if it has one. -/
def accompanied (tokens : List Token) : List Token :=
  ((levels tokens).1.filter (·.exprs ≠ [])).flatMap Level.comments ++
    if (levels tokens).2.exprs = [] then [] else (levels tokens).2.comments

/-- The comments of the lists that consist of `begin` or `cond` alone. -/
def forlorn (tokens : List Token) : List Token :=
  ((levels tokens).1.filter (·.Alone)).flatMap Level.comments

namespace Level

@[simp] theorem append_empty (a : Level) : a.append {} = a := by simp [append]

@[simp] theorem empty_append (a : Level) : append {} a = a := by simp [append]

theorem append_assoc (a b c : Level) : (a.append b).append c = a.append (b.append c) := by
  simp [append, List.append_assoc]

end Level

/-- Some tokens hold these closed lists, and outside them what stands here, whatever stands around; and all
comments among them are in one of these. -/
structure Divides (ts : List Token) (lists : List Level) (here : Level) : Prop where
  levels : ∀ rest outer before, levelsFrom (ts ++ rest) outer before =
    (lists ++ (levelsFrom rest outer (before.append here)).1, (levelsFrom rest outer (before.append here)).2)
  comments : (lists.flatMap Level.comments ++ here.comments).Perm (ts.filter (·.kind = .comment))

namespace Divides

theorem nil : Divides [] [] {} := ⟨by simp, .refl _⟩

/-- A token that opens and closes nothing. -/
theorem cons {t : Token} {own : Level} {ts : List Token} {lists : List Level} {here : Level}
    (hown : ∀ rest outer before, levelsFrom (t :: rest) outer before = levelsFrom rest outer (before.append own))
    (hcomments : own.comments = [t].filter (·.kind = .comment))
    (h : Divides ts lists here) : Divides (t :: ts) lists (own.append here) := by
  refine ⟨?_, ?_⟩
  · intro rest outer before
    rw [List.cons_append, hown, h.levels, Level.append_assoc]
  · have hsplit : (t :: ts).filter (·.kind = .comment) = own.comments ++ ts.filter (·.kind = .comment) := by
      rw [hcomments, ← List.filter_append, List.singleton_append]
    rw [hsplit]
    exact (List.perm_append_comm_assoc _ _ _).trans (h.comments.append_left _)

theorem comment {t : Token} (ht : t.kind = .comment) {ts : List Token} {lists : List Level} {here : Level}
    (h : Divides ts lists here) : Divides (t :: ts) lists (Level.append { comments := [t] } here) :=
  h.cons (fun rest outer before => by simp only [levelsFrom, ht]) (by simp [ht])

theorem atom {t : Token} (ht : t.kind = .atom) {ts : List Token} {lists : List Level} {here : Level}
    (h : Divides ts lists here) : Divides (t :: ts) lists (Level.append { exprs := [some t.text] } here) :=
  h.cons (fun rest outer before => by simp only [levelsFrom, ht]) (by simp [ht])

theorem string {t : Token} (ht : t.kind = .string) {ts : List Token} {lists : List Level} {here : Level}
    (h : Divides ts lists here) : Divides (t :: ts) lists (Level.append { exprs := [none] } here) :=
  h.cons (fun rest outer before => by simp only [levelsFrom, ht]) (by simp [ht])

theorem list {o c : Token} {b : Bracket} (ho : o.kind = .opening b) (hc : c.kind = .closing b)
    {inner ts : List Token} {within lists : List Level} {inside here : Level} (hinner : Divides inner within inside)
    (h : Divides ts lists here) : Divides (o :: (inner ++ c :: ts)) (within ++ inside :: lists)
      (Level.append { exprs := [none] } here) := by
  refine ⟨?_, ?_⟩
  · intro rest outer before
    have hopen : levelsFrom (o :: (inner ++ c :: (ts ++ rest))) outer before =
        levelsFrom (inner ++ c :: (ts ++ rest)) (before :: outer) {} := by
      simp only [levelsFrom, ho]
    have hclose : levelsFrom (c :: (ts ++ rest)) (before :: outer) inside =
        (inside :: (levelsFrom (ts ++ rest) outer (before.append { exprs := [none] })).1,
          (levelsFrom (ts ++ rest) outer (before.append { exprs := [none] })).2) := by
      simp only [levelsFrom, hc]
    rw [List.cons_append, List.append_assoc, List.cons_append, hopen, hinner.levels, Level.empty_append, hclose,
      h.levels, Level.append_assoc, List.append_assoc, List.cons_append]
  · have hfilter : (o :: (inner ++ c :: ts)).filter (·.kind = .comment) =
        inner.filter (·.kind = .comment) ++ ts.filter (·.kind = .comment) := by
      simp [ho, hc]
    rw [hfilter, List.flatMap_append, List.flatMap_cons]
    have hboth := hinner.comments.append h.comments
    simpa [Level.append, List.append_assoc] using hboth

end Divides

/-! ## Levels and what is read -/

/-- The text of an atom tells whether it is one of the keywords that are a form on their own. -/
def Labels (label : Option String) (n : Node) : Prop :=
  ∀ keyword ∈ ["begin", "cond"], label = some keyword ↔ n.symbol? = some keyword

/-- The list has an expression and does not consist of a keyword alone. -/
def Level.Keeps (l : Level) : Prop := l.exprs ≠ [] ∧ ¬ l.Alone

instance (l : Level) : Decidable l.Keeps := inferInstanceAs (Decidable (_ ∧ _))

end Reader

/-- The notes among some elements. -/
def Element.notes (es : List Element) : List Note :=
  es.filterMap fun
    | .expr _ => none
    | .note t => some t

@[simp] theorem Element.notes_note (t : Note) (es : List Element) : notes (note t :: es) = t :: notes es := rfl

@[simp] theorem Element.notes_expr (n : Node) (es : List Element) : notes (expr n :: es) = notes es := rfl

theorem Element.sum_remarks (es : List Element) :
    (es.map remarks).sum = remarksOf (nodes es) + ((notes es).map Note.remarks).sum := by
  induction es with
  | nil => rfl
  | cons e es ih =>
      rw [List.map_cons, List.sum_cons, ih]
      cases e with
      | expr n =>
          show n.remarks + _ = remarksOf (n :: nodes es) + _
          rw [remarksOf_cons]
          abel
      | note t =>
          show t.remarks + _ = remarksOf (nodes es) + (t.remarks + _)
          abel

namespace Reader

/-- The levels of a stretch of text and the elements that are read from it agree: the notes are the comments
here, the expressions those here, and inside the expressions are the comments of the lists that keep theirs. -/
structure Tells (lists : List Level) (here : Level) (es : List Element) : Prop where
  notes : ((Element.notes es).map Note.remarks).sum = ↑(here.comments.map Token.text)
  exprs : List.Forall₂ Labels here.exprs (Element.nodes es)
  kept : ↑(((lists.filter (·.Keeps)).flatMap Level.comments).map Token.text) = remarksOf (Element.nodes es)

theorem symbol?_of_kind {n m : Node} (h : n.kind = m.kind) : n.symbol? = m.symbol? := by
  rw [Node.symbol?, Node.symbol?, h]

theorem symbol?_list (items : List Node) (span : Span) : (Node.make (recognise items) span).symbol? = none := by
  obtain ⟨inner, hshape, -⟩ := recognise_shapedBy items
  unfold Node.symbol?
  split
  · rename_i value hkind
    have hliteral : recognise items = .literal value .symbol := hkind
    rw [hliteral] at hshape
    simp [Kind.shape, Kind.pattern, inBrackets] at hshape
  · rfl

theorem labels_list (items : List Node) (span : Span) : Labels none (.make (recognise items) span) := by
  intro keyword _
  rw [symbol?_list]

theorem labels_atom {t : Token} (h : t.kind = .atom) : Labels (some t.text) (leaf t) := by
  intro keyword hkeyword
  have hleaf : (leaf t).kind = Kind.ofAtom t.text := by simp [leaf, h, Node.make]
  rw [Option.some.injEq, Node.symbol?, hleaf]
  constructor
  · rintro rfl
    rcases List.mem_pair.1 hkeyword with heq | heq <;> rw [heq] <;> rfl
  · intro hsymbol
    split at hsymbol
    · rename_i value hkind
      obtain rfl := Option.some.inj hsymbol
      have hshape := shape_ofAtom t.text
      rw [hkind] at hshape
      simpa [Kind.shape, Kind.pattern] using hshape.symm
    · cases hsymbol

theorem labels_string {t : Token} (h : t.kind = .string) : Labels none (leaf t) := by
  intro keyword _
  have hleaf : (leaf t).kind = .literal t.text .string := by simp [leaf, h, Node.make]
  rw [Node.symbol?, hleaf]

/-- A keyword that stands alone, as a level and as it was read. -/
theorem Tells.single_iff {lists : List Level} {here : Level} {es : List Element} (h : Tells lists here es)
    {keyword : String} (hkeyword : keyword ∈ ["begin", "cond"]) :
    here.exprs = [some keyword] ↔ ∃ n, Element.nodes es = [n] ∧ n.symbol? = some keyword := by
  have hexprs := h.exprs
  constructor
  · intro hone
    rw [hone] at hexprs
    obtain ⟨n, ns, hlabel, hnil, hnodes⟩ := List.forall₂_cons_left_iff.1 hexprs
    rw [List.forall₂_nil_left_iff.1 hnil] at hnodes
    exact ⟨n, hnodes, (hlabel keyword hkeyword).1 rfl⟩
  · rintro ⟨n, hnodes, hsymbol⟩
    rw [hnodes] at hexprs
    obtain ⟨label, labels, hlabel, hnil, hone⟩ := List.forall₂_cons_right_iff.1 hexprs
    rw [List.forall₂_nil_right_iff.1 hnil] at hone
    rw [hone, (hlabel keyword hkeyword).2 hsymbol]

theorem Tells.alone_iff {lists : List Level} {here : Level} {es : List Element} (h : Tells lists here es) :
    here.Alone ↔ ∃ n, Element.nodes es = [n] ∧ (n.symbol? = some "begin" ∨ n.symbol? = some "cond") := by
  rw [Level.Alone, h.single_iff (by simp), h.single_iff (by simp), ← exists_or]
  simp only [and_or_left]

/-- A list of one element as it was read, and with the comments hung on it. -/
theorem attach_eq_singleton_iff {es : List Element} {keyword : String} :
    (∃ n, Element.attach es = [n] ∧ n.symbol? = some keyword) ↔
      ∃ n, Element.nodes es = [n] ∧ n.symbol? = some keyword := by
  have hkinds := Element.map_kind_attach es
  constructor
  · rintro ⟨n, hn, hsymbol⟩
    rw [hn] at hkinds
    obtain ⟨m, hm, hkind⟩ := List.map_eq_singleton_iff.1 hkinds.symm
    exact ⟨m, hm, symbol?_of_kind hkind ▸ hsymbol⟩
  · rintro ⟨n, hn, hsymbol⟩
    rw [hn] at hkinds
    obtain ⟨m, hm, hkind⟩ := List.map_eq_singleton_iff.1 hkinds
    exact ⟨m, hm, symbol?_of_kind hkind ▸ hsymbol⟩

/-- A list holds the comments in the lists inside it, and its own if it keeps them. -/
theorem Tells.list {lists : List Level} {here : Level} {es : List Element} (h : Tells lists here es)
    (hes : ∀ n ∈ Element.nodes es, n.comment = none) (span : Span) :
    ↑((((lists ++ [here]).filter (·.Keeps)).flatMap Level.comments).map Token.text) =
      (Node.make (recognise (Element.attach es)) span).remarks := by
  have hlen := h.exprs.length_eq
  rw [Node.remarks_make, List.filter_append, List.flatMap_append, List.map_append, ← Multiset.coe_add, h.kept]
  by_cases hempty : here.exprs = []
  · -- Without an expression there is nothing to hold a comment.
    rw [hempty, List.length_nil, eq_comm, List.length_eq_zero_iff] at hlen
    have hnone : Element.attach es = [] := by simpa [hlen] using Element.map_kind_attach es
    rw [hlen, hnone]
    simp [Level.Keeps, hempty, recognise, applicationOf, Kind.children, Kind.slots, Slot.nodes]
  · by_cases halone : here.Alone
    · -- The keyword has no node, and as an atom it holds nothing.
      obtain ⟨n, hn, hsymbol⟩ := h.alone_iff.1 halone
      have hbare : n.commentLines = [] := by
        rw [Node.commentLines, hes n (by simp [hn])]
        rfl
      have hatom : n.remarks = 0 := by
        rw [Node.remarks_of_symbol (hsymbol.elim Option.isSome_of_eq_some Option.isSome_of_eq_some), hbare]
        rfl
      have hchildren : (recognise (Element.attach es)).children = [] := by
        rcases hsymbol with hsymbol | hsymbol
        · obtain ⟨m, hm, hsymbol⟩ := attach_eq_singleton_iff.2 ⟨n, hn, hsymbol⟩
          rw [hm, recognise_alone (.inl hsymbol)]
        · obtain ⟨m, hm, hsymbol⟩ := attach_eq_singleton_iff.2 ⟨n, hn, hsymbol⟩
          rw [hm, recognise_alone (.inr hsymbol)]
      rw [hn, hchildren]
      simp [Level.Keeps, halone, hatom]
    · have hkeeps : here.Keeps := ⟨hempty, halone⟩
      have hne : Element.nodes es ≠ [] := by
        intro hnil
        rw [hnil, List.length_nil, List.length_eq_zero_iff] at hlen
        exact hempty hlen
      rw [recognise_remarks, Element.attach_remarks hne, Element.sum_remarks, h.notes]
      · simp [hkeeps]
      · intro n hn
        refine ⟨fun hsymbol => ?_, fun hsymbol => ?_⟩
        · obtain ⟨m, hm, hsymbol⟩ := attach_eq_singleton_iff.1 ⟨n, hn, hsymbol⟩
          exact halone (h.alone_iff.2 ⟨m, hm, .inl hsymbol⟩)
        · obtain ⟨m, hm, hsymbol⟩ := attach_eq_singleton_iff.1 ⟨n, hn, hsymbol⟩
          exact halone (h.alone_iff.2 ⟨m, hm, .inr hsymbol⟩)

theorem Parses.comment_eq_none {p : Pos} {ls : List Lexeme} {es : List Element} (h : Parses p ls es) :
    ∀ n ∈ Element.nodes es, n.comment = none := by
  induction h with
  | nil p => simp [Element.nodes]
  | blank c _ ih => exact ih
  | comment body _ ih => exact ih
  | word _ _ _ ih => exact List.forall_mem_cons.2 ⟨rfl, ih⟩
  | list b _ _ _ _ ih => exact List.forall_mem_cons.2 ⟨rfl, ih⟩

/-- The note of a comment has the one line of its token. -/
theorem remarks_noteAt {p : Pos} {body : List Char} (h : (Lexeme.comment body).Ok) :
    (noteAt p body).remarks = {(noteAt p body).text} := by
  have hfront : dropBlanksEnd (';' :: body) <+: ';' :: body := List.rdropWhile_prefix isBlank _
  have hfree : '\n' ∉ dropBlanksEnd (';' :: body) := by
    intro hmem
    rcases List.mem_cons.1 (hfront.subset hmem) with hnl | hnl
    · cases hnl
    · exact h hnl
  have hsplit : splitLines (dropBlanksEnd (';' :: body)) = [dropBlanksEnd (';' :: body)] := by
    have hlines : ∀ l ∈ [dropBlanksEnd (';' :: body)], '\n' ∉ l := by simpa using hfree
    have hone := List.splitOn_intercalate '\n' hlines (by simp)
    rwa [List.intercalate_singleton, ← splitLines_eq] at hone
  rw [Note.remarks, noteAt, linesOf, String.toList_ofList, hsplit]
  rfl

/-- What is read from a stretch of text agrees with its levels. -/
theorem Parses.exists_levels {p : Pos} {ls : List Lexeme} {es : List Element} (h : Parses p ls es)
    (hok : ∀ l ∈ ls, l.Ok) : ∃ lists here, Divides (tokens p ls) lists here ∧ Tells lists here es := by
  induction h with
  | nil p => exact ⟨[], {}, .nil, rfl, .nil, rfl⟩
  | blank c _ ih => exact ih (List.forall_mem_cons.1 hok).2
  | @comment p body ls es _ ih =>
      obtain ⟨hbody, hls⟩ := List.forall_mem_cons.1 hok
      obtain ⟨lists, here, hdivides, htells⟩ := ih hls
      refine ⟨lists, _, .comment rfl hdivides, ?_, htells.exprs, htells.kept⟩
      rw [Element.notes_note, List.map_cons, List.sum_cons, htells.notes, remarks_noteAt hbody]
      rfl
  | @word p l t ls es hkind htoken _ ih =>
      obtain ⟨-, hls⟩ := List.forall_mem_cons.1 hok
      obtain ⟨lists, here, hdivides, htells⟩ := ih hls
      have hremarks : remarksOf (Element.nodes (.expr (leaf t) :: es)) = remarksOf (Element.nodes es) := by
        show remarksOf (leaf t :: Element.nodes es) = _
        rw [remarksOf_cons, Node.remarks_eq, leaf_children]
        exact zero_add _
      rw [tokens, htoken]
      rcases hkind with hkind | hkind
      · exact ⟨lists, _, .atom hkind hdivides, htells.notes, .cons (labels_atom hkind) htells.exprs,
          htells.kept.trans hremarks.symm⟩
      · exact ⟨lists, _, .string hkind hdivides, htells.notes, .cons (labels_string hkind) htells.exprs,
          htells.kept.trans hremarks.symm⟩
  | @list p q b inner ls es fs hstop hinner _ ihinner ih =>
      obtain ⟨within, inside, hwithin, htold⟩ := ihinner fun l hl => hok l (by simp [hl])
      obtain ⟨lists, here, hdivides, htells⟩ := ih fun l hl => hok l (by simp [hl])
      have htokens : tokens p (.opening b :: (inner ++ .closing b :: ls)) =
          Token.ofChars (.opening b) p [b.opener] :: (tokens (p.advance b.opener) inner ++
            Token.ofChars (.closing b) ((p.advance b.opener).advanceOver (text inner)) [b.closer] ::
              tokens q ls) := by
        rw [tokens, tokens_append, tokens, hstop]
        simp [token?, chars, Pos.advanceOver]
      rw [htokens]
      refine ⟨_, _, .list rfl rfl hwithin hdivides, htells.notes, .cons (labels_list _ _) htells.exprs, ?_⟩
      show _ = remarksOf (.make (recognise (Element.attach es)) ⟨p, q⟩ :: Element.nodes fs)
      rw [remarksOf_cons, ← htold.list hinner.comment_eq_none, ← htells.kept, List.append_cons,
        List.filter_append, List.flatMap_append, List.map_append, Multiset.coe_add]

/-- The levels of a text that was read, and what stands in them. -/
theorem levels_of_ok {source : String} {ts : List Token} {roots : List Node} (htokens : tokenize source = .ok ts)
    (hread : readDocument source = .ok roots) :
    ∃ es, Element.attach es = roots ∧ Divides ts (levels ts).1 (levels ts).2 ∧
      Tells (levels ts).1 (levels ts).2 es := by
  obtain ⟨ls, es, hrun, htext, hparses, hattach, -⟩ := readDocument_fills hread
  have hts : tokens .zero ls = ts := by
    have hscan := tokensFrom_run hrun .zero
    rw [htext] at hscan
    exact Except.ok.inj (hscan.symm.trans htokens)
  obtain ⟨lists, here, hdivides, htells⟩ := hparses.exists_levels hrun.ok
  have hlevels : levels ts = (lists, here) := by
    have hall := hdivides.levels [] [] {}
    rw [List.append_nil, hts] at hall
    rw [levels, hall]
    simp [levelsFrom]
  rw [hlevels]
  exact ⟨es, hattach, hts ▸ hdivides, htells⟩

/-- The comments in the tree of a text. -/
def keptComments (ts : List Token) : List Token :=
  ((levels ts).1.filter (·.Keeps)).flatMap Level.comments ++
    if (levels ts).2.exprs = [] then [] else (levels ts).2.comments

/-- Lists with an expression keep their comments or consist of a lone keyword. -/
theorem filter_company_perm (lists : List Level) :
    ((lists.filter (·.Keeps)).flatMap Level.comments ++ (lists.filter (·.Alone)).flatMap Level.comments).Perm
      ((lists.filter (·.exprs ≠ [])).flatMap Level.comments) := by
  induction lists with
  | nil => exact .refl _
  | cons l lists ih =>
      by_cases hempty : l.exprs = []
      · simpa [Level.Keeps, Level.Alone, hempty] using ih
      · by_cases halone : l.Alone
        · have hmoved := (List.perm_append_comm_assoc ((lists.filter (·.Keeps)).flatMap Level.comments) l.comments
            ((lists.filter (·.Alone)).flatMap Level.comments)).trans (ih.append_left l.comments)
          simpa [Level.Keeps, hempty, halone] using hmoved
        · simpa [Level.Keeps, hempty, halone] using ih.append_left l.comments

/-- What has company is kept, or has the company of a lone keyword. -/
theorem keptComments_perm (ts : List Token) : (keptComments ts ++ forlorn ts).Perm (accompanied ts) := by
  rw [keptComments, forlorn, accompanied, List.append_assoc]
  refine (List.perm_append_comm.append_left _).trans ?_
  rw [← List.append_assoc]
  exact (filter_company_perm _).append_right _

theorem company_sublist (q : Level → Bool) (ts : List Token) :
    (((levels ts).1.filter q).flatMap Level.comments ++
      if (levels ts).2.exprs = [] then [] else (levels ts).2.comments).Sublist
      ((levels ts).1.flatMap Level.comments ++ (levels ts).2.comments) := by
  apply List.Sublist.append
  · exact List.Sublist.flatMap List.filter_sublist _
  · split
    · exact List.nil_sublist _
    · exact .refl _

/-- The comment lines in the tree of a text are those of the comments kept. -/
theorem remarksOf_of_ok {source : String} {ts : List Token} {roots : List Node} (htokens : tokenize source = .ok ts)
    (hread : readDocument source = .ok roots) : remarksOf roots = ↑((keptComments ts).map Token.text) := by
  obtain ⟨es, rfl, -, htells⟩ := levels_of_ok htokens hread
  have hlen := htells.exprs.length_eq
  rw [keptComments, List.map_append, ← Multiset.coe_add, htells.kept]
  by_cases hempty : (levels ts).2.exprs = []
  · rw [hempty, List.length_nil, eq_comm, List.length_eq_zero_iff] at hlen
    have hnone : Element.attach es = [] := by simpa [hlen] using Element.map_kind_attach es
    simp [hempty, hlen, hnone]
  · have hne : Element.nodes es ≠ [] := by
      intro hnil
      rw [hnil, List.length_nil, List.length_eq_zero_iff] at hlen
      exact hempty hlen
    rw [Element.attach_remarks hne, Element.sum_remarks, htells.notes, if_neg hempty]

theorem keptComments_subperm {source : String} {ts : List Token} {roots : List Node}
    (htokens : tokenize source = .ok ts) (hread : readDocument source = .ok roots) :
    (keptComments ts).Subperm (ts.filter (·.kind = .comment)) := by
  obtain ⟨es, -, hdivides, -⟩ := levels_of_ok htokens hread
  exact (company_sublist _ ts).subperm.trans hdivides.comments.subperm

theorem accompanied_subperm {source : String} {ts : List Token} {roots : List Node}
    (htokens : tokenize source = .ok ts) (hread : readDocument source = .ok roots) :
    (accompanied ts).Subperm (ts.filter (·.kind = .comment)) := by
  obtain ⟨es, -, hdivides, -⟩ := levels_of_ok htokens hread
  exact (company_sublist _ ts).subperm.trans hdivides.comments.subperm

end Reader

/-- Items whose images are dealt out into lists can be dealt out themselves. -/
theorem exists_dealt {α β : Type} (f : β → α) {hands : List (List α)} {items : List β}
    (h : hands.flatten.Perm (items.map f)) :
    ∃ dealt : List (List β), List.Forall₂ (fun hand own => hand = own.map f) hands dealt ∧
      dealt.flatten.Perm items := by
  have hself : List.Forall₂ (fun a b => a = f b) (items.map f) items := by
    rw [List.forall₂_map_left_iff]
    exact List.forall₂_same.2 fun _ _ => rfl
  obtain ⟨order, horder, hperm⟩ := List.perm_comp_forall₂ h hself
  have hmap : hands.flatten = order.map f := by
    rwa [← List.forall₂_eq_eq_eq, List.forall₂_map_right_iff]
  -- Each hand takes the next items in this order.
  suffices hsplit : ∃ dealt : List (List β), List.Forall₂ (fun hand own => hand = own.map f) hands dealt ∧
      dealt.flatten = order by
    obtain ⟨dealt, hdealt, hflat⟩ := hsplit
    exact ⟨dealt, hdealt, hflat ▸ hperm⟩
  clear horder hperm h hself
  induction hands generalizing order with
  | nil => exact ⟨[], .nil, (List.map_eq_nil_iff.1 hmap.symm).symm⟩
  | cons hand hands ih =>
      rw [List.flatten_cons, eq_comm, List.map_eq_append_iff] at hmap
      obtain ⟨own, rest, rfl, hown, hrest⟩ := hmap
      obtain ⟨dealt, hdealt, rfl⟩ := ih rest hrest.symm
      exact ⟨own :: dealt, .cons hown.symm hdealt, rfl⟩

/-! ## Printing keeps what is kept -/

theorem Node.remarks_bare (n : Node) : n.bare.remarks = n.remarks := by
  induction n using Node.induct with
  | step n ih =>
      have hchildren : n.bare.children = n.children.map Node.bare := by
        rw [Node.children, Node.children, bare_kind, Kind.children_map]
      have hbelow : remarksOf (n.children.map Node.bare) = remarksOf n.children := by
        rw [remarksOf, remarksOf, List.map_map]
        exact congrArg List.sum (List.map_congr_left ih)
      rw [remarks_eq, remarks_eq n, hchildren, hbelow, commentLines, commentLines, bare_comment, Option.elim_map]
      rfl

theorem remarksOf_of_bare {ns ms : List Node} (h : ns.map Node.bare = ms.map Node.bare) :
    remarksOf ns = remarksOf ms := by
  have hbare : ∀ ns : List Node, remarksOf ns = remarksOf (ns.map Node.bare) := by
    intro ns
    rw [remarksOf, remarksOf, List.map_map]
    exact congrArg List.sum (List.map_congr_left fun n _ => n.remarks_bare.symm)
  rw [hbare ns, h, ← hbare ms]

/-- A line end behind a text adds no token. -/
theorem tokenize_lineEnd {source : String} {ts : List Token} (h : tokenize source = .ok ts) :
    tokenize (source ++ "\n") = .ok ts := by
  obtain ⟨ls, hrun, htext, hts⟩ := tokensFrom_eq_ok_iff.1 h
  have hblank : Run [.blank '\n'] := ⟨by simp [Lexeme.Ok, isBlank], .singleton _⟩
  refine tokensFrom_eq_ok_iff.2 ⟨ls ++ [.blank '\n'], hrun.append hblank ?_, ?_, ?_⟩
  · rintro l - _ ⟨⟩
    cases l <;> simp [Meets]
  · simp [htext, chars]
  · rw [tokens_append, hts]
    simp [tokens, token?]

theorem Lexeme.tokens_nodup {p : Pos} {ls : List Lexeme} (hok : ∀ l ∈ ls, l.Ok) : (tokens p ls).Nodup := by
  refine (tokens_ordered hok).imp_of_mem fun {t u} ht _ hle => ?_
  rintro rfl
  exact absurd ((mem_tokens_between hok ht).2.1.trans_le hle) (lt_irrefl _)

/-- Every comment that stands in a list, or at the top level, together with an expression is one line of the
comment of one node of the tree, except in a list whose only expression is the atom `begin` or `cond`: the
comments there are in no node. Printing the tree at any width loses no other comment that has company. -/
theorem comments_dealt_to_nodes {source : String} {ts : List Token} {roots : List Node}
    (htokens : tokenize source = .ok ts) (hread : readDocument source = .ok roots) :
    (accompanied ts).Nodup ∧ (accompanied ts).Subperm (ts.filter (·.kind = .comment)) ∧
    (∃ owned : List (List Token),
      List.Forall₂ (fun n own => n.commentLines = own.map Token.text) (Forest.nodes roots) owned ∧
      (owned.flatten ++ forlorn ts).Perm (accompanied ts)) ∧
    ∀ width, ∃ printed, tokenize (prettyRoots roots width ++ "\n") = .ok printed ∧
      ((accompanied ts).map Token.text).Subperm
        ((forlorn ts ++ printed.filter (·.kind = .comment)).map Token.text) := by
  have hsub := accompanied_subperm htokens hread
  have hremarks := remarksOf_of_ok htokens hread
  refine ⟨?_, hsub, ?_, ?_⟩
  · obtain ⟨ls, hrun, -, rfl⟩ := tokensFrom_eq_ok_iff.1 htokens
    obtain ⟨order, hperm, horder⟩ := hsub
    exact hperm.nodup_iff.1 (((tokens_nodup hrun.ok).filter _).sublist horder)
  · rw [← coe_nodes_commentLines, Multiset.coe_eq_coe, List.flatMap_def] at hremarks
    obtain ⟨owned, howned, hperm⟩ := exists_dealt Token.text hremarks
    exact ⟨owned, List.forall₂_map_left_iff.1 howned, (hperm.append_right _).trans (keptComments_perm ts)⟩
  · intro width
    obtain ⟨reread, hreread, hbare⟩ := readDocument_prettyRoots (readDocument_standing hread) width
    obtain ⟨printed, hprinted⟩ : ∃ printed, tokenize (prettyRoots roots width) = .ok printed := by
      obtain ⟨ls, -, hrun, htext, -⟩ := readDocument_eq_ok_iff.1 hreread
      exact ⟨_, tokensFrom_eq_ok_iff.2 ⟨ls, hrun, htext, rfl⟩⟩
    have hsame := remarksOf_of_ok hprinted hreread
    rw [remarksOf_of_bare hbare, hremarks, Multiset.coe_eq_coe] at hsame
    have hkept : ((keptComments ts).map Token.text).Subperm
        ((printed.filter (·.kind = .comment)).map Token.text) := by
      obtain ⟨order, hperm, horder⟩ := keptComments_subperm hprinted hreread
      exact ⟨order.map Token.text, (hperm.map Token.text).trans hsame.symm, horder.map Token.text⟩
    refine ⟨printed, tokenize_lineEnd hprinted, ?_⟩
    have hall := ((keptComments_perm ts).symm.trans List.perm_append_comm).map Token.text
    rw [List.map_append] at hall
    rw [List.map_append]
    exact hall.subperm.trans ((List.subperm_append_left _).2 hkept)

/-- A comment on a function header and one behind the function are kept, one inside `(begin)` is not. -/
theorem comments_dealt_to_nodes_header_and_lone_keyword :
    ∃ ts roots, tokenize "(define (f) ; h\n x) ; t\n(begin ; c\n)" = .ok ts ∧
      readDocument "(define (f) ; h\n x) ; t\n(begin ; c\n)" = .ok roots ∧
      (accompanied ts).map Token.text = ["; h", "; c", "; t"] ∧ (forlorn ts).map Token.text = ["; c"] ∧
      ∃ owned : List (List Token),
        List.Forall₂ (fun n own => n.commentLines = own.map Token.text) (Forest.nodes roots) owned ∧
        (owned.flatten ++ forlorn ts).Perm (accompanied ts) := by
  obtain ⟨ts, htokens, haccompanied, hforlorn⟩ : ∃ ts, tokenize "(define (f) ; h\n x) ; t\n(begin ; c\n)" = .ok ts ∧
      (accompanied ts).map Token.text = ["; h", "; c", "; t"] ∧ (forlorn ts).map Token.text = ["; c"] :=
    Except.exists_ok (by decide +kernel)
  obtain ⟨roots, hread⟩ : ∃ roots, readDocument "(define (f) ; h\n x) ; t\n(begin ; c\n)" = .ok roots :=
    Except.exists_eq_ok (by decide +kernel)
  obtain ⟨-, -, howned, -⟩ := comments_dealt_to_nodes htokens hread
  exact ⟨ts, roots, htokens, hread, haccompanied, hforlorn, howned⟩

/-- The comment in `(begin ; c)` stands in the company of `begin` and is in no node. -/
theorem comment_beside_lone_begin_lost :
    ∃ ts roots, tokenize "(begin ; c\n)" = .ok ts ∧ readDocument "(begin ; c\n)" = .ok roots ∧
      (accompanied ts).map Token.text = ["; c"] ∧ ∀ n ∈ Forest.nodes roots, n.commentLines = [] := by
  obtain ⟨ts, htokens, haccompanied, roots, hread, hnone⟩ : ∃ ts, tokenize "(begin ; c\n)" = .ok ts ∧
      (accompanied ts).map Token.text = ["; c"] ∧
      ∃ roots ∈ (readDocument "(begin ; c\n)").toOption, ∀ n ∈ Forest.nodes roots, n.commentLines = [] :=
    Except.exists_ok (by decide +kernel)
  exact ⟨ts, roots, htokens, Except.toOption_eq_some.1 hread, haccompanied, hnone⟩

end TreeEdit
