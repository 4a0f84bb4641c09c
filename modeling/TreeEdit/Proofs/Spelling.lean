import TreeEdit.Proofs.Signs

/-!
# Printed nodes have the signs of the node

However a node is set, what is printed is a run of lexemes that closes its brackets and has the signs
of the node: `Node.Writable.spells`. This holds of nodes that were read and also of copies under edit,
in which some nodes are text that was put in; they need not read back as they are, but what they say
is kept.
-/

namespace TreeEdit

open Reader Lexeme

/-- The run can stand before a blank or a bracket, closes its brackets, and has these signs. -/
structure Lexeme.Spells (ls : List Lexeme) (ss : List Sign) : Prop where
  run : Run ls
  closed : Closed ls
  balanced : Balanced ls
  signs_eq : signs ls = ss

namespace Lexeme

theorem Spells.nil : Spells [] [] := ⟨.nil, by simp [Closed], .nil, rfl⟩

theorem Spells.append {a b : List Lexeme} {x y : List Sign} (ha : Spells a x) (hb : Spells b y)
    (h : ∀ l ∈ b.head?, ∃ c, l = .blank c) : Spells (a ++ b) (x ++ y) := by
  refine ⟨ha.run.append hb.run ?_, ha.closed.append hb.closed, ha.balanced.append hb.balanced, ?_⟩
  · intro l hl m hm
    obtain ⟨c, rfl⟩ := h m hm
    exact meets_blank (ha.closed l hl) c
  · rw [signs_append, ha.signs_eq, hb.signs_eq]

theorem Spells.blanks_append {cs : List Char} (hcs : ∀ c ∈ cs, isBlank c = true) {ls : List Lexeme}
    {ss : List Sign} (h : Spells ls ss) : Spells (blanks cs ++ ls) ss := by
  refine ⟨h.run.blanks_append hcs, (closed_blanks cs).append h.closed, ?_, ?_⟩
  · exact (balanced_of_signs_eq_nil (signs_blanks cs)).append h.balanced
  · rw [signs_append, signs_blanks, List.nil_append, h.signs_eq]

theorem Spells.list {ls : List Lexeme} {ss : List Sign} (h : Spells ls ss) (b : Bracket) :
    Spells (opening b :: (ls ++ [closing b])) (.opening :: (ss ++ [.closing])) := by
  have hclose : Closed [closing b] := closed_singleton fun _ => Lexeme.noConfusion
  have hopen : Closed [opening b] := closed_singleton fun _ => Lexeme.noConfusion
  have hcloser : Run [closing b] := Run.nil.cons trivial trivial
  refine ⟨?_, hopen.append (h.closed.append hclose), h.balanced.list b, ?_⟩
  · refine (h.run.append hcloser ?_).cons trivial trivial
    rintro l hl _ ⟨⟩
    exact meets_closing (h.closed l hl) b
  · rw [signs_cons, signs_append, h.signs_eq]
    rfl

/-- A word behind which a blank stands. -/
theorem Spells.word_append {l : Lexeme} (hl : l.Ok) {s : Sign} (hs : l.sign? = some s)
    (hword : ∀ b, l ≠ opening b ∧ l ≠ closing b) {ls : List Lexeme} {ss : List Sign} (h : Spells ls ss)
    (hhead : ∀ m ∈ ls.head?, ∃ c, m = .blank c) : Spells (l :: ls) (s :: ss) := by
  have hcomment : ∀ body, l ≠ comment body := by
    rintro body rfl
    cases hs
  have hone : Spells [l] [s] := by
    refine ⟨⟨by simpa using hl, .singleton l⟩, closed_singleton hcomment, ?_, ?_⟩
    · intro opened
      cases l with
      | opening b => exact absurd rfl (hword b).1
      | closing b => exact absurd rfl (hword b).2
      | _ => rfl
    · rw [signs_cons, hs]
      rfl
  exact hone.append h hhead

end Lexeme

/-! ## Text that can be put in -/

/-- A text that closes its brackets and can stand before a blank or a bracket. -/
def Fragment (text : String) : Prop := ∃ ls, Lexeme.text ls = text.toList ∧ Spells ls (signsOf text)

/-- A text without comments that is one expression. -/
structure Expression (text : String) : Prop where
  uncommented : ∃ tokens, tokenize text = .ok tokens ∧ ∀ t ∈ tokens, t.kind ≠ .comment
  single : ∃ n, readDocument text = .ok [n]

theorem Expression.fragment {text : String} (h : Expression text) : Fragment text := by
  obtain ⟨ts, htokens, hcomment⟩ := h.uncommented
  obtain ⟨n, hread⟩ := h.single
  obtain ⟨ls, hrun, htext, rfl⟩ := exists_run htokens
  have helements : ∃ es, elementsFrom (tokens .zero ls) [] [] = .ok es := by
    rw [readDocument, htokens] at hread
    cases hes : elementsFrom (tokens .zero ls) [] [] with
    | error e => simp only [hes] at hread; cases hread
    | ok es => exact ⟨es, rfl⟩
  refine ⟨ls, htext, hrun, ?_, ?_, ?_⟩
  · intro l hl body heq
    subst heq
    obtain ⟨init, rfl⟩ := List.getLast?_eq_some_iff.1 hl
    refine hcomment (.ofChars .comment (Pos.zero.advanceOver (Lexeme.text init))
      (dropBlanksEnd (';' :: body))) ?_ rfl
    rw [tokens_append]
    simp [tokens, token?]
  · exact balanced_iff.2 ((exists_elements_iff [] .zero []).1 helements)
  · rw [← signsOf_text hrun, htext, String.ofList_toList]

/-! ## Layouts -/

namespace Doc

/-- However the document is set, it has these signs. -/
def Spells (d : Doc) (ss : List Sign) : Prop :=
  ∀ flat cs, Sets flat d cs → ∃ ls, Lexeme.text ls = cs ∧ Lexeme.Spells ls ss

theorem isBlank_of_sets_line {flat : Bool} {cs : List Char} (h : Sets flat line cs) :
    cs ≠ [] ∧ ∀ c ∈ cs, isBlank c = true := by
  rcases sets_line_iff.1 h with ⟨_, rfl⟩ | ⟨_, indent, rfl⟩
  · simp [isBlank]
  · exact ⟨List.cons_ne_nil _ _, isBlank_freshLine indent⟩

theorem broken_spells {flat : Bool} {docs : List Doc} {sss : List (List Sign)}
    (h : List.Forall₂ Spells docs sss) {cs : List Char} (hs : Sets flat (Layout.broken docs) cs) :
    ∃ ls, Lexeme.text ls = cs ∧ Lexeme.Spells ls sss.flatten ∧ ∀ l ∈ ls.head?, ∃ c, l = .blank c := by
  induction h generalizing cs with
  | nil =>
      rw [sets_concat_nil_iff.1 hs]
      exact ⟨[], rfl, .nil, by simp⟩
  | @cons d ss ds sss hd _ ih =>
      obtain ⟨sep, _, rfl, hsep, hmore⟩ := sets_concat_cons_iff.1 hs
      obtain ⟨x, y, rfl, hx, hy⟩ := sets_concat_cons_iff.1 hmore
      obtain ⟨ls, rfl, hitem⟩ := hd flat x hx
      obtain ⟨ls', rfl, hrest, hhead⟩ := ih hy
      obtain ⟨hne, hblank⟩ := isBlank_of_sets_line hsep
      refine ⟨blanks sep ++ (ls ++ ls'), by simp, (hitem.append hrest hhead).blanks_append hblank, ?_⟩
      cases sep with
      | nil => exact absurd rfl hne
      | cons c sep =>
          rintro l ⟨⟩
          exact ⟨c, rfl⟩

/-- A first item with the others behind it. -/
theorem items_spell {flat : Bool} {d : Doc} {ss : List Sign} {docs : List Doc} {sss : List (List Sign)}
    {x y : List Char} (hd : d.Spells ss) (hdocs : List.Forall₂ Spells docs sss) (hx : Sets flat d x)
    (hy : Sets flat (Layout.broken docs) y) :
    ∃ ls, Lexeme.text ls = x ++ y ∧ Lexeme.Spells ls (ss ++ sss.flatten) := by
  obtain ⟨ls, rfl, hitem⟩ := hd flat x hx
  obtain ⟨ls', rfl, hrest, hhead⟩ := broken_spells hdocs hy
  exact ⟨ls ++ ls', by simp, hitem.append hrest hhead⟩

/-- However the document is set, it is a list in brackets with these signs in it. -/
def Encloses (d : Doc) (ss : List Sign) : Prop :=
  ∀ flat cs, Sets flat d cs → ∃ (b : Bracket) (ls : List Lexeme),
    cs = b.opener :: (Lexeme.text ls ++ [b.closer]) ∧ Lexeme.Spells ls ss

theorem Encloses.spells {d : Doc} {ss : List Sign} (h : d.Encloses ss) :
    d.Spells (.opening :: (ss ++ [.closing])) := by
  intro flat cs hcs
  obtain ⟨b, ls, rfl, hls⟩ := h flat cs hcs
  refine ⟨_, ?_, hls.list b⟩
  rw [text_cons, text_append]
  rfl

theorem application_encloses {d : Doc} {ss : List Sign} {docs : List Doc} {sss : List (List Sign)}
    (hd : d.Spells ss) (hdocs : List.Forall₂ Spells docs sss) :
    (Layout.application d docs).Encloses (ss ++ sss.flatten) := by
  intro flat cs hcs
  obtain ⟨flat', x, y, rfl, hx, hy⟩ := sets_application hcs
  obtain ⟨ls, htext, hls⟩ := items_spell hd hdocs hx hy
  exact ⟨.round, ls, by rw [htext]; rfl, hls⟩

theorem form_encloses (keyword : String) (hkeyword : (form? keyword).isSome) {d : Doc} {ss : List Sign}
    {docs : List Doc} {sss : List (List Sign)} (hd : d.Spells ss)
    (hdocs : List.Forall₂ Spells docs sss) :
    (Layout.form keyword (d :: docs)).Encloses (.word keyword :: (ss ++ sss.flatten)) := by
  intro flat cs hcs
  obtain ⟨flat', x, y, rfl, hx, hy⟩ := sets_form hcs
  obtain ⟨ls, htext, hls⟩ := items_spell hd hdocs hx hy
  refine ⟨.round, .atom keyword.toList :: (blanks [' '] ++ ls), ?_, ?_⟩
  · simp [htext, Lexeme.chars, Bracket.opener, Bracket.closer]
  · refine (hls.blanks_append (by simp [isBlank])).word_append (keyword_ok hkeyword).1
      (by simp [sign?]) (by simp) ?_
    rintro l ⟨⟩
    exact ⟨' ', rfl⟩

theorem bracketed_encloses (b : Bracket) {opener closer : String} (hopener : opener.toList = [b.opener])
    (hcloser : closer.toList = [b.closer]) {docs : List Doc} {sss : List (List Sign)}
    (hdocs : List.Forall₂ Spells docs sss) :
    (Layout.bracketed opener closer docs).Encloses sss.flatten := by
  intro flat cs hcs
  obtain ⟨flat', inner, rfl, hinner⟩ := sets_bracketed hcs
  cases hdocs with
  | nil =>
      rw [sets_concat_nil_iff.1 hinner]
      exact ⟨b, [], by simp [hopener, hcloser], .nil⟩
  | cons hd hdocs =>
      rw [join_cons] at hinner
      obtain ⟨x, y, rfl, hx, hy⟩ := sets_append_iff.1 hinner
      obtain ⟨ls, htext, hls⟩ := items_spell hd hdocs hx hy
      exact ⟨b, ls, by simp [htext, hopener, hcloser], hls⟩

theorem word_spells {s : String} {l : Lexeme} (hl : l.Ok) (hchars : l.chars = s.toList)
    (hsign : l.sign? = some (.word s)) : (text s).Spells [.word s] := by
  intro flat cs hcs
  refine ⟨[l], by rw [sets_text_iff.1 hcs, text_cons, hchars, text_nil, List.append_nil], ?_⟩
  refine Spells.nil.word_append hl hsign ?_ (by simp)
  intro b
  constructor <;> rintro rfl <;> cases hsign

theorem blank_spells : (text "...").Spells [.word "..."] :=
  word_spells (l := .atom "...".toList) (atom_ok_of_all rfl) rfl (by simp [sign?])

theorem keyword_spells (keyword : String) (h : (form? keyword).isSome) :
    (text keyword).Spells [.word keyword] :=
  word_spells (l := .atom keyword.toList) (keyword_ok h).1 rfl (by simp [sign?])

theorem round_encloses {docs : List Doc} {sss : List (List Sign)} (hdocs : List.Forall₂ Spells docs sss) :
    (Layout.round docs).Encloses sss.flatten :=
  bracketed_encloses .round rfl rfl hdocs

theorem square_encloses {docs : List Doc} {sss : List (List Sign)}
    (hdocs : List.Forall₂ Spells docs sss) : (Layout.square docs).Encloses sss.flatten :=
  bracketed_encloses .square rfl rfl hdocs

/-- The lines of a comment above a document add no sign. -/
theorem comment_spells {d : Doc} {ss : List Sign} (hd : d.Spells ss) {lines : List String}
    (hne : lines ≠ []) (hlines : ∀ l ∈ lines, CommentLine l) :
    (concat [join (lines.map text) hardLine, hardLine, d]).Spells ss := by
  intro flat cs hcs
  obtain ⟨rfl, hbelow⟩ := setsBelow_of_sets hne hcs
  clear hne hcs
  induction hbelow with
  | document hcs => exact hd false _ hcs
  | @line line lines cs indent _ ih =>
      obtain ⟨⟨body, hbody, hok, -⟩, hlines⟩ := List.forall_mem_cons.1 hlines
      obtain ⟨ls, rfl, hls⟩ := ih hlines
      have hblanks := hls.blanks_append (isBlank_freshLine indent)
      refine ⟨.comment body :: (blanks (freshLine indent) ++ ls), by simp [hbody, Lexeme.chars],
        hblanks.run.cons hok ?_, hblanks.closed, ?_, ?_⟩
      · rintro c ⟨⟩
        rfl
      · intro opened
        rw [openAfter_of_sign?_eq_none rfl, hblanks.balanced]
      · rw [signs_cons, hblanks.signs_eq]
        rfl

theorem underComment_spells {d : Doc} {ss : List Sign} (hd : d.Spells ss) {c : Option Comment}
    (hc : ∀ c' ∈ c, CommentText c'.text) : (Layout.underComment c d).Spells ss := by
  cases c with
  | none => exact hd
  | some c =>
      exact comment_spells hd (linesOf_ne_nil c.text) (hc c rfl)

end Doc

/-! ## Nodes -/

/-- The words of a kind are words: a literal is an atom or a string, and text that was put in does not spill
over. -/
def Kind.Worded : Kind Node → Prop
  | .literal value _ => ∃ l : Lexeme, l.Ok ∧ l.chars = value.toList ∧ l.sign? = some (.word value)
  | .pasted text => Fragment text
  | _ => True

/-- A node that can be printed so that its signs are kept, with all its parts. -/
inductive Node.Writable : Node → Prop
  | intro {n : Node} (kind : n.kind.Worded) (comment : ∀ c ∈ n.comment, CommentText c.text)
      (parts : ∀ m ∈ n.kind.parts, m.Writable) : Writable n

theorem Kind.Readable.worded {k : Kind Node} (h : k.Readable) : k.Worded := by
  cases k with
  | literal value type =>
      cases type with
      | string =>
          obtain ⟨body, hbody, hvalue⟩ := h
          refine ⟨.string body, hbody, hvalue.symm, ?_⟩
          rw [sign?, ← hvalue, String.ofList_toList]
      | _ => exact ⟨.atom value.toList, h.1, rfl, by rw [sign?, String.ofList_toList]⟩
  | pasted text => exact h.elim
  | _ => trivial

/-- What was read can be printed. -/
theorem Node.Sound.writable {n : Node} (h : n.Sound) : n.Writable := by
  induction h with
  | intro hkind hcomment _ ih => exact .intro hkind.worded hcomment ih

namespace Doc

theorem forall₂_spells {ms : List Node} (h : ∀ m ∈ ms, m.doc.Spells m.flatten) :
    List.Forall₂ Spells (ms.map Node.doc) (ms.map Node.flatten) := by
  induction ms with
  | nil => exact .nil
  | cons m ms ih =>
      obtain ⟨hm, hms⟩ := List.forall_mem_cons.1 h
      exact .cons hm (ih hms)

/-- A list is set in brackets. -/
theorem kind_encloses {k : Kind Node} (hlist : k.isList) (hparts : ∀ m ∈ k.parts, m.doc.Spells m.flatten) :
    ∃ ss, fill Node.flatten k.shape = .opening :: (ss ++ [.closing]) ∧
      (Layout.kind (k.map Node.printed)).Encloses ss := by
  have hwhole : ∀ m : Node, m.printed.whole = m.doc := fun _ => rfl
  have hmap : ∀ ms : List Node, (ms.map Node.printed).map Layout.Printed.whole = ms.map Node.doc := by
    intro ms
    rw [List.map_map]
    rfl
  cases k with
  | literal | blank | pasted | vacated => cases hlist
  | app func args =>
      obtain ⟨hfunc, hargs⟩ := List.forall_mem_cons.1 hparts
      simp only [Layout.kind, Kind.map, hwhole, hmap]
      refine ⟨_, ?_, application_encloses hfunc (forall₂_spells hargs)⟩
      simp [Kind.shape, Kind.pattern]
  | identifiers ids =>
      simp only [Layout.kind, Kind.map, hmap]
      refine ⟨_, ?_, round_encloses (forall₂_spells hparts)⟩
      simp [Kind.shape, Kind.pattern]
  | variableDef name body =>
      simp only [Layout.kind, Kind.map, hwhole]
      refine ⟨_, ?_, form_encloses "define" rfl (hparts name (by simp)) (.cons (hparts body (by simp)) .nil)⟩
      simp [Kind.shape, Kind.pattern]
  | functionDef name params body =>
      have hheader : List.Forall₂ Spells (name.doc :: params.header.map Node.doc)
          (name.flatten :: params.header.map Node.flatten) :=
        .cons (hparts name (by simp)) (forall₂_spells fun m hm => hparts m (by simp [hm]))
      simp only [Layout.kind, Kind.map, hwhole, Node.printed_header]
      refine ⟨_, ?_, form_encloses "define" rfl (round_encloses hheader).spells
        (.cons (hparts body (by simp)) .nil)⟩
      simp [Kind.shape, Kind.pattern]
  | lambda args body =>
      simp only [Layout.kind, Kind.map, hwhole]
      refine ⟨_, ?_, form_encloses "lambda" rfl (hparts args (by simp)) (.cons (hparts body (by simp)) .nil)⟩
      simp [Kind.shape, Kind.pattern]
  | structDef name fields =>
      simp only [Layout.kind, Kind.map, hwhole]
      refine ⟨_, ?_, form_encloses "define-struct" rfl (hparts name (by simp))
        (.cons (hparts fields (by simp)) .nil)⟩
      simp [Kind.shape, Kind.pattern]
  | conditional test yes no =>
      have hno := @forall₂_spells no.toList fun m hm => hparts m (by simp [hm])
      have hmapNo : ((no.map Node.printed).map Layout.Printed.whole).toList = no.toList.map Node.doc := by
        cases no <;> rfl
      simp only [Layout.kind, Kind.map, hwhole, hmapNo]
      refine ⟨_, ?_, form_encloses "if" rfl (hparts test (by simp)) (.cons (hparts yes (by simp)) hno)⟩
      simp [Kind.shape, Kind.pattern]
  | cond clauses =>
      simp only [Layout.kind, Kind.map, hmap]
      refine ⟨_, ?_, application_encloses (keyword_spells "cond" rfl) (forall₂_spells hparts)⟩
      simp [Kind.shape, Kind.pattern]
  | clause test body =>
      obtain ⟨htest, hbody⟩ := List.forall_mem_cons.1 hparts
      simp only [Layout.kind, Kind.map, hwhole, hmap]
      refine ⟨_, ?_, square_encloses (.cons htest (forall₂_spells hbody))⟩
      simp [Kind.shape, Kind.pattern]
  | letIn form bindings body =>
      have hlist := round_encloses (@forall₂_spells bindings fun m hm => hparts m (by simp [hm]))
      have hform : (form? form.keyword).isSome := by cases form <;> rfl
      simp only [Layout.kind, Kind.map, hwhole, hmap]
      refine ⟨_, ?_, form_encloses _ hform hlist.spells (.cons (hparts body (by simp)) .nil)⟩
      simp [Kind.shape, Kind.pattern]
  | binding name value =>
      simp only [Layout.kind, Kind.map, hwhole]
      refine ⟨_, ?_, square_encloses (.cons (hparts name (by simp)) (.cons (hparts value (by simp)) .nil))⟩
      simp [Kind.shape, Kind.pattern]
  | guarded form predicate exprs =>
      obtain ⟨hpredicate, hexprs⟩ := List.forall_mem_cons.1 hparts
      have hform : (form? form.keyword).isSome := by cases form <;> rfl
      simp only [Layout.kind, Kind.map, hwhole, hmap]
      refine ⟨_, ?_, form_encloses _ hform hpredicate (forall₂_spells hexprs)⟩
      simp [Kind.shape, Kind.pattern]
  | sequence exprs =>
      simp only [Layout.kind, Kind.map, hmap]
      refine ⟨_, ?_, application_encloses (keyword_spells "begin" rfl) (forall₂_spells hparts)⟩
      simp [Kind.shape, Kind.pattern]
  | unknown elts =>
      simp only [Layout.kind, Kind.map, hmap]
      refine ⟨_, ?_, round_encloses (forall₂_spells hparts)⟩
      simp [Kind.shape, Kind.pattern]

theorem kind_spells {k : Kind Node} (hword : k.Worded)
    (hparts : ∀ m ∈ k.parts, m.doc.Spells m.flatten) :
    (Layout.kind (k.map Node.printed)).Spells (fill Node.flatten k.shape) := by
  by_cases hlist : k.isList
  · obtain ⟨ss, hfill, hencloses⟩ := kind_encloses hlist hparts
    rw [hfill]
    exact hencloses.spells
  · cases k with
    | literal value type =>
        obtain ⟨l, hl, hchars, hsign⟩ := hword
        exact word_spells hl hchars hsign
    | blank => exact blank_spells
    | vacated => exact blank_spells
    | pasted text =>
        intro flat cs hcs
        obtain ⟨ls, htext, hls⟩ := hword
        refine ⟨ls, by rw [sets_text_iff.1 hcs, htext], ?_⟩
        simpa [Kind.shape, Kind.pattern, fill, List.flatMap_map] using hls
    | _ => exact absurd rfl hlist

end Doc

open Doc in
/-- However a node that can be printed is set, it has its signs. -/
theorem Node.Writable.spells {n : Node} (h : n.Writable) : n.doc.Spells n.flatten := by
  induction h with
  | @intro n hkind hcomment _ ih =>
      rw [doc_eq, flatten_eq]
      exact underComment_spells (kind_spells hkind ih) hcomment

end TreeEdit
