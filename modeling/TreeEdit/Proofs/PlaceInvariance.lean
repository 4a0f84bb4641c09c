import TreeEdit.Proofs.Grammar

/-!
# The same text at another place

What is read of a text depends on the place where the text starts only in the places of what is read:
`Parses.beyond`. Reading does look at places, when it decides on which expression a comment hangs and in
which order comments are joined, but it only asks which of two places comes first and whether they are on
one line. Counting from another place changes neither.
-/

namespace TreeEdit

open Reader Lexeme

/-! ## Places counted from another place -/

namespace Pos

/-- The place that a walk leads to from `p` on, if it leads to `q` from the start. -/
def beyond (p q : Pos) : Pos := ⟨p.line + q.line, if q.line = 0 then p.ch + q.ch else q.ch⟩

@[simp] theorem beyond_zero (p : Pos) : p.beyond zero = p := rfl

theorem beyond_advance (p q : Pos) (c : Char) : (p.beyond q).advance c = p.beyond (q.advance c) := by
  unfold advance beyond
  by_cases hc : c = '\n'
  · simp [hc, Nat.add_assoc]
  · by_cases hq : q.line = 0 <;> simp [hc, hq, Nat.add_assoc]

theorem beyond_advanceOver (p q : Pos) (cs : List Char) :
    (p.beyond q).advanceOver cs = p.beyond (q.advanceOver cs) := by
  induction cs generalizing q with
  | nil => rfl
  | cons c cs ih => rw [advanceOver_cons, beyond_advance, ih, advanceOver_cons]

theorem beyond_le_iff (p : Pos) {a b : Pos} : p.beyond a ≤ p.beyond b ↔ a ≤ b := by
  simp only [beyond, le_def]
  split <;> split <;> omega

theorem beyond_line_iff (p : Pos) {a b : Pos} : (p.beyond a).line = (p.beyond b).line ↔ a.line = b.line :=
  Nat.add_left_cancel_iff

theorem beyond_earlier (p a b : Pos) : (p.beyond a).earlier (p.beyond b) = p.beyond (a.earlier b) := by
  simp only [earlier, beyond_le_iff]
  split <;> rfl

theorem beyond_later (p a b : Pos) : (p.beyond a).later (p.beyond b) = p.beyond (a.later b) := by
  simp only [later, beyond_le_iff]
  split <;> rfl

end Pos

/-- A span counted from another place. -/
def Span.beyond (p : Pos) (s : Span) : Span := ⟨p.beyond s.start, p.beyond s.stop⟩

theorem Span.beyond_union (p : Pos) (a b : Span) : (a.beyond p).union (b.beyond p) = (a.union b).beyond p := by
  simp only [union, beyond, Pos.beyond_earlier, Pos.beyond_later]

/-- A note counted from another place. -/
def Note.beyond (p : Pos) (t : Note) : Note := { t with span := t.span.beyond p }

/-- A comment counted from another place. -/
def Comment.beyond (p : Pos) (c : Comment) : Comment := { c with span := c.span.beyond p }

/-- A node with all its places counted from another place. -/
def Node.beyond (p : Pos) (n : Node) : Node :=
  n.fold fun n below => { n with
    span := n.span.beyond p
    kind := below
    comment := n.comment.map (Comment.beyond p) }

section Counting

variable (p : Pos)

namespace Node

theorem beyond_eq (n : Node) : n.beyond p = { n with
    span := n.span.beyond p
    kind := n.kind.map (beyond p)
    comment := n.comment.map (Comment.beyond p) } := by
  rw [beyond, fold_eq]
  rfl

@[simp] theorem span_beyond (n : Node) : (n.beyond p).span = n.span.beyond p := by rw [beyond_eq]

@[simp] theorem kind_beyond (n : Node) : (n.beyond p).kind = n.kind.map (beyond p) := by rw [beyond_eq]

@[simp] theorem comment_beyond (n : Node) : (n.beyond p).comment = n.comment.map (Comment.beyond p) := by
  rw [beyond_eq]

@[simp] theorem hash_beyond (n : Node) : (n.beyond p).hash = n.hash := by rw [beyond_eq]

@[simp] theorem symbol?_beyond (n : Node) : (n.beyond p).symbol? = n.symbol? := by
  unfold symbol?
  rw [kind_beyond]
  cases n.kind <;> rfl

/-- What is written does not depend on where it stands. -/
@[simp] theorem bare_beyond (n : Node) : (n.beyond p).bare = n.bare := by
  induction n using induct with
  | step n ih =>
      have hkind : n.kind.map (bare ∘ beyond p) = n.kind.map bare := Kind.map_congr_left ih
      rw [bare_eq, bare_eq n, kind_beyond, comment_beyond, Kind.map_map, hkind, Option.map_map]
      rfl

theorem fingerprint_beyond (k : Kind Node) (c : Option Comment) :
    (k.map (beyond p)).fingerprint (c.map (Comment.beyond p)) = k.fingerprint c := by
  have hhash : hash ∘ beyond p = hash := funext (hash_beyond p)
  rw [Kind.fingerprint, Kind.map_map, hhash, Option.map_map]
  rfl

theorem make_beyond (k : Kind Node) (s : Span) :
    (make k s).beyond p = make (k.map (beyond p)) (s.beyond p) := by
  rw [beyond_eq, make, make, ← fingerprint_beyond p k none]
  rfl

theorem withComment_beyond (n : Node) (c : Option Comment) :
    (n.withComment c).beyond p = (n.beyond p).withComment (c.map (Comment.beyond p)) := by
  rw [beyond_eq, beyond_eq p n, withComment, withComment]
  simp only [fingerprint_beyond]

theorem range_beyond (n : Node) : (n.beyond p).range = n.range.beyond p := by
  unfold range
  rw [comment_beyond, span_beyond]
  cases n.comment with
  | none => rfl
  | some c => exact Span.beyond_union p n.span c.span

end Node

theorem Note.sorted_beyond (notes : List Note) :
    Note.sorted (notes.map (Note.beyond p)) = (Note.sorted notes).map (Note.beyond p) := by
  refine (List.map_mergeSort fun a _ b _ => ?_).symm
  exact decide_eq_decide.2 (Pos.beyond_le_iff p).symm

theorem Comment.ofNotes_beyond (first : Note) (rest : List Note) :
    Comment.ofNotes (first.beyond p) (rest.map (Note.beyond p)) = (Comment.ofNotes first rest).beyond p := by
  have hspan : ∀ (rest : List Note) (s : Span),
      (rest.map (Note.beyond p)).foldl (fun span note => span.union note.span) (s.beyond p) =
        (rest.foldl (fun span note => span.union note.span) s).beyond p := by
    intro rest
    induction rest with
    | nil => exact fun _ => rfl
    | cons t rest ih =>
        intro s
        rw [List.map_cons, List.foldl_cons, List.foldl_cons, ← ih]
        congr 1
        exact Span.beyond_union p s t.span
  have htexts : (first.beyond p :: rest.map (Note.beyond p)).map Note.text = (first :: rest).map Note.text := by
    simp [Note.beyond]
  rw [ofNotes, htexts, show (first.beyond p).span = first.span.beyond p from rfl, hspan]
  rfl

theorem Comment.note_beyond (c : Comment) : (c.beyond p).note = c.note.beyond p := rfl

theorem Node.addNotes_beyond (n : Node) (notes : List Note) :
    (n.addNotes notes).beyond p = (n.beyond p).addNotes (notes.map (Note.beyond p)) := by
  have hown : ((n.beyond p).comment.map Comment.note).toList =
      (n.comment.map Comment.note).toList.map (Note.beyond p) := by
    rw [comment_beyond]
    cases n.comment <;> rfl
  unfold addNotes
  rw [List.isEmpty_map, hown, ← List.map_append, Note.sorted_beyond]
  split
  · rfl
  · cases Note.sorted (notes ++ (n.comment.map Comment.note).toList) with
    | nil => rfl
    | cons first rest =>
        simp only [List.map_cons]
        rw [withComment_beyond, Comment.ofNotes_beyond]
        rfl

/-! ## Recognition -/

namespace Reader

theorem symbols?_beyond (n : Node) : symbols? (n.beyond p) = (symbols? n).map (List.map (Node.beyond p)) := by
  unfold symbols?
  rw [Node.kind_beyond]
  cases n.kind with
  | app func args =>
      simp only [Kind.map, ← List.map_cons, List.all_map, Function.comp_def, Node.symbol?_beyond]
      split <;> rfl
  | unknown elts => cases elts <;> rfl
  | _ => rfl

theorem rekind_beyond (n : Node) (k : Kind Node) :
    (rekind n k).beyond p = rekind (n.beyond p) (k.map (Node.beyond p)) := by
  rw [rekind, rekind, Node.withComment_beyond, Node.make_beyond, Node.span_beyond, Node.comment_beyond]

theorem paramsSpan_beyond (name : Node) (params : List Node) :
    paramsSpan (name.beyond p) (params.map (Node.beyond p)) = (paramsSpan name params).beyond p := by
  unfold paramsSpan
  rw [List.head?_map, List.getLast?_map]
  cases params.head? with
  | none =>
      rw [Node.span_beyond]
      rfl
  | some first =>
      cases params.getLast? with
      | none =>
          rw [Node.span_beyond]
          rfl
      | some last =>
          simp only [Option.map_some, Node.range_beyond]
          rfl

theorem clause?_beyond (n : Node) : clause? (n.beyond p) = (clause? n).map (Node.beyond p) := by
  unfold clause?
  rw [Node.kind_beyond]
  cases n.kind with
  | app test body => exact congrArg some (rekind_beyond p n (.clause test body)).symm
  | _ => rfl

theorem binding?_beyond (n : Node) : binding? (n.beyond p) = (binding? n).map (Node.beyond p) := by
  unfold binding?
  rw [Node.kind_beyond]
  cases n.kind with
  | app name args =>
      rcases args with _ | ⟨value, _ | ⟨_, _⟩⟩
      · rfl
      · simp only [Kind.map, List.map_cons, List.map_nil, Node.symbol?_beyond]
        split
        · exact congrArg some (rekind_beyond p n (.binding name value)).symm
        · rfl
      · rfl
  | _ => rfl

theorem mapM_beyond {f : Node → Option Node} (hf : ∀ n, f (n.beyond p) = (f n).map (Node.beyond p))
    (ns : List Node) : (ns.map (Node.beyond p)).mapM f = (ns.mapM f).map (List.map (Node.beyond p)) := by
  induction ns with
  | nil => rfl
  | cons n ns ih =>
      simp only [List.map_cons, List.mapM_cons, hf, ih]
      cases f n with
      | none => rfl
      | some m => cases ns.mapM f <;> rfl

theorem bindings?_beyond (n : Node) : bindings? (n.beyond p) = (bindings? n).map (List.map (Node.beyond p)) := by
  unfold bindings?
  rw [Node.kind_beyond]
  cases n.kind with
  | app func args => exact mapM_beyond p (binding?_beyond p) (func :: args)
  | unknown elts => cases elts <;> rfl
  | _ => rfl

theorem notes_beyond (n : Node) : ((n.beyond p).comment.map Comment.note).toList =
    (n.comment.map Comment.note).toList.map (Note.beyond p) := by
  rw [Node.comment_beyond]
  cases n.comment <;> rfl

/-- A shape makes of elements counted from another place what it makes of them, counted from there. -/
def Travels (shape : List Node → Option (Kind Node)) : Prop :=
  ∀ items : List Node, shape (items.map (Node.beyond p)) = (shape items).map (Kind.map (Node.beyond p))

theorem define?_travels : Travels p define? := by
  intro items
  match items with
  | [_, target, body] =>
      simp only [List.map_cons, List.map_nil, define?, Node.symbol?_beyond, symbols?_beyond]
      split
      · rfl
      · rcases symbols? target with _ | _ | ⟨name, params⟩
        · rfl
        · rfl
        · simp only [Option.map_some, List.map_cons, notes_beyond, paramsSpan_beyond]
          rw [← Node.addNotes_beyond]
          simp [Kind.map, Node.make_beyond]
  | [] | [_] | [_, _] | _ :: _ :: _ :: _ :: _ => rfl

theorem defineStruct?_travels : Travels p defineStruct? := by
  intro items
  match items with
  | [_, name, fields] =>
      simp only [List.map_cons, List.map_nil, defineStruct?, Node.symbol?_beyond, symbols?_beyond]
      split
      · cases symbols? fields with
        | none => rfl
        | some ids => simp [Kind.map, rekind_beyond]
      · rfl
  | [] | [_] | [_, _] | _ :: _ :: _ :: _ :: _ => rfl

theorem lambda?_travels : Travels p lambda? := by
  intro items
  match items with
  | [_, args, body] =>
      simp only [List.map_cons, List.map_nil, lambda?, symbols?_beyond]
      cases symbols? args with
      | none => rfl
      | some ids => simp [Kind.map, rekind_beyond]
  | [] | [_] | [_, _] | _ :: _ :: _ :: _ :: _ => rfl

theorem conditional?_travels : Travels p conditional? := by
  intro items
  match items with
  | [_, test, yes] | [_, test, yes, no] => rfl
  | [] | [_] | [_, _] | _ :: _ :: _ :: _ :: _ :: _ => rfl

theorem cond?_travels : Travels p cond? := by
  intro items
  simp only [cond?, ← List.map_drop, mapM_beyond p (clause?_beyond p), Option.map_map]
  rfl

theorem letIn?_travels (form : LetForm) : Travels p (letIn? form) := by
  intro items
  match items with
  | [_, list, body] =>
      simp only [List.map_cons, List.map_nil, letIn?, bindings?_beyond, notes_beyond]
      rcases bindings? list with _ | _ | ⟨first, rest⟩
      · rfl
      · simp [Kind.map, Node.addNotes_beyond]
      · simp [Kind.map, Node.addNotes_beyond]
  | [] | [_] | [_, _] | _ :: _ :: _ :: _ :: _ => rfl

theorem guarded?_travels (form : WhenForm) : Travels p (guarded? form) := by
  intro items
  match items with
  | _ :: predicate :: exprs => rfl
  | [] | [_] => rfl

theorem form?_travels {keyword : String} {shape : List Node → Option (Kind Node)}
    (h : form? keyword = some shape) : Travels p shape := by
  unfold form? at h
  split at h <;> cases h
  · exact define?_travels p
  · exact defineStruct?_travels p
  · exact lambda?_travels p
  · exact conditional?_travels p
  · exact cond?_travels p
  · exact letIn?_travels p .plain
  · exact letIn?_travels p .sequential
  · exact letIn?_travels p .recursive
  · exact guarded?_travels p .whenTrue
  · exact guarded?_travels p .unlessTrue
  · intro items
    simp [Kind.map]

theorem passKeywordComment_beyond (items : List Node) :
    passKeywordComment (items.map (Node.beyond p)) = (passKeywordComment items).map (Node.beyond p) := by
  match items with
  | [] | [_] => rfl
  | keyword :: next :: rest =>
      simp only [List.map_cons, passKeywordComment, Node.comment_beyond]
      cases keyword.comment with
      | none => rfl
      | some c => simp [Node.withComment_beyond, Node.addNotes_beyond, Comment.note_beyond]

theorem recognise_beyond (items : List Node) :
    recognise (items.map (Node.beyond p)) = (recognise items).map (Node.beyond p) := by
  have hhead : ((items.map (Node.beyond p)).head?.bind Node.symbol?) = items.head?.bind Node.symbol? := by
    cases items <;> simp
  unfold recognise
  rw [hhead]
  cases hform : (items.head?.bind Node.symbol?).bind form? with
  | none => cases items <;> rfl
  | some shape =>
      obtain ⟨keyword, -, hform⟩ := Option.bind_eq_some_iff.1 hform
      simp only [passKeywordComment_beyond]
      rw [form?_travels p hform]
      cases shape (passKeywordComment items) <;> rfl

end Reader

/-! ## Elements -/

namespace Element

/-- An element counted from another place. -/
def beyond (p : Pos) : Element → Element
  | expr n => expr (n.beyond p)
  | note t => note (t.beyond p)

/-- The state of a walk counted from another place. -/
def Walk.beyond (p : Pos) (w : Walk) : Walk := ⟨w.done.map (Node.beyond p), w.waiting.map (Note.beyond p)⟩

theorem step_beyond (w : Walk) (e : Element) : (w.beyond p).step (e.beyond p) = (w.step e).beyond p := by
  obtain ⟨done, waiting⟩ := w
  cases e with
  | expr n => simp [beyond, Walk.step, Walk.beyond, Node.addNotes_beyond]
  | note t =>
      cases waiting with
      | cons u waiting => simp [beyond, Walk.step, Walk.beyond]
      | nil =>
          cases done with
          | nil => rfl
          | cons prev before =>
              have hline : (prev.beyond p).span.stop.line = (t.beyond p).span.start.line ↔
                  prev.span.stop.line = t.span.start.line := by
                rw [Node.span_beyond]
                exact Pos.beyond_line_iff p
              by_cases h : prev.span.stop.line = t.span.start.line
              · simp only [beyond, Walk.step, Walk.beyond, List.map_cons, List.map_nil, if_pos h, if_pos (hline.2 h),
                  Node.addNotes_beyond]
              · simp only [beyond, Walk.step, Walk.beyond, List.map_cons, List.map_nil, if_neg h,
                  if_neg (mt hline.1 h)]

theorem foldl_step_beyond (es : List Element) (w : Walk) :
    (es.map (beyond p)).foldl Walk.step (w.beyond p) = (es.foldl Walk.step w).beyond p := by
  induction es generalizing w with
  | nil => rfl
  | cons e es ih => rw [List.map_cons, List.foldl_cons, step_beyond, ih, List.foldl_cons]

theorem walk_beyond (es : List Element) :
    (es.map (beyond p)).foldl Walk.step ⟨[], []⟩ = (es.foldl Walk.step ⟨[], []⟩).beyond p :=
  foldl_step_beyond p es ⟨[], []⟩

theorem attach_beyond (es : List Element) :
    attach (es.map (beyond p)) = (attach es).map (Node.beyond p) := by
  unfold attach
  rw [walk_beyond]
  obtain ⟨done, waiting⟩ := es.foldl Walk.step ⟨[], []⟩
  cases done with
  | nil => rfl
  | cons prev before => simp [Walk.finish, Walk.beyond, Node.addNotes_beyond]

end Element

end Counting

/-! ## Reading -/

namespace Reader

theorem noteAt_beyond (p q : Pos) (body : List Char) : noteAt (p.beyond q) body = (noteAt q body).beyond p := by
  simp only [noteAt, Note.beyond, Span.beyond, Pos.beyond_advanceOver]

/-- The token of a word that starts at another place. -/
theorem leaf_beyond {l : Lexeme} {p q : Pos} {t : Token} (hkind : t.kind = .atom ∨ t.kind = .string)
    (htoken : l.token? q = some t) :
    ∃ t', (t'.kind = .atom ∨ t'.kind = .string) ∧ l.token? (p.beyond q) = some t' ∧
      leaf t' = (leaf t).beyond p := by
  refine ⟨{ t with span := t.span.beyond p }, hkind, ?_, ?_⟩
  · obtain ⟨cs, rfl⟩ | ⟨body, rfl⟩ := eq_word hkind htoken
    all_goals
      cases htoken
      simp only [token?, Token.ofChars, Pos.beyond_advanceOver]
      rfl
  · rw [leaf, leaf, Node.make_beyond]
    congr 1
    split
    · rfl
    · unfold Kind.ofAtom
      repeat' split
      all_goals rfl

/-- A text that is read at one place is read at another, and gives the same counted from there. -/
theorem Parses.beyond {q : Pos} {ls : List Lexeme} {es : List Element} (h : Parses q ls es) (p : Pos) :
    Parses (p.beyond q) ls (es.map (Element.beyond p)) := by
  induction h with
  | nil q => exact .nil _
  | blank c _ ih =>
      rw [← Pos.beyond_advance] at ih
      exact .blank c ih
  | comment body _ ih =>
      rw [← Pos.beyond_advanceOver] at ih
      rw [List.map_cons, Element.beyond, ← noteAt_beyond]
      exact .comment body ih
  | word hkind htoken _ ih =>
      obtain ⟨t, hkind, htoken, hleaf⟩ := leaf_beyond (p := p) hkind htoken
      rw [← Pos.beyond_advanceOver] at ih
      rw [List.map_cons, Element.beyond, ← hleaf]
      exact .word hkind htoken ih
  | @list q r b inner ls es fs hstop _ _ ihinner ihrest =>
      rw [← Pos.beyond_advance] at ihinner
      have hstop' : p.beyond r = (p.beyond q).advanceOver (text (.opening b :: (inner ++ [.closing b]))) := by
        rw [hstop, Pos.beyond_advanceOver]
      rw [List.map_cons, Element.beyond, Node.make_beyond, ← recognise_beyond, ← Element.attach_beyond]
      exact .list b hstop' ihinner ihrest

/-- What is read at a place is what is read at the start of a text, counted from there. -/
theorem Parses.of_beyond {p q r : Pos} {ls : List Lexeme} {es : List Element} (h : Parses r ls es)
    (hr : r = p.beyond q) : ∃ fs, Parses q ls fs ∧ es = fs.map (Element.beyond p) := by
  induction h generalizing q with
  | nil r => exact ⟨[], .nil q, rfl⟩
  | blank c _ ih =>
      obtain ⟨fs, hfs, hes⟩ := ih (q := q.advance c) (by rw [hr, Pos.beyond_advance])
      exact ⟨fs, .blank c hfs, hes⟩
  | comment body _ ih =>
      obtain ⟨fs, hfs, hes⟩ := ih (q := q.advanceOver (';' :: body)) (by rw [hr, Pos.beyond_advanceOver])
      refine ⟨_, .comment body hfs, ?_⟩
      rw [List.map_cons, Element.beyond, ← noteAt_beyond, ← hr, hes]
  | @word r l t ls es hkind htoken _ ih =>
      obtain ⟨fs, hfs, hes⟩ := ih (q := q.advanceOver l.chars) (by rw [hr, Pos.beyond_advanceOver])
      obtain ⟨u, hu⟩ : ∃ u, l.token? q = some u := by
        obtain ⟨cs, rfl⟩ | ⟨body, rfl⟩ := eq_word hkind htoken <;> exact ⟨_, rfl⟩
      have hukind : u.kind = .atom ∨ u.kind = .string := by
        obtain ⟨cs, rfl⟩ | ⟨body, rfl⟩ := eq_word hkind htoken
        · cases hu
          exact .inl rfl
        · cases hu
          exact .inr rfl
      obtain ⟨t', -, ht', hleaf⟩ := leaf_beyond (p := p) hukind hu
      rw [← hr, htoken] at ht'
      cases ht'
      refine ⟨_, .word hukind hu hfs, ?_⟩
      rw [List.map_cons, Element.beyond, hleaf, hes]
  | @list r s b inner ls es gs hstop _ _ ihinner ihrest =>
      obtain ⟨fs, hfs, hes⟩ := ihinner (q := q.advance b.opener) (by rw [hr, Pos.beyond_advance])
      obtain ⟨fs', hfs', hgs⟩ := ihrest
        (q := q.advanceOver (text (.opening b :: (inner ++ [.closing b])))) (by rw [hstop, hr, Pos.beyond_advanceOver])
      refine ⟨_, .list b rfl hfs hfs', ?_⟩
      rw [List.map_cons, Element.beyond, Node.make_beyond, ← recognise_beyond, ← Element.attach_beyond, hes, hgs,
        Span.beyond, ← Pos.beyond_advanceOver, ← hr, ← hstop]

/-- The tokens of a list are its brackets and what is between them. -/
theorem tokens_brackets {p q : Pos} (b : Bracket) {inner : List Lexeme}
    (hq : q = p.advanceOver (text (.opening b :: (inner ++ [.closing b])))) (ls : List Lexeme) :
    ∃ o c : Token, tokens p (.opening b :: (inner ++ .closing b :: ls)) =
        (o :: (tokens (p.advance b.opener) inner ++ [c])) ++ tokens q ls ∧
      o.kind = .opening b ∧ c.kind = .closing b ∧ (⟨o.span.start, c.span.stop⟩ : Span) = ⟨p, q⟩ := by
  have hstop : q = ((p.advance b.opener).advanceOver (text inner)).advanceOver [b.closer] := by
    rw [hq, text_cons, text_append, Pos.advanceOver_append, Pos.advanceOver_append]
    rfl
  refine ⟨.ofChars (.opening b) p [b.opener],
    .ofChars (.closing b) ((p.advance b.opener).advanceOver (text inner)) [b.closer], ?_, rfl, rfl, ?_⟩
  · rw [tokens, tokens_append, tokens, hstop]
    simp [Lexeme.chars, Pos.advanceOver, token?]
  · rw [hstop]
    rfl

/-- What the grammar derives is what the reader takes. -/
theorem Parses.reads {p : Pos} {ls : List Lexeme} {es : List Element} (h : Parses p ls es) :
    Reads (tokens p ls) es := by
  induction h with
  | nil p => exact .nil
  | blank c _ ih => exact ih
  | comment body _ ih => exact (Reads.comment rfl).append ih
  | @word p l t ls es hkind htoken _ ih =>
      rw [tokens, htoken]
      exact (Reads.leaf hkind).append ih
  | @list p q b inner ls es fs hstop _ _ ihinner ihrest =>
      obtain ⟨o, c, htokens, ho, hc, hspan⟩ := tokens_brackets b hstop ls
      rw [htokens, ← hspan, ← es.reverse_reverse]
      exact (ihinner.list ho hc).append ihrest

end Reader

end TreeEdit
