import TreeEdit.Proofs.Grammar
import TreeEdit.Proofs.Inheritance

/-!
# Ranges of nodes that were read

The range of a node takes in its comment, and a comment may have come from another place than the
node: from the keyword of its list, from a header, from a list of bindings. What can still be said of
every node that was read is collected in `Tidy`. In particular the ranges of the parts of one node lie in its
span and do not interlock (`Beside`): the range of the first ends where that of the second starts or before, or
one of the two lies beside the code of the other and inside its range.
-/

namespace TreeEdit

open Reader Lexeme

/-! ## The ends of a comment -/

/-- Each end of the span is an end of one of the notes. -/
def Note.Ends (notes : List Note) (s : Span) : Prop :=
  (∃ t ∈ notes, t.span.start = s.start) ∧ ∃ t ∈ notes, t.span.stop = s.stop

theorem Note.Ends.mono {a b : List Note} (h : a ⊆ b) {s : Span} (hs : Note.Ends a s) : Note.Ends b s := by
  obtain ⟨⟨t, ht, hstart⟩, u, hu, hstop⟩ := hs
  exact ⟨⟨t, h ht, hstart⟩, u, h hu, hstop⟩

theorem Pos.earlier_eq_or (p q : Pos) : p.earlier q = p ∨ p.earlier q = q := by
  unfold earlier
  split
  · exact .inl rfl
  · exact .inr rfl

theorem Pos.later_eq_or (p q : Pos) : p.later q = p ∨ p.later q = q := by
  unfold later
  split
  · exact .inr rfl
  · exact .inl rfl

theorem Note.ends_union {notes : List Note} {s : Span} (hs : Note.Ends notes s) {t : Note}
    (ht : t ∈ notes) : Note.Ends notes (s.union t.span) := by
  constructor
  · rcases s.start.earlier_eq_or t.span.start with h | h
    · rw [Span.union, h]
      exact hs.1
    · exact ⟨t, ht, h.symm⟩
  · rcases s.stop.later_eq_or t.span.stop with h | h
    · rw [Span.union, h]
      exact hs.2
    · exact ⟨t, ht, h.symm⟩

theorem Comment.ends_ofNotes (first : Note) (rest : List Note) :
    Note.Ends (first :: rest) (Comment.ofNotes first rest).span := by
  have hfold : ∀ (ts : List Note) (s : Span), Note.Ends (first :: rest) s → (∀ t ∈ ts, t ∈ first :: rest) →
      Note.Ends (first :: rest) (ts.foldl (fun span note => span.union note.span) s) := by
    intro ts
    induction ts with
    | nil => exact fun _ hs _ => hs
    | cons t ts ih =>
        intro s hs hts
        obtain ⟨ht, hts⟩ := List.forall_mem_cons.1 hts
        exact ih _ (Note.ends_union hs ht) hts
  refine hfold rest first.span ?_ fun t ht => List.mem_cons_of_mem _ ht
  exact ⟨⟨first, List.mem_cons_self, rfl⟩, first, List.mem_cons_self, rfl⟩

namespace Node

theorem ends_addNotes (n : Node) (notes : List Note) :
    ∀ c ∈ (n.addNotes notes).comment, Note.Ends (notes ++ (n.comment.map Comment.note).toList) c.span := by
  unfold addNotes
  split
  · rename_i hempty
    obtain rfl : notes = [] := List.isEmpty_iff.1 hempty
    intro c hc
    exact ⟨⟨c.note, by simp [Option.mem_def.1 hc], rfl⟩, c.note, by simp [Option.mem_def.1 hc], rfl⟩
  · rename_i hempty
    have hmem : ∀ t, t ∈ Note.sorted (notes ++ (n.comment.map Comment.note).toList) →
        t ∈ notes ++ (n.comment.map Comment.note).toList := by
      intro t ht
      rwa [Note.sorted, List.mem_mergeSort] at ht
    split
    · rename_i hsorted
      have hlength := congrArg List.length hsorted
      rw [Note.sorted, List.length_mergeSort, List.length_append, List.length_nil] at hlength
      have hnil : notes = [] := List.length_eq_zero_iff.1 (by omega)
      exact absurd (by rw [hnil]; rfl) hempty
    · rename_i first rest hsorted
      rintro c ⟨⟩
      refine (Comment.ends_ofNotes first rest).mono fun t ht => hmem t ?_
      rwa [hsorted]

theorem Hung.ends {n m : Node} {notes : List Note} (h : n.Hung notes m) (hn : n.comment = none) :
    ∀ c ∈ m.comment, Note.Ends notes c.span := by
  induction h with
  | bare => simp [hn]
  | @add m notes more _ ih =>
      intro c hc
      obtain ⟨⟨t, ht, hstart⟩, u, hu, hstop⟩ := ends_addNotes m more c hc
      have hback : ∀ {t : Note}, t ∈ more ++ (m.comment.map Comment.note).toList →
          (∃ v ∈ notes ++ more, v.span.start = t.span.start) ∧
            ∃ v ∈ notes ++ more, v.span.stop = t.span.stop := by
        intro t ht
        rcases List.mem_append.1 ht with ht | ht
        · exact ⟨⟨t, List.mem_append_right _ ht, rfl⟩, t, List.mem_append_right _ ht, rfl⟩
        · simp only [Option.mem_toList, Option.map_eq_some_iff] at ht
          obtain ⟨d, hd, rfl⟩ := ht
          exact (ih d hd).mono (List.subset_append_left _ _)
      refine ⟨?_, ?_⟩
      · rw [← hstart]
        exact (hback ht).1
      · rw [← hstop]
        exact (hback hu).2

theorem range_start_le (n : Node) : n.range.start ≤ n.span.start := by
  unfold range
  split
  · simp only [Span.union, Pos.earlier]
    split
    · exact le_refl _
    · rename_i h
      exact (not_le.1 h).le
  · exact le_refl _

theorem le_range_stop (n : Node) : n.span.stop ≤ n.range.stop := by
  unfold range
  split
  · simp only [Span.union, Pos.later]
    split
    · assumption
    · exact le_refl _
  · exact le_refl _

/-- Each end of the range of a node is an end of its span or of its comment. -/
theorem range_start_eq_or (n : Node) :
    n.range.start = n.span.start ∨ ∃ c ∈ n.comment, n.range.start = c.span.start := by
  unfold range
  cases hc : n.comment with
  | none => exact .inl rfl
  | some c =>
      rcases n.span.start.earlier_eq_or c.span.start with h | h
      · exact .inl h
      · exact .inr ⟨c, rfl, h⟩

theorem range_stop_eq_or (n : Node) :
    n.range.stop = n.span.stop ∨ ∃ c ∈ n.comment, n.range.stop = c.span.stop := by
  unfold range
  cases hc : n.comment with
  | none => exact .inl rfl
  | some c =>
      rcases n.span.stop.later_eq_or c.span.stop with h | h
      · exact .inl h
      · exact .inr ⟨c, rfl, h⟩

end Node

/-! ## Elements in a row -/

namespace Element

/-- The span of an element. -/
def span : Element → Span
  | expr n => n.span
  | note t => t.span

/-- An expression has no comment of its own yet. -/
def Fresh : Element → Prop
  | expr n => n.comment = none
  | note _ => True

/-- Elements one behind the other, from a place on up to another. -/
structure Rowed (p : Pos) (es : List Element) (q : Pos) : Prop where
  fresh : ∀ e ∈ es, e.Fresh
  start : ∀ e ∈ es, p ≤ e.span.start
  proper : ∀ e ∈ es, e.span.start < e.span.stop
  stop : ∀ e ∈ es, e.span.stop ≤ q
  ordered : es.Pairwise fun a b => a.span.stop ≤ b.span.start

theorem Rowed.nil {p q : Pos} : Rowed p [] q :=
  ⟨by simp, by simp, by simp, by simp, .nil⟩

theorem Rowed.cons {p q r : Pos} {e : Element} {es : List Element} (hfresh : e.Fresh)
    (hstart : p ≤ e.span.start) (hproper : e.span.start < e.span.stop) (hstop : e.span.stop ≤ q)
    (hpq : p ≤ q) (h : Rowed q es r) (hqr : q ≤ r) : Rowed p (e :: es) r := by
  refine ⟨List.forall_mem_cons.2 ⟨hfresh, h.fresh⟩, List.forall_mem_cons.2 ⟨hstart, ?_⟩,
    List.forall_mem_cons.2 ⟨hproper, h.proper⟩, List.forall_mem_cons.2 ⟨hstop.trans hqr, h.stop⟩,
    List.pairwise_cons.2 ⟨?_, h.ordered⟩⟩
  · exact fun e he => hpq.trans (h.start e he)
  · exact fun e he => hstop.trans (h.start e he)

theorem Rowed.mono {p p' q : Pos} {es : List Element} (h : Rowed p es q) (hp : p' ≤ p) : Rowed p' es q :=
  ⟨h.fresh, fun e he => hp.trans (h.start e he), h.proper, h.stop, h.ordered⟩

end Element

theorem Lexeme.chars_ne_nil {l : Lexeme} (h : l.Ok) : l.chars ≠ [] := by
  obtain ⟨c, rest, hchars, -⟩ := head_of_ok h
  rw [hchars]
  exact List.cons_ne_nil c rest

namespace Reader

/-- The characters of a comment and the blanks behind it. -/
theorem comment_eq_append (body : List Char) :
    ∃ blanks, ';' :: body = dropBlanksEnd (';' :: body) ++ blanks ∧ ∀ c ∈ blanks, isBlank c = true :=
  ⟨List.rtakeWhile isBlank (';' :: body), List.rdropWhile_append_rtakeWhile.symm,
    fun _ hc => List.mem_rtakeWhile_imp hc⟩

theorem noteAt_span (p : Pos) (body : List Char) :
    p < (noteAt p body).span.stop ∧ (noteAt p body).span.stop ≤ p.advanceOver (';' :: body) := by
  refine ⟨Pos.lt_advanceOver (dropBlanksEnd_comment_ne_nil body) p, ?_⟩
  obtain ⟨blanks, hbody, -⟩ := comment_eq_append body
  rw [hbody, Pos.advanceOver_append]
  exact Pos.le_advanceOver _ _

open Element in
/-- What the grammar derives stands in a row. -/
theorem Parses.rowed {p : Pos} {ls : List Lexeme} {es : List Element} (h : Parses p ls es)
    (hok : ∀ l ∈ ls, l.Ok) : Rowed p es (p.advanceOver (text ls)) := by
  induction h with
  | nil p => exact .nil
  | @blank p c ls es _ ih =>
      exact (ih (List.forall_mem_cons.1 hok).2).mono (p.lt_advance c).le
  | @comment p body ls es _ ih =>
      obtain ⟨hlt, hle⟩ := noteAt_span p body
      rw [text_cons, Pos.advanceOver_append]
      exact .cons trivial (le_refl p) hlt hle (hlt.le.trans hle) (ih (List.forall_mem_cons.1 hok).2)
        (Pos.le_advanceOver _ _)
  | @word p l t ls es hkind htoken _ ih =>
      obtain ⟨hl, hls⟩ := List.forall_mem_cons.1 hok
      obtain ⟨hspan, -⟩ := spans_leaf hkind htoken
      rw [text_cons, text_nil, List.append_nil] at hspan
      have hlt : p < p.advanceOver l.chars := Pos.lt_advanceOver (chars_ne_nil hl) p
      rw [text_cons, Pos.advanceOver_append]
      refine .cons rfl ?_ ?_ ?_ hlt.le (ih hls) (Pos.le_advanceOver _ _)
      · rw [span, hspan]
      · rw [span, hspan]
        exact hlt
      · rw [span, hspan]
  | @list p q b inner ls es fs hstop _ _ _ ih =>
      have hlt : p < q := by
        rw [hstop]
        exact Pos.lt_advanceOver (by simp [chars]) p
      have hwhole : p.advanceOver (text (.opening b :: (inner ++ .closing b :: ls))) =
          q.advanceOver (text ls) := by
        rw [hstop, ← Pos.advanceOver_append, ← text_append]
        simp
      rw [hwhole]
      refine .cons rfl (le_refl p) hlt (le_refl q) hlt.le (ih ?_) (Pos.le_advanceOver _ _)
      intro l hl
      exact hok l (by simp [hl])

end Reader

/-! ## Expressions with their comments in a row -/

/-- The node has code, and with its comment it lies between the places. -/
structure Node.Between (p q : Pos) (n : Node) : Prop where
  start : p ≤ n.range.start
  proper : n.span.start < n.span.stop
  stop : n.range.stop ≤ q

theorem Node.Between.mono {p p' q q' : Pos} {n : Node} (h : n.Between p q) (hp : p' ≤ p) (hq : q ≤ q') :
    n.Between p' q' :=
  ⟨hp.trans h.start, h.proper, h.stop.trans hq⟩

theorem Node.Between.range_le {p q : Pos} {n : Node} (h : n.Between p q) : n.range.start ≤ n.range.stop :=
  n.range_start_le.trans (h.proper.le.trans n.le_range_stop)

/-- The comment of the node does not start inside its code. -/
def Node.StartsOutside (n : Node) : Prop :=
  ∀ c ∈ n.comment, c.span.start ≤ n.span.start ∨ n.span.stop ≤ c.span.start

/-- The comment of the node does not end inside its code. -/
def Node.StopsOutside (n : Node) : Prop :=
  ∀ c ∈ n.comment, c.span.stop ≤ n.span.start ∨ n.span.stop ≤ c.span.stop

/-- Expressions with their comments one behind the other, from a place on up to another. -/
structure Spaced (p : Pos) (ns : List Node) (q : Pos) : Prop where
  between : ∀ n ∈ ns, n.Between p q
  outside : ∀ n ∈ ns, n.StopsOutside
  ordered : ns.Pairwise fun a b => a.range.stop ≤ b.range.start

theorem Spaced.nil {p q : Pos} : Spaced p [] q := ⟨by simp, by simp, .nil⟩

theorem Spaced.tail {p q : Pos} {n : Node} {ns : List Node} (h : Spaced p (n :: ns) q) : Spaced p ns q :=
  ⟨(List.forall_mem_cons.1 h.between).2, (List.forall_mem_cons.1 h.outside).2, (List.pairwise_cons.1 h.ordered).2⟩

theorem Spaced.mono {p p' q q' : Pos} {ns : List Node} (h : Spaced p ns q) (hp : p' ≤ p) (hq : q ≤ q') :
    Spaced p' ns q' :=
  ⟨fun n hn => (h.between n hn).mono hp hq, h.outside, h.ordered⟩

namespace Element

theorem Rowed.left {p q : Pos} {a b : List Element} (h : Rowed p (a ++ b) q) : Rowed p a q :=
  ⟨fun e he => h.fresh e (List.mem_append_left _ he), fun e he => h.start e (List.mem_append_left _ he),
    fun e he => h.proper e (List.mem_append_left _ he), fun e he => h.stop e (List.mem_append_left _ he),
    (List.pairwise_append.1 h.ordered).1⟩

theorem Rowed.right {p q : Pos} {a b : List Element} (h : Rowed p (a ++ b) q) : Rowed p b q :=
  ⟨fun e he => h.fresh e (List.mem_append_right _ he), fun e he => h.start e (List.mem_append_right _ he),
    fun e he => h.proper e (List.mem_append_right _ he), fun e he => h.stop e (List.mem_append_right _ he),
    (List.pairwise_append.1 h.ordered).2.1⟩

/-- Each end of the range of an expression is an end of an element of its block. -/
theorem Block.range_mem {es : List Element} {m : Node} (h : Block es m) (hfresh : ∀ e ∈ es, e.Fresh) :
    (∃ e ∈ es, e.span.start = m.range.start) ∧ ∃ e ∈ es, e.span.stop = m.range.stop := by
  obtain ⟨n, before, after, rfl, hhung⟩ := h
  have hn : expr n ∈ before.map note ++ expr n :: after.map note := by simp
  have hspan : m.span = n.span := hhung.sameShape.1
  have hends := hhung.ends (hfresh _ hn)
  have hnote : ∀ t ∈ before ++ after, note t ∈ before.map note ++ expr n :: after.map note := by
    intro t ht
    rcases List.mem_append.1 ht with ht | ht
    · exact List.mem_append_left _ (List.mem_map_of_mem ht)
    · exact List.mem_append_right _ (List.mem_cons_of_mem _ (List.mem_map_of_mem ht))
  constructor
  · rcases m.range_start_eq_or with hm | ⟨c, hc, hm⟩
    · exact ⟨expr n, hn, by rw [hm, hspan]; rfl⟩
    · obtain ⟨⟨t, ht, hstart⟩, -⟩ := hends c hc
      exact ⟨note t, hnote t ht, by rw [hm, ← hstart]; rfl⟩
  · rcases m.range_stop_eq_or with hm | ⟨c, hc, hm⟩
    · exact ⟨expr n, hn, by rw [hm, hspan]; rfl⟩
    · obtain ⟨-, t, ht, hstop⟩ := hends c hc
      exact ⟨note t, hnote t ht, by rw [hm, ← hstop]; rfl⟩

theorem Block.outside {p q : Pos} {es : List Element} {m : Node} (h : Block es m) (hrow : Rowed p es q) :
    m.StartsOutside ∧ m.StopsOutside := by
  obtain ⟨n, before, after, rfl, hhung⟩ := h
  have hends := hhung.ends (hrow.fresh (expr n) (by simp))
  obtain ⟨-, hcons, hcross⟩ := List.pairwise_append.1 hrow.ordered
  have hbefore : ∀ v ∈ before, v.span.stop ≤ n.span.start := fun v hv =>
    hcross (note v) (List.mem_map_of_mem hv) (expr n) List.mem_cons_self
  have hafter : ∀ v ∈ after, n.span.stop ≤ v.span.start := fun v hv =>
    (List.pairwise_cons.1 hcons).1 (note v) (List.mem_map_of_mem hv)
  have hproper : ∀ v ∈ before ++ after, v.span.start < v.span.stop := fun v hv =>
    hrow.proper (note v) (by rcases List.mem_append.1 hv with hv | hv <;> simp [hv])
  rw [Node.StartsOutside, Node.StopsOutside, hhung.sameShape.1]
  constructor
  · intro c hc
    obtain ⟨⟨t, ht, hstart⟩, -⟩ := hends c hc
    rw [← hstart]
    rcases List.mem_append.1 ht with hmem | hmem
    · exact .inl ((hproper t ht).le.trans (hbefore t hmem))
    · exact .inr (hafter t hmem)
  · intro c hc
    obtain ⟨-, u, hu, hstop⟩ := hends c hc
    rw [← hstop]
    rcases List.mem_append.1 hu with hmem | hmem
    · exact .inl (hbefore u hmem)
    · exact .inr ((hafter u hmem).trans (hproper u hu).le)

theorem Block.span_mem {es : List Element} {m : Node} (h : Block es m) : ∃ e ∈ es, e.span = m.span := by
  obtain ⟨n, before, after, rfl, hhung⟩ := h
  exact ⟨expr n, by simp, hhung.sameShape.1.symm⟩

theorem blocks_spaced {p q : Pos} {blocks : List (List Element)} {ns : List Node}
    (h : List.Forall₂ Block blocks ns) (hrow : Rowed p blocks.flatten q) :
    Spaced p ns q ∧ (∀ n ∈ ns, n.StartsOutside) ∧
      ∀ n ∈ ns, ∃ e ∈ blocks.flatten, e.span.start = n.range.start := by
  induction h with
  | nil => exact ⟨.nil, by simp, by simp⟩
  | @cons block m blocks ms hblock _ ih =>
      rw [List.flatten_cons] at hrow
      obtain ⟨hspaced, houtside, hstarts⟩ := ih hrow.right
      obtain ⟨⟨first, hfirst, hstart⟩, last, hlast, hstop⟩ := hblock.range_mem hrow.left.fresh
      obtain ⟨own, hown, hspan⟩ := hblock.span_mem
      have hordered : ∀ n ∈ ms, m.range.stop ≤ n.range.start := by
        intro n hn
        obtain ⟨e, he, hn⟩ := hstarts n hn
        rw [← hstop, ← hn]
        exact (List.pairwise_append.1 hrow.ordered).2.2 last hlast e he
      have hbetween : m.Between p q :=
        ⟨hstart ▸ hrow.left.start first hfirst, hspan ▸ hrow.left.proper own hown, hstop ▸ hrow.left.stop last hlast⟩
      obtain ⟨hbegins, hends⟩ := hblock.outside hrow.left
      refine ⟨?_, List.forall_mem_cons.2 ⟨hbegins, houtside⟩, ?_⟩
      · exact ⟨List.forall_mem_cons.2 ⟨hbetween, hspaced.between⟩, List.forall_mem_cons.2 ⟨hends, hspaced.outside⟩,
          List.pairwise_cons.2 ⟨hordered, hspaced.ordered⟩⟩
      · rw [List.flatten_cons]
        refine List.forall_mem_cons.2 ⟨⟨first, List.mem_append_left _ hfirst, hstart⟩, ?_⟩
        intro n hn
        obtain ⟨e, he, hn⟩ := hstarts n hn
        exact ⟨e, List.mem_append_right _ he, hn⟩

theorem Rowed.attach {p q : Pos} {es : List Element} (h : Rowed p es q) : Spaced p (attach es) q := by
  obtain ⟨blocks, left, hes, hblocks, -⟩ := attach_blocks es
  rw [hes] at h
  exact (blocks_spaced hblocks h.left).1

theorem Rowed.attach_startsOutside {p q : Pos} {es : List Element} (h : Rowed p es q) :
    ∀ n ∈ Element.attach es, n.StartsOutside := by
  obtain ⟨blocks, left, hes, hblocks, -⟩ := attach_blocks es
  rw [hes] at h
  exact (blocks_spaced hblocks h.left).2.1

end Element

/-! ## The parts of a node -/

/-- The node stands in brackets. -/
def Node.Bracketed (n : Node) : Prop := n.kind.isList

/-- The first node lies in the range of the second, with its comment, in front of its code or behind it. -/
def Node.InMargin (a b : Node) : Prop :=
  b.range.contains a.range ∧ (a.range.stop ≤ b.span.start ∨ b.span.stop ≤ a.range.start)

/-- The range of the first node ends where that of the second starts, or before; or one of the two lies in the
margin of the other. Only an atom can be the first and lie in the margin of the second. -/
def Node.Beside (a b : Node) : Prop :=
  a.range.stop ≤ b.range.start ∨ b.InMargin a ∨ ¬ a.Bracketed ∧ a.InMargin b

/-- Unless the range of the first list reaches into the second, it ends where that of the second starts,
or before. -/
def Node.Apart (a b : Node) : Prop :=
  a.Bracketed → b.Bracketed → b.span.start < a.range.stop ∨ a.range.stop ≤ b.range.start

/-- What is sure of the places of the parts of a list that was read and takes up the span. -/
structure Kind.Laid (s : Span) (k : Kind Node) : Prop where
  between : ∀ m ∈ k.parts, m.Between s.start s.stop
  beside : k.parts.Pairwise Node.Beside
  inside : ∀ func args, k = .app func args → Spaced s.start (func :: args) s.stop
  params : ∀ name params body, k = .functionDef name params body →
    params.range = Reader.paramsSpan name params.header

theorem Span.contains_iff {outer inner : Span} :
    outer.contains inner = true ↔ outer.start ≤ inner.start ∧ inner.stop ≤ outer.stop := by
  simp [contains]

theorem Node.Beside.apart {a b : Node} (h : a.Beside b) (hb : b.span.start < b.span.stop) : a.Apart b := by
  intro hla _
  rcases h with hle | ⟨hin, -⟩ | ⟨hatom, -⟩
  · exact .inr hle
  · exact .inl (hb.trans_le (b.le_range_stop.trans (Span.contains_iff.1 hin).2))
  · exact absurd hla hatom

theorem Spaced.beside {p q : Pos} {ns : List Node} (h : Spaced p ns q) : ns.Pairwise Node.Beside :=
  h.ordered.imp .inl

theorem not_bracketed_of_symbol? {n : Node} (h : n.symbol?.isSome) : ¬ n.Bracketed := by
  obtain ⟨name, hname⟩ := Option.isSome_iff_exists.1 h
  simp [Node.Bracketed, Node.kind_of_symbol? hname, Kind.isList]

/-- The second node has the span and the comment of the first. -/
def Node.SamePlace (n m : Node) : Prop := m.span = n.span ∧ m.comment = n.comment

theorem Node.SamePlace.range_eq {n m : Node} (h : n.SamePlace m) : m.range = n.range := by
  rw [range, range, h.1, h.2]

theorem samePlace_rekind (n : Node) (k : Kind Node) : n.SamePlace (rekind n k) := ⟨rfl, rfl⟩

theorem Spaced.cons {p q : Pos} {n : Node} {ns : List Node} (hbetween : n.Between p q)
    (houtside : n.StopsOutside) (hordered : ∀ m ∈ ns, n.range.stop ≤ m.range.start) (h : Spaced p ns q) :
    Spaced p (n :: ns) q :=
  ⟨List.forall_mem_cons.2 ⟨hbetween, h.between⟩, List.forall_mem_cons.2 ⟨houtside, h.outside⟩,
    List.pairwise_cons.2 ⟨hordered, h.ordered⟩⟩

theorem Spaced.samePlace {p q : Pos} {ns ms : List Node} (hsame : List.Forall₂ Node.SamePlace ns ms)
    (h : Spaced p ns q) : Spaced p ms q := by
  induction hsame with
  | nil => exact .nil
  | @cons n m ns ms hnm hsame ih =>
      obtain ⟨hspan, hcomment⟩ := hnm
      have hrange : m.range = n.range := Node.SamePlace.range_eq ⟨hspan, hcomment⟩
      have hordered : ∀ m' ∈ ms, n.range.stop ≤ m'.range.start := by
        have hns := (List.pairwise_cons.1 h.ordered).1
        clear ih h
        induction hsame with
        | nil => simp
        | cons hab _ ih =>
            obtain ⟨ha, has⟩ := List.forall_mem_cons.1 hns
            exact List.forall_mem_cons.2 ⟨hab.range_eq ▸ ha, ih has⟩
      obtain ⟨hstart, hproper, hstop⟩ := h.between n List.mem_cons_self
      refine .cons ?_ ?_ ?_ (ih h.tail)
      · rw [← hrange] at hstart hstop
        rw [← hspan] at hproper
        exact ⟨hstart, hproper, hstop⟩
      · rw [Node.StopsOutside, hspan, hcomment]
        exact h.outside n List.mem_cons_self
      · rw [hrange]
        exact hordered

namespace Node

theorem comment_stop_le_range_stop {n : Node} {c : Comment} (h : c ∈ n.comment) :
    c.span.stop ≤ n.range.stop := by
  rw [range, Option.mem_def.1 h]
  simp only [Span.union, Pos.later]
  split
  · exact le_refl _
  · rename_i hle
    exact (not_le.1 hle).le

theorem range_start_le_comment_start {n : Node} {c : Comment} (h : c ∈ n.comment) :
    n.range.start ≤ c.span.start := by
  rw [range, Option.mem_def.1 h]
  simp only [Span.union, Pos.earlier]
  split
  · assumption
  · exact le_refl _

theorem comment_start_addNotes {n : Node} {notes : List Note} {c : Comment}
    (h : c ∈ (n.addNotes notes).comment) :
    (∃ t ∈ notes, c.span.start = t.span.start) ∨ ∃ d ∈ n.comment, c.span.start = d.span.start := by
  obtain ⟨⟨t, ht, hstart⟩, -⟩ := ends_addNotes n notes c h
  rcases List.mem_append.1 ht with ht | ht
  · exact .inl ⟨t, ht, hstart.symm⟩
  · simp only [Option.mem_toList, Option.map_eq_some_iff] at ht
    obtain ⟨d, hd, rfl⟩ := ht
    exact .inr ⟨d, hd, hstart.symm⟩

theorem comment_stop_addNotes {n : Node} {notes : List Note} {c : Comment}
    (h : c ∈ (n.addNotes notes).comment) :
    (∃ t ∈ notes, c.span.stop = t.span.stop) ∨ ∃ d ∈ n.comment, c.span.stop = d.span.stop := by
  obtain ⟨-, t, ht, hstop⟩ := ends_addNotes n notes c h
  rcases List.mem_append.1 ht with ht | ht
  · exact .inl ⟨t, ht, hstop.symm⟩
  · simp only [Option.mem_toList, Option.map_eq_some_iff] at ht
    obtain ⟨d, hd, rfl⟩ := ht
    exact .inr ⟨d, hd, hstop.symm⟩

/-- More notes move the end of a range at most to the end of one of them. -/
theorem range_stop_addNotes (n : Node) (notes : List Note) :
    (n.addNotes notes).range.stop ≤ n.range.stop ∨
      ∃ t ∈ notes, (n.addNotes notes).range.stop = t.span.stop := by
  rcases (n.addNotes notes).range_stop_eq_or with h | ⟨c, hc, h⟩
  · left
    rw [h, span_addNotes]
    exact n.le_range_stop
  · rcases comment_stop_addNotes hc with ⟨t, ht, hstop⟩ | ⟨d, hd, hstop⟩
    · exact .inr ⟨t, ht, h.trans hstop⟩
    · left
      rw [h, hstop]
      exact comment_stop_le_range_stop hd

/-- More notes move the start of a range at most to the start of one of them. -/
theorem range_start_addNotes (n : Node) (notes : List Note) :
    n.range.start ≤ (n.addNotes notes).range.start ∨
      ∃ t ∈ notes, (n.addNotes notes).range.start = t.span.start := by
  rcases (n.addNotes notes).range_start_eq_or with h | ⟨c, hc, h⟩
  · left
    rw [h, span_addNotes]
    exact n.range_start_le
  · rcases comment_start_addNotes hc with ⟨t, ht, hstart⟩ | ⟨d, hd, hstart⟩
    · exact .inr ⟨t, ht, h.trans hstart⟩
    · left
      rw [h, hstart]
      exact range_start_le_comment_start hd

theorem Between.addNotes {p q : Pos} {n : Node} {notes : List Note} (h : n.Between p q)
    (hnotes : ∀ t ∈ notes, p ≤ t.span.start ∧ t.span.stop ≤ q) : (n.addNotes notes).Between p q := by
  refine ⟨?_, ?_, ?_⟩
  · rcases n.range_start_addNotes notes with hle | ⟨t, ht, hstart⟩
    · exact h.start.trans hle
    · rw [hstart]
      exact (hnotes t ht).1
  · rw [span_addNotes]
    exact h.proper
  · rcases n.range_stop_addNotes notes with hle | ⟨t, ht, hstop⟩
    · exact hle.trans h.stop
    · rw [hstop]
      exact (hnotes t ht).2

/-- The comment of a node, handed on to another one. -/
theorem mem_comment_notes {n : Node} {t : Note} (h : t ∈ (n.comment.map Comment.note).toList) :
    ∃ c ∈ n.comment, t = c.note := by
  simp only [Option.mem_toList, Option.map_eq_some_iff] at h
  obtain ⟨c, hc, rfl⟩ := h
  exact ⟨c, hc, rfl⟩

theorem comment_notes_in_range {n : Node} :
    ∀ t ∈ (n.comment.map Comment.note).toList, n.range.start ≤ t.span.start ∧ t.span.stop ≤ n.range.stop := by
  intro t ht
  obtain ⟨c, hc, rfl⟩ := mem_comment_notes ht
  exact ⟨range_start_le_comment_start hc, comment_stop_le_range_stop hc⟩

end Node

namespace Reader

/-- The comment of a keyword ends before the next expression starts. -/
theorem comment_stop_le_next {p q : Pos} {keyword next : Node} {rest : List Node}
    (h : Spaced p (keyword :: next :: rest) q) {c : Comment} (hc : c ∈ keyword.comment) :
    c.span.stop ≤ next.span.start :=
  calc c.span.stop
    _ ≤ keyword.range.stop := Node.comment_stop_le_range_stop hc
    _ ≤ next.range.start := (List.pairwise_cons.1 h.ordered).1 next List.mem_cons_self
    _ ≤ next.span.start := next.range_start_le

/-- The expressions behind a keyword stand in a row even when its comment has been passed on. -/
theorem passKeywordComment_spaced {p q : Pos} {items : List Node} (h : Spaced p items q) :
    Spaced p ((passKeywordComment items).drop 1) q := by
  rcases passKeywordComment_cases items with hpass | ⟨keyword, next, rest, c, rfl, hc, hpass⟩
  · rw [hpass]
    cases items with
    | nil => exact h
    | cons head items => exact h.tail
  · rw [hpass, List.drop_one, List.tail_cons]
    have hkeyword := comment_stop_le_next h hc
    have hbetween := h.between keyword List.mem_cons_self
    have hnext := h.between next (by simp)
    have hstop : (next.addNotes [c.note]).range.stop ≤ next.range.stop := by
      rcases next.range_stop_addNotes [c.note] with hle | ⟨t, ht, hstop⟩
      · exact hle
      · rw [List.mem_singleton] at ht
        rw [hstop, ht]
        exact (hkeyword.trans hnext.proper.le).trans next.le_range_stop
    refine .cons (hnext.addNotes ?_) ?_ ?_ h.tail.tail
    · intro t ht
      rw [List.mem_singleton.1 ht]
      exact ⟨hbetween.start.trans (Node.range_start_le_comment_start hc),
        (Node.comment_stop_le_range_stop hc).trans hbetween.stop⟩
    · intro d hd
      rw [Node.span_addNotes]
      rcases Node.comment_stop_addNotes hd with ⟨t, ht, hstop⟩ | ⟨e, he, hstop⟩
      · rw [List.mem_singleton] at ht
        rw [hstop, ht]
        exact .inl hkeyword
      · rw [hstop]
        exact h.outside next (by simp) e he
    · exact fun m hm => hstop.trans ((List.pairwise_cons.1 h.tail.ordered).1 m hm)

/-- A keyword that has passed its comment on lies beside what follows it, if need be in the margin of the next
expression. -/
theorem passKeywordComment_beside {p q : Pos} {items : List Node} (h : Spaced p items q)
    (houtside : ∀ n ∈ items, n.StartsOutside) (hatom : ∀ n ∈ items.head?, ¬ n.Bracketed) :
    (passKeywordComment items).Pairwise Node.Beside ∧ ∀ n ∈ passKeywordComment items, n.Between p q := by
  have hpassed := passKeywordComment_spaced h
  rcases passKeywordComment_cases items with hpass | ⟨keyword, next, rest, c, rfl, hc, hpass⟩
  · rw [hpass]
    exact ⟨h.beside, h.between⟩
  · rw [hpass, List.drop_one, List.tail_cons] at hpassed
    have hbetween := h.between keyword List.mem_cons_self
    have hkeyword : (keyword.withComment none).range = keyword.span := rfl
    obtain ⟨hnext, hrest⟩ := List.forall_mem_cons.1 (List.pairwise_cons.1 h.ordered).1
    rw [hpass]
    refine ⟨List.pairwise_cons.2 ⟨List.forall_mem_cons.2 ⟨?_, fun m hm => .inl ?_⟩, hpassed.beside⟩,
      List.forall_mem_cons.2 ⟨⟨?_, hbetween.proper, ?_⟩, hpassed.between⟩⟩
    · have hnext' : keyword.span.stop ≤ next.span.start :=
        keyword.le_range_stop.trans (hnext.trans next.range_start_le)
      rcases next.range_start_addNotes [c.note] with hle | ⟨t, ht, hstart⟩
      · left
        rw [hkeyword]
        exact keyword.le_range_stop.trans (hnext.trans hle)
      · rw [List.mem_singleton] at ht
        subst ht
        rcases houtside keyword List.mem_cons_self c hc with hfront | hbehind
        · -- The comment started in front of the keyword.
          refine .inr (.inr ⟨hatom keyword rfl, Span.contains_iff.2 ⟨?_, ?_⟩, .inl ?_⟩)
          · rw [hstart, hkeyword]
            exact hfront
          · calc keyword.span.stop
              _ ≤ next.span.start := hnext'
              _ ≤ next.span.stop := (h.between next (by simp)).proper.le
              _ = (next.addNotes [c.note]).span.stop := by rw [Node.span_addNotes]
              _ ≤ (next.addNotes [c.note]).range.stop := Node.le_range_stop _
          · rw [hkeyword, Node.span_addNotes]
            exact hnext'
        · left
          rw [hkeyword, hstart]
          exact hbehind
    · rw [hkeyword]
      exact keyword.le_range_stop.trans (hrest m hm)
    · rw [hkeyword]
      exact hbetween.start.trans keyword.range_start_le
    · rw [hkeyword]
      exact keyword.le_range_stop.trans hbetween.stop

variable {p q : Pos} {s : Span}

theorem samePlace_clause {n c : Node} (h : clause? n = some c) : n.SamePlace c := by
  obtain ⟨test, body, -, rfl⟩ := clause?_eq_some h
  exact samePlace_rekind n _

theorem samePlace_binding {n b : Node} (h : binding? n = some b) : n.SamePlace b := by
  obtain ⟨name, value, -, -, rfl⟩ := binding?_eq_some h
  exact samePlace_rekind n _

theorem samePlaces_second (n m : Node) (k : Kind Node) :
    List.Forall₂ Node.SamePlace [n, m] [n, rekind m k] :=
  .cons ⟨rfl, rfl⟩ (.cons (samePlace_rekind m k) .nil)

theorem samePlaces_first (n m : Node) (k : Kind Node) :
    List.Forall₂ Node.SamePlace [n, m] [rekind n k, m] :=
  .cons (samePlace_rekind n k) (.cons ⟨rfl, rfl⟩ .nil)

/-- Parts in a row, in a form that is neither an application nor a function. -/
theorem laid_of_spaced {k : Kind Node} (h : Spaced s.start k.parts s.stop) (happ : ∀ func args, k ≠ .app func args)
    (hfun : ∀ name params body, k ≠ .functionDef name params body) : k.Laid s :=
  ⟨h.between, h.beside, fun func args hk => absurd hk (happ func args),
    fun name params body hk => absurd hk (hfun name params body)⟩

/-- The comment of a list, moved to its first element, leads outside the list: in front of it, or behind it and
then over the other elements. -/
theorem opened_beside {list body first : Node} {rest : List Node}
    (hin : Spaced list.span.start (first :: rest) list.span.stop) (hitems : Spaced p [list, body] q) :
    (first.addNotes (list.comment.map Comment.note).toList :: (rest ++ [body])).Pairwise Node.Beside ∧
      ∀ m ∈ first.addNotes (list.comment.map Comment.note).toList :: (rest ++ [body]), m.Between p q := by
  have hlist := hitems.between list List.mem_cons_self
  have hbody : list.range.stop ≤ body.range.start :=
    (List.pairwise_cons.1 hitems.ordered).1 body List.mem_cons_self
  have hinside : ∀ m ∈ first :: rest, m.Between list.range.start list.range.stop := fun m hm =>
    (hin.between m hm).mono list.range_start_le list.le_range_stop
  obtain ⟨hfirst, hrest⟩ := List.forall_mem_cons.1 hinside
  have hnamed := hfirst.addNotes Node.comment_notes_in_range
  have hbeside : ∀ m ∈ rest, (first.addNotes (list.comment.map Comment.note).toList).Beside m := by
    intro m hm
    have hbehind : first.range.stop ≤ m.range.start := (List.pairwise_cons.1 hin.ordered).1 m hm
    rcases first.range_stop_addNotes (list.comment.map Comment.note).toList with hle | ⟨t, ht, hstop⟩
    · exact .inl (hle.trans hbehind)
    · obtain ⟨c, hc, rfl⟩ := Node.mem_comment_notes ht
      rcases hitems.outside list List.mem_cons_self c hc with hbefore | hafter
      · left
        calc (first.addNotes (list.comment.map Comment.note).toList).range.stop
          _ = c.span.stop := hstop
          _ ≤ list.span.start := hbefore
          _ ≤ first.range.start := (hin.between first List.mem_cons_self).start
          _ ≤ first.span.start := first.range_start_le
          _ ≤ first.span.stop := hfirst.proper.le
          _ ≤ first.range.stop := first.le_range_stop
          _ ≤ m.range.start := hbehind
      · refine .inr (.inl ⟨Span.contains_iff.2 ⟨?_, ?_⟩, .inr ?_⟩)
        · calc (first.addNotes (list.comment.map Comment.note).toList).range.start
            _ ≤ (first.addNotes (list.comment.map Comment.note).toList).span.start := Node.range_start_le _
            _ = first.span.start := by rw [Node.span_addNotes]
            _ ≤ first.range.stop := hfirst.proper.le.trans first.le_range_stop
            _ ≤ m.range.start := hbehind
        · rw [hstop]
          exact (hin.between m (List.mem_cons_of_mem _ hm)).stop.trans hafter
        · rw [Node.span_addNotes]
          exact first.le_range_stop.trans hbehind
  constructor
  · refine List.pairwise_cons.2 ⟨fun m hm => ?_, List.pairwise_append.2 ⟨hin.tail.beside, by simp, ?_⟩⟩
    · rcases List.mem_append.1 hm with hm | hm
      · exact hbeside m hm
      · rw [List.mem_singleton.1 hm]
        exact .inl (hnamed.stop.trans hbody)
    · intro a ha b hb
      rw [List.mem_singleton.1 hb]
      exact .inl ((hrest a ha).stop.trans hbody)
  · refine List.forall_mem_cons.2 ⟨hnamed.mono hlist.start hlist.stop, fun m hm => ?_⟩
    rcases List.mem_append.1 hm with hm | hm
    · exact (hrest m hm).mono hlist.start hlist.stop
    · rw [List.mem_singleton.1 hm]
      exact hitems.between body (by simp)

/-- What a form is made of lies inside the form, each part beside the others. -/
theorem Formed.laid {keyword : String} {items : List Node} {k : Kind Node} (h : Formed keyword items k)
    (hitems : Spaced s.start (items.drop 1) s.stop) (hlists : ∀ n ∈ items, n.kind.Laid n.span) : k.Laid s := by
  cases h with
  | variableDef symbol => exact laid_of_spaced hitems nofun nofun
  | @functionDef head target name body params header =>
      have hin := (hlists target (by simp)).inside name params (symbols?_eq_some header).1
      obtain ⟨hbeside, hbetween⟩ := opened_beside hin hitems
      refine ⟨hbetween, hbeside, nofun, ?_⟩
      rintro _ _ _ ⟨⟩
      unfold paramsSpan
      rw [Node.span_addNotes]
      rfl
  | @structDef head name fields ids symbol list =>
      exact laid_of_spaced (hitems.samePlace (samePlaces_second name fields _)) nofun nofun
  | @lambda head args body ids list =>
      exact laid_of_spaced (hitems.samePlace (samePlaces_first args body _)) nofun nofun
  | oneArm => exact laid_of_spaced hitems nofun nofun
  | twoArms => exact laid_of_spaced hitems nofun nofun
  | cond all =>
      have hsame := (forall₂_of_mapM all).imp fun _ _ => samePlace_clause
      exact laid_of_spaced (hitems.samePlace hsame) nofun nofun
  | @letNothing form head list body empty =>
      have hlist := hitems.between list List.mem_cons_self
      have hbody : (body.addNotes (list.comment.map Comment.note).toList).Between s.start s.stop :=
        (hitems.between body (by simp)).addNotes fun t ht =>
          ⟨hlist.start.trans (Node.comment_notes_in_range t ht).1, (Node.comment_notes_in_range t ht).2.trans hlist.stop⟩
      exact ⟨by simpa using hbody, by simp, nofun, nofun⟩
  | @letIn form head list body first rest bound =>
      obtain ⟨elements, hkind, hmap⟩ := bindings?_eq_some bound
      have hin : Spaced list.span.start (first :: rest) list.span.stop := by
        refine .samePlace ((forall₂_of_mapM hmap).imp fun _ _ => samePlace_binding) ?_
        cases elements with
        | nil => exact .nil
        | cons func args => exact (hlists list (by simp)).inside func args hkind
      obtain ⟨hbeside, hbetween⟩ := opened_beside hin hitems
      exact ⟨hbetween, hbeside, nofun, nofun⟩
  | guarded form => exact laid_of_spaced hitems nofun nofun
  | sequence => exact laid_of_spaced hitems nofun nofun

end Reader

/-- The ends of a span are ends of comments among the tokens. -/
def Span.EndsIn (tokens : List Token) (s : Span) : Prop :=
  (∃ t ∈ tokens, t.kind = .comment ∧ t.span.start = s.start) ∧
    ∃ t ∈ tokens, t.kind = .comment ∧ t.span.stop = s.stop

/-- What is sure of the places of a node that was read, of its parts and of its comment; the tokens are
those of the document. -/
structure Node.Tidy (tokens : List Token) (n : Node) : Prop where
  laid : n.kind.Laid n.span
  ends : ∀ c ∈ n.comment, c.span.EndsIn tokens

theorem Kind.Laid.of_raw {s : Span} {k : Kind Node} (h : k.raw.Laid s) : k.Laid s := by
  cases k with
  | identifiers ids =>
      have hbetween := h.between
      have hbeside := h.beside
      rw [raw, parts_applicationOf] at hbetween hbeside
      exact ⟨hbetween, hbeside, by rintro _ _ ⟨⟩, by rintro _ _ _ ⟨⟩⟩
  | clause test body => exact ⟨h.between, h.beside, by rintro _ _ ⟨⟩, by rintro _ _ _ ⟨⟩⟩
  | binding name value => exact ⟨h.between, h.beside, by rintro _ _ ⟨⟩, by rintro _ _ _ ⟨⟩⟩
  | _ => exact h

theorem Reader.paramsSpan_cons (name : Node) {first last : Node} {rest : List Node}
    (h : (first :: rest).getLast? = some last) :
    paramsSpan name (first :: rest) = ⟨first.range.start, last.range.stop⟩ := by
  rw [paramsSpan, List.head?_cons, h]

/-- Expressions in a row lie between the first and the last of them. -/
theorem Spaced.between_ends {p q : Pos} {name : Node} {ns : List Node} (h : Spaced p ns q) :
    ∀ m ∈ ns, m.Between (Reader.paramsSpan name ns).start (Reader.paramsSpan name ns).stop := by
  intro m hm
  obtain ⟨first, rest, rfl⟩ := List.exists_cons_of_ne_nil (List.ne_nil_of_mem hm)
  obtain ⟨last, hlast⟩ := List.getLast?_isSome.2 (List.cons_ne_nil first rest) |> Option.isSome_iff_exists.1
  rw [Reader.paramsSpan_cons name hlast]
  refine ⟨?_, (h.between m hm).proper, ?_⟩
  · rcases List.mem_cons.1 hm with rfl | hm
    · exact le_refl _
    · exact (h.between first List.mem_cons_self).range_le.trans ((List.pairwise_cons.1 h.ordered).1 m hm)
  · obtain ⟨others, hall⟩ := List.getLast?_eq_some_iff.1 hlast
    rw [hall] at h hm
    rcases List.mem_append.1 hm with hm | hm
    · exact ((List.pairwise_append.1 h.ordered).2.2 m hm last List.mem_cons_self).trans
        (h.between last (by simp)).range_le
    · rw [List.mem_singleton.1 hm]

theorem Span.EndsIn.of_ends {tokens : List Token} {notes : List Note} {s : Span} (h : Note.Ends notes s)
    (hnotes : ∀ t ∈ notes, t.span.EndsIn tokens) : s.EndsIn tokens := by
  obtain ⟨⟨t, ht, hstart⟩, u, hu, hstop⟩ := h
  rw [EndsIn, ← hstart, ← hstop]
  exact ⟨(hnotes t ht).1, (hnotes u hu).2⟩

namespace Reader

theorem inherited_tidy (tokens : List Token) :
    Inherited (fun n => ∀ m ∈ n.walk, m.Tidy tokens) fun t => t.span.EndsIn tokens := by
  refine .throughout (fun hn hc => hn.ends _ hc) (fun {n notes} hn hnotes => ⟨?_, fun c hc => ?_⟩)
    (fun hn => ⟨hn.laid, by simp [Node.withComment]⟩) (fun hn hkind => ⟨.of_raw (hkind ▸ hn.laid), hn.ends⟩)
    fun {n name ids} hn hkind _ => ?_
  · rw [Node.kind_addNotes, Node.span_addNotes]
    exact hn.laid
  · refine .of_ends (Node.ends_addNotes n notes c hc) fun t ht => ?_
    rcases List.mem_append.1 ht with ht | ht
    · exact hnotes t ht
    · simp only [Option.mem_toList, Option.map_eq_some_iff] at ht
      obtain ⟨d, hd, rfl⟩ := ht
      exact hn.ends d hd
  · have hids := (hn.laid.inside name ids hkind).tail
    exact ⟨⟨hids.between_ends, hids.beside, by rintro _ _ ⟨⟩, by rintro _ _ _ ⟨⟩⟩, by simp [Node.make]⟩

theorem recognise_laid {s : Span} {items : List Node} (hitems : Spaced s.start items s.stop)
    (houtside : ∀ n ∈ items, n.StartsOutside)
    (hlists : ∀ n ∈ passKeywordComment items, n.kind.Laid n.span) : (recognise items).Laid s := by
  rcases recognise_cases items with ⟨-, hrec⟩ | ⟨keyword, hhead, -, hformed | hrec⟩
  · rw [hrec]
    refine ⟨?_, ?_, ?_, ?_⟩
    · rw [parts_applicationOf]
      exact hitems.between
    · rw [parts_applicationOf]
      exact hitems.beside
    · intro func args hkind
      cases items with
      | nil => cases hkind
      | cons item items =>
          cases hkind
          exact hitems
    · intro name params body hkind
      cases items <;> cases hkind
  · exact hformed.laid (passKeywordComment_spaced hitems) hlists
  · have hatom : ∀ n ∈ items.head?, ¬ n.Bracketed := by
      intro n hn
      rw [Option.mem_def.1 hn, Option.bind_some] at hhead
      exact not_bracketed_of_symbol? (Option.isSome_of_eq_some hhead)
    obtain ⟨hbeside, hbetween⟩ := passKeywordComment_beside hitems houtside hatom
    rw [hrec]
    exact ⟨hbetween, hbeside, nofun, nofun⟩

theorem attach_tidy {ts : List Token} {es : List Element}
    (hexpr : ∀ n, .expr n ∈ es → ∀ m ∈ n.walk, m.Tidy ts) (hnote : ∀ t, .note t ∈ es → t.span.EndsIn ts) :
    ∀ n ∈ Element.attach es, ∀ m ∈ n.walk, m.Tidy ts :=
  Element.attach_all (P := fun n => ∀ m ∈ n.walk, m.Tidy ts) (N := fun t => t.span.EndsIn ts)
    (fun _ _ hn hnotes => (inherited_tidy ts).hang hn hnotes) hexpr hnote

theorem leaf_laid (t : Token) : (leaf t).kind.Laid (leaf t).span := by
  unfold leaf Kind.ofAtom
  repeat' split
  all_goals exact ⟨List.forall_mem_nil _, .nil, nofun, nofun⟩

/-- What the grammar derives is tidy throughout. -/
theorem Parses.tidy {p : Pos} {ls : List Lexeme} {es : List Element} {ts : List Token}
    (h : Parses p ls es) (hok : ∀ l ∈ ls, l.Ok) (hts : ∀ t ∈ tokens p ls, t ∈ ts) :
    (∀ n, .expr n ∈ es → ∀ m ∈ n.walk, m.Tidy ts) ∧ ∀ t, .note t ∈ es → t.span.EndsIn ts := by
  refine h.everywhere (inherited_tidy ts) (fun {x y l t} _ _ _ => ⟨leaf_laid t, by simp [leaf, Node.make]⟩)
    (fun {x y body} hx => ?_) (fun {x y b inner es p q} hx _ hstop hinner hitems => ?_)
    (show ls = [] ++ (ls ++ []) by simp) rfl
  · -- The note of a comment ends where its token does.
    have hmem := hts _ (hx ▸ mem_tokens_of_token? (l := .comment body) (y := y) rfl)
    exact ⟨⟨_, hmem, rfl, rfl⟩, _, hmem, rfl, rfl⟩
  · have hrow := hinner.rowed fun l hl => hok l (by simp [hx, hl])
    refine ⟨recognise_laid ?_ hrow.attach_startsOutside fun n hn => ?_, by simp [Node.make]⟩
    · refine hrow.attach.mono (p.lt_advance _).le ?_
      show _ ≤ q
      rw [hstop, text_cons, text_append, Pos.advanceOver_append, Pos.advanceOver_append]
      exact Pos.le_advanceOver _ _
    · exact ((inherited_tidy ts).passKeywordComment hitems n hn n n.mem_walk_self).laid

end Reader

/-- Every node of a document that was read is tidy, and its roots stand in a row. -/
theorem readDocument_tidy {ls : List Lexeme} {es : List Element} (h : Parses .zero ls es) (hrun : Run ls) :
    (∀ n ∈ Element.attach es, ∀ m ∈ n.walk, m.Tidy (tokens .zero ls)) ∧
      Spaced .zero (Element.attach es) (Pos.zero.advanceOver (text ls)) := by
  obtain ⟨hexpr, hnote⟩ := h.tidy hrun.ok fun _ ht => ht
  exact ⟨attach_tidy hexpr hnote, (h.rowed hrun.ok).attach⟩

end TreeEdit
