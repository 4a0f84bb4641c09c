import TreeEdit.Proofs.Changes
import TreeEdit.Proofs.Spelling
import TreeEdit.Proofs.Territory

/-!
# Nodes printed over

`Marked new p ls ns ss` says that the nodes `ns` stand among the lexemes `ls` in this order, and that
`ss` are the signs of the lexemes once each of these nodes has given way to the signs `new`. If every
one of the nodes is printed over its range, the text that results has exactly the signs `ss`, and its
brackets close as before (`Marked.splice`).

The range of a node starts at the node or at a comment before it. It ends behind the node or behind a
comment after it, and there it stops short of the blanks at the end of that comment. So what is cut out
starts and ends between lexemes, but for these blanks, which are left over.
-/

namespace TreeEdit

open Reader Lexeme

/-- The lexemes from a place on with some nodes marked, and the signs once these have given way to new
ones. -/
inductive Marked (new : Node → List Sign) : Pos → List Lexeme → List Node → List Sign → Prop
  | nil (p : Pos) : Marked new p [] [] []
  | keep {p : Pos} {l : Lexeme} {ls : List Lexeme} {ns : List Node} {ss : List Sign} :
      Marked new (p.advanceOver l.chars) ls ns ss → Marked new p (l :: ls) ns (l.sign?.toList ++ ss)
  | mark {p : Pos} {own ls : List Lexeme} {n : Node} {ns : List Node} {ss : List Sign}
      (stands : Spans p own n) : Marked new (p.advanceOver (text own)) ls ns ss →
        Marked new p (own ++ ls) (n :: ns) (new n ++ ss)

namespace Marked

variable {new : Node → List Sign} {p : Pos}

theorem append {a b : List Lexeme} {ns ms : List Node} {ss ts : List Sign} (ha : Marked new p a ns ss)
    (hb : Marked new (p.advanceOver (text a)) b ms ts) : Marked new p (a ++ b) (ns ++ ms) (ss ++ ts) := by
  induction ha with
  | nil p => exact hb
  | keep _ ih =>
      rw [text_cons, Pos.advanceOver_append] at hb
      rw [List.append_assoc]
      exact .keep (ih hb)
  | mark hn _ ih =>
      rw [text_append, Pos.advanceOver_append] at hb
      rw [List.append_assoc, List.append_assoc]
      exact .mark hn (ih hb)

theorem signs_of_nil {ls : List Lexeme} {ss : List Sign} (h : Marked new p ls [] ss) : ss = signs ls := by
  generalize hns : ([] : List Node) = ns at h
  induction h with
  | nil p => rfl
  | keep _ ih => rw [signs_cons, ih hns]
  | mark _ _ _ => cases hns

/-- The first mark divides the lexemes. -/
theorem first_mark {ls : List Lexeme} {n : Node} {ns : List Node} {ss : List Sign}
    (h : Marked new p ls (n :: ns) ss) :
    ∃ x own y ts, ls = x ++ (own ++ y) ∧ Spans (p.advanceOver (text x)) own n ∧
      ss = signs x ++ (new n ++ ts) ∧
      Marked new ((p.advanceOver (text x)).advanceOver (text own)) y ns ts := by
  generalize hns : n :: ns = ms at h
  induction h with
  | nil p => cases hns
  | @keep p l ls ms ss _ ih =>
      obtain ⟨x, own, y, ts, rfl, hown, rfl, hrest⟩ := ih hns
      refine ⟨l :: x, own, y, ts, rfl, ?_, ?_, ?_⟩
      · rwa [text_cons, Pos.advanceOver_append]
      · rw [signs_cons, List.append_assoc]
      · rwa [text_cons, Pos.advanceOver_append]
  | @mark p own ls m ms ss hm hrest _ =>
      cases hns
      exact ⟨[], own, ls, ss, rfl, hm, rfl, hrest⟩

theorem drop_silent {u v : List Lexeme} {ns : List Node} {ss : List Sign}
    (h : Marked new p (u ++ v) ns ss) (hu : ∀ l ∈ u, l.sign? = none) :
    Marked new (p.advanceOver (text u)) v ns ss := by
  induction u generalizing p ss with
  | nil => exact h
  | cons l u ih =>
      obtain ⟨hl, hu⟩ := List.forall_mem_cons.1 hu
      rw [text_cons, Pos.advanceOver_append]
      generalize hls : l :: u ++ v = ls at h
      cases h with
      | nil => cases hls
      | keep hrest =>
          cases hls
          rw [hl, Option.toList_none, List.nil_append]
          exact ih hrest hu
      | @mark _ own _ n _ _ hn _ =>
          -- A node does not start with a silent lexeme.
          obtain ⟨-, -, ⟨⟨m, hm, hsign⟩, -⟩, -⟩ := hn
          obtain ⟨rest, rfl⟩ := List.head?_eq_some_iff.1 hm
          rw [(List.cons.inj hls).1] at hl
          exact absurd hl hsign

theorem blanks_append {cs : List Char} {ls : List Lexeme} {ns : List Node} {ss : List Sign}
    (h : Marked new (p.advanceOver cs) ls ns ss) : Marked new p (blanks cs ++ ls) ns ss := by
  induction cs generalizing p with
  | nil => exact h
  | cons c cs ih => exact .keep (ih h)

end Marked

/-! ## Where a range starts and ends among the lexemes -/

namespace Lexeme

theorem eq_comment {l : Lexeme} {p : Pos} {t : Token} (h : l.token? p = some t) (hkind : t.kind = .comment) :
    ∃ body, l = .comment body ∧ t.span.stop = (noteAt p body).span.stop := by
  cases l with
  | comment body =>
      cases h
      exact ⟨body, rfl, rfl⟩
  | blank c => cases h
  | _ => cases h; simp [Token.ofChars] at hkind

/-- The lexemes from a place on are all that is left of a document with these tokens. -/
structure Remain (ts : List Token) (p : Pos) (ls : List Lexeme) : Prop where
  run : Run ls
  sub : ∀ t ∈ tokens p ls, t ∈ ts
  all : ∀ t ∈ ts, p < t.span.stop → t ∈ tokens p ls
  proper : ∀ t ∈ ts, t.span.start < t.span.stop

theorem Run.remain {ls : List Lexeme} (h : Run ls) (p : Pos) : Remain (tokens p ls) p ls := by
  refine ⟨h, fun _ ht => ht, fun _ ht _ => ht, fun t ht => ?_⟩
  obtain ⟨x, l, y, rfl, htoken⟩ := mem_tokens_iff.1 ht
  obtain ⟨hstart, hlt, -⟩ := token?_span (h.ok l (by simp)) htoken
  rwa [hstart]

variable {ts : List Token} {p : Pos} {n : Node}

/-- Between a clear range and the span inside it, all lexemes are silent. -/
theorem Remain.silent {a s b : List Lexeme} (h : Remain ts p (a ++ (s ++ b))) (hclear : n.Clear ts)
    (hstart : n.range.start ≤ p.advanceOver (text a)) (hstop : p.advanceOver (text (a ++ s)) ≤ n.range.stop)
    (houtside : p.advanceOver (text (a ++ s)) ≤ n.span.start ∨ n.span.stop ≤ p.advanceOver (text a)) :
    ∀ l ∈ s, l.sign? = none := by
  intro l hl
  by_contra hsign
  obtain ⟨u, v, rfl⟩ := List.append_of_mem hl
  obtain ⟨t, ht, hkind, -⟩ := token_of_sign? hsign (p.advanceOver (text (a ++ u)))
  obtain ⟨htstart, htlt, htstop⟩ := token?_span (h.run.ok l (by simp)) ht
  have hafter : p.advanceOver (text a) ≤ t.span.start := by
    rw [htstart, text_append, Pos.advanceOver_append]
    exact Pos.le_advanceOver _ _
  have hbefore : t.span.stop ≤ p.advanceOver (text (a ++ (u ++ l :: v))) := by
    refine htstop.trans ?_
    rw [← List.append_assoc, text_append (a ++ u), text_cons, ← Pos.advanceOver_append, ← List.append_assoc,
      Pos.advanceOver_append p (text (a ++ u) ++ l.chars)]
    exact Pos.le_advanceOver _ _
  have hmem : t ∈ ts := by
    refine h.sub t (mem_tokens_iff.2 ⟨a ++ u, l, v ++ b, by simp, ht⟩)
  have hown := Span.contains_iff.1 (hclear t hmem hkind
    (Span.contains_iff.2 ⟨hstart.trans hafter, hbefore.trans hstop⟩))
  -- A token with a sign in the range would lie in the span, and the stretch is outside it.
  rw [← htstart] at htlt
  rcases houtside with hout | hout
  · exact absurd (htlt.trans_le (hbefore.trans (hout.trans hown.1))) (lt_irrefl _)
  · exact absurd (htlt.trans_le (hown.2.trans (hout.trans hafter))) (lt_irrefl _)

/-- A clear range starts at its node or at a comment before it. -/
theorem Remain.range_start {x w : List Lexeme} (h : Remain ts p (x ++ w)) (hclear : n.Clear ts)
    (hends : ∀ c ∈ n.comment, c.span.EndsIn ts) (hspan : n.span.start = p.advanceOver (text x))
    (hle : n.span.start ≤ n.span.stop) (hp : p ≤ n.range.start) :
    ∃ x' s, x = x' ++ s ∧ (∀ l ∈ s, l.sign? = none) ∧ p.advanceOver (text x') = n.range.start ∧
      ∀ l ∈ s.head?, ∃ body, l = .comment body := by
  rcases n.range_start_le.lt_or_eq with hlt | heq
  · obtain ⟨c, hc, hstart⟩ : ∃ c ∈ n.comment, n.range.start = c.span.start :=
      n.range_start_eq_or.resolve_left hlt.ne
    obtain ⟨⟨t, ht, hkind, htstart⟩, -⟩ := hends c hc
    have hmem := h.all t ht ((htstart ▸ hstart ▸ hp).trans_lt (h.proper t ht))
    obtain ⟨u, l, v, hls, htoken⟩ := mem_tokens_iff.1 hmem
    obtain ⟨body, rfl, -⟩ := eq_comment htoken hkind
    have hl : Lexeme.comment body ∈ x ++ w := by simp [hls]
    have hu : p.advanceOver (text u) = n.range.start := by
      rw [← (token?_span (h.run.ok _ hl) htoken).1, htstart, hstart]
    rcases List.append_eq_append_iff.1 hls with ⟨a, rfl, -⟩ | ⟨a, rfl, ha⟩
    · -- The comment cannot stand behind the start of the node.
      rw [text_append, Pos.advanceOver_append, ← hspan] at hu
      exact absurd (hu ▸ hlt) (not_lt.2 (Pos.le_advanceOver _ _))
    · cases a with
      | nil =>
          rw [List.append_nil] at hspan
          exact absurd (hspan.trans hu) hlt.ne'
      | cons m a =>
          cases ha
          refine ⟨u, .comment body :: a, rfl, ?_, hu, by simp⟩
          rw [List.append_assoc] at h
          refine h.silent hclear hu.ge ?_ (.inl hspan.ge)
          rw [← hspan]
          exact hle.trans n.le_range_stop
  · exact ⟨x, [], by simp, by simp, by rw [← hspan, heq], by simp⟩

theorem Remain.right {a b : List Lexeme} (h : Remain ts p (a ++ b)) :
    Remain ts (p.advanceOver (text a)) b := by
  refine ⟨h.run.right, fun t ht => h.sub t ?_, fun t ht hlt => ?_, h.proper⟩
  · rw [tokens_append]
    exact List.mem_append_right _ ht
  · have hmem := h.all t ht ((Pos.le_advanceOver p _).trans_lt hlt)
    rw [tokens_append] at hmem
    rcases List.mem_append.1 hmem with hmem | hmem
    · -- A token of the first lexemes ends with them.
      obtain ⟨x, l, y, rfl, htoken⟩ := mem_tokens_iff.1 hmem
      have hstop := (token?_span (h.run.ok l (by simp)) htoken).2.2
      rw [text_append, text_cons, ← List.append_assoc, Pos.advanceOver_append,
        Pos.advanceOver_append] at hlt
      exact absurd hlt (not_lt.2 (hstop.trans (Pos.le_advanceOver _ _)))
    · exact hmem

theorem openAfter_silent_append {u : List Lexeme} (hu : ∀ l ∈ u, l.sign? = none) (v : List Lexeme)
    (opened : List Bracket) : openAfter (u ++ v) opened = openAfter v opened := by
  rw [openAfter_append, balanced_of_signs_eq_nil (List.filterMap_eq_nil_iff.2 hu) opened]
  rfl

theorem sign?_of_mem_blanks {cs : List Char} : ∀ l ∈ blanks cs, l.sign? = none := by
  intro l hl
  obtain ⟨c, -, rfl⟩ := List.mem_map.1 hl
  rfl

/-- The blanks at the end of a comment remain without it. -/
theorem Remain.blanks_of_comment {body : List Char} {ls : List Lexeme}
    (h : Remain ts p (.comment body :: ls)) :
    ∃ cs, (∀ c ∈ cs, isBlank c = true) ∧ ';' :: body = dropBlanksEnd (';' :: body) ++ cs ∧
      Remain ts (noteAt p body).span.stop (blanks cs ++ ls) := by
  obtain ⟨cs, hbody, hcs⟩ := comment_eq_append body
  have hplace : (noteAt p body).span.stop.advanceOver cs = p.advanceOver (';' :: body) := by
    rw [hbody, Pos.advanceOver_append]
    rfl
  have hright : Remain ts (p.advanceOver (';' :: body)) ls := by
    have hright := Remain.right (a := [.comment body]) h
    rwa [text_cons, text_nil, List.append_nil] at hright
  have htokens : tokens (noteAt p body).span.stop (blanks cs ++ ls) =
      tokens (p.advanceOver (';' :: body)) ls := by
    rw [tokens_append, tokens_blanks, text_blanks, hplace]
    rfl
  refine ⟨cs, hcs, hbody, hright.run.blanks_append hcs, ?_, ?_, h.proper⟩
  · rw [htokens]
    exact hright.sub
  · -- A token that ends behind the trimmed comment is not the comment, so it is one of the lexemes that follow.
    intro t ht hlt
    rw [htokens]
    refine hright.all t ht ?_
    have hmem := h.all t ht ((noteAt_span p body).1.trans hlt)
    rw [tokens, List.mem_append] at hmem
    rcases hmem with hmem | hmem
    · cases (Option.mem_toList.1 hmem)
      exact absurd hlt (lt_irrefl _)
    · obtain ⟨x, l, y, rfl, htoken⟩ := mem_tokens_iff.1 hmem
      have hspan := token?_span (hright.run.ok l (by simp)) htoken
      exact (Pos.le_advanceOver _ _).trans_lt hspan.2.1

/-- A clear range ends behind its node or behind a comment after it. What is left then are the lexemes
that follow, and before them the blanks at the end of that comment. -/
theorem Remain.range_stop {w y : List Lexeme} (h : Remain ts p (w ++ y)) (hclear : n.Clear ts)
    (hends : ∀ c ∈ n.comment, c.span.EndsIn ts) (hspan : n.span.stop = p.advanceOver (text w))
    (hle : n.span.start ≤ n.span.stop) :
    ∃ covered rest, text y = covered ++ text rest ∧ n.range.stop = n.span.stop.advanceOver covered ∧
      Remain ts n.range.stop rest ∧ (∀ opened, openAfter rest opened = openAfter y opened) ∧
      ∀ new ns ss, Marked new n.span.stop y ns ss → Marked new n.range.stop rest ns ss := by
  rcases n.le_range_stop.lt_or_eq with hlt | heq
  · obtain ⟨c, hc, hstop⟩ : ∃ c ∈ n.comment, n.range.stop = c.span.stop :=
      n.range_stop_eq_or.resolve_left hlt.ne'
    obtain ⟨-, t, ht, hkind, htstop⟩ := hends c hc
    have hright := h.right
    rw [← hspan] at hright
    have hmem := hright.all t ht (by rwa [htstop, ← hstop])
    obtain ⟨u, l, v, rfl, htoken⟩ := mem_tokens_iff.1 hmem
    obtain ⟨body, rfl, hbody⟩ := eq_comment htoken hkind
    have hplace := hright.right
    obtain ⟨cs, hcs, hchars, hrest⟩ := hplace.blanks_of_comment
    have hrange : (noteAt (n.span.stop.advanceOver (text u)) body).span.stop = n.range.stop := by
      rw [← hbody, htstop, hstop]
    rw [hrange] at hrest
    have hsilent : ∀ l ∈ u, l.sign? = none := by
      refine h.silent hclear ?_ ?_ (.inr hspan.le)
      · rw [← hspan]
        exact n.range_start_le.trans hle
      · rw [text_append, Pos.advanceOver_append, ← hspan, ← hrange]
        exact (noteAt_span _ body).1.le
    -- The range ends where the comment ends without its blanks, and these are left in front of the lexemes
    -- behind it.
    refine ⟨text u ++ dropBlanksEnd (';' :: body), blanks cs ++ v, ?_, ?_, hrest, ?_, ?_⟩
    · rw [text_append, text_cons, text_append, text_blanks]
      show text u ++ (';' :: body ++ text v) = _
      nth_rewrite 1 [hchars]
      simp only [List.append_assoc]
    · rw [Pos.advanceOver_append, ← hrange]
      rfl
    · intro opened
      rw [openAfter_silent_append sign?_of_mem_blanks, openAfter_silent_append hsilent]
      rfl
    · intro new ns ss hmarked
      have hcomment := hmarked.drop_silent hsilent
      have hbehind := Marked.drop_silent (u := [.comment body]) hcomment (by simp [sign?])
      refine .blanks_append ?_
      rw [← hrange]
      rw [text_cons, text_nil, List.append_nil, chars, hchars, Pos.advanceOver_append] at hbehind
      exact hbehind
  · refine ⟨[], y, rfl, heq.symm, ?_, fun _ => rfl, fun _ _ _ hm => heq ▸ hm⟩
    rw [← heq, hspan]
    exact h.right

/-- What stays when the range of a node is cut out of some lexemes: those before the range, which do not
end in a comment, and what remains behind it. -/
structure Cut (ts : List Token) (p : Pos) (ls : List Lexeme) (n : Node) (x : List Lexeme)
    (covered : List Char) (rest : List Lexeme) : Prop where
  front : x <+: ls
  text_eq : text ls = text x ++ (covered ++ text rest)
  start : n.range.start = p.advanceOver (text x)
  stop : n.range.stop = n.range.start.advanceOver covered
  run : Run x
  closed : Closed x
  remain : Remain ts n.range.stop rest
  openAfter_eq : ∀ opened, openAfter ls opened = openAfter (x ++ rest) opened

/-- A node with a clear range can be cut out. -/
theorem Remain.cut {x own y : List Lexeme} (h : Remain ts p (x ++ (own ++ y)))
    (hown : Spans (p.advanceOver (text x)) own n) (hclear : n.Clear ts)
    (hends : ∀ c ∈ n.comment, c.span.EndsIn ts) (hp : p ≤ n.range.start) :
    ∃ x' covered rest, Cut ts p (x ++ (own ++ y)) n x' covered rest ∧ signs x = signs x' ∧
      ∀ new ns ss, Marked new ((p.advanceOver (text x)).advanceOver (text own)) y ns ss →
        Marked new n.range.stop rest ns ss := by
  obtain ⟨hspan, -, ⟨⟨first, hfirst, hsign⟩, -⟩, hbalanced⟩ := hown
  have hstart : n.span.start = p.advanceOver (text x) := by rw [hspan]
  have hstop : n.span.stop = p.advanceOver (text (x ++ own)) := by
    rw [hspan, text_append, Pos.advanceOver_append]
  have hle : n.span.start ≤ n.span.stop := by
    rw [hspan]
    exact Pos.le_advanceOver _ _
  obtain ⟨x, silent, rfl, hsilent, hx, hcomment⟩ := h.range_start hclear hends hstart hle hp
  have hclosed : Closed x := by
    -- Behind a comment the line ends, but here a comment follows or the node.
    rintro l hl body rfl
    have hrun := h.run
    rw [List.append_assoc] at hrun
    have hnext := (List.isChain_append.1 hrun.meets).2.2 _ hl
    cases silent with
    | nil =>
        obtain ⟨own, rfl⟩ := List.head?_eq_some_iff.1 hfirst
        have hmeets : first = .blank '\n' := hnext first rfl
        exact absurd (by rw [hmeets]; rfl) hsign
    | cons m silent =>
        obtain ⟨body', rfl⟩ := hcomment m rfl
        exact absurd (hnext _ rfl) Lexeme.noConfusion
  rw [← List.append_assoc] at h
  obtain ⟨covered, rest, hy, hrange, hremain, hopen, hmarked⟩ := h.range_stop hclear hends hstop hle
  refine ⟨x, text silent ++ text own ++ covered, rest, ⟨?_, ?_, hx.symm, ?_, ?_, hclosed, hremain, ?_⟩, ?_, ?_⟩
  · rw [List.append_assoc]
    exact List.prefix_append x _
  · rw [text_append, text_append, text_append, hy]
    simp only [List.append_assoc]
  · rw [hrange, hstop, ← hx, text_append, text_append]
    simp only [Pos.advanceOver_append]
  · exact h.run.left.left.left
  · intro opened
    rw [List.append_assoc, openAfter_append, openAfter_append]
    congr 1
    funext opened
    rw [openAfter_silent_append hsilent, openAfter_append, hbalanced opened, hopen]
    rfl
  · rw [signs_append, signs, signs, List.filterMap_eq_nil_iff.2 hsilent, List.append_nil]
  · intro new ns ss hrest
    refine hmarked new ns ss ?_
    rwa [hstop, text_append, Pos.advanceOver_append]

end Lexeme

/-! ## Atoms that meet -/

/-- The texts would run into each other: the first ends in an atom and the second starts with one. -/
def Joins (a b : List Char) : Prop :=
  ∃ c ∈ a.getLast?, ∃ d ∈ b.head?, isDelimiter c = false ∧ isDelimiter d = false

theorem joins_append_right {a b c : List Char} (hb : b ≠ []) : Joins a (b ++ c) ↔ Joins a b := by
  rw [Joins, Joins, List.head?_append_of_ne_nil _ hb]

theorem not_joins_nil (b : List Char) : ¬ Joins [] b := by
  rintro ⟨c, hc, -⟩
  cases hc

theorem joins_append_left {a b c : List Char} (hb : b ≠ []) : Joins (a ++ b) c ↔ Joins b c := by
  rw [Joins, Joins, List.getLast?_append_of_ne_nil _ hb]

theorem stringBody_getLast? {cs body rest : List Char} (h : stringBody cs = some (body, rest)) :
    body.getLast? = some '"' := by
  fun_induction stringBody cs generalizing body rest with
  | case1 => cases h
  | case2 tail =>
      cases h
      rfl
  | case3 => cases h
  | case4 c tail ih =>
      obtain ⟨⟨a, b⟩, hab, he⟩ := Option.map_eq_some_iff.1 h
      cases he
      simp [List.getLast?_cons, ih hab]
  | case5 c tail h1 h2 h3 ih =>
      obtain ⟨⟨a, b⟩, hab, he⟩ := Option.map_eq_some_iff.1 h
      cases he
      simp [List.getLast?_cons, ih hab]

namespace Lexeme

/-- Of the lexemes that are no comments only atoms end in a character that may stand in an atom. -/
theorem eq_atom_of_getLast? {l : Lexeme} (hl : l.Ok) (hcomment : ∀ body, l ≠ .comment body) {c : Char}
    (hc : c ∈ l.chars.getLast?) (hdelim : isDelimiter c = false) : ∃ cs, l = .atom cs := by
  cases l with
  | atom cs => exact ⟨cs, rfl⟩
  | comment body => exact absurd rfl (hcomment body)
  | blank d =>
      obtain rfl : d = c := by simpa [chars] using hc
      rw [isDelimiter_of_isBlank hl] at hdelim
      cases hdelim
  | opening b =>
      cases hc
      cases b <;> cases hdelim
  | closing b =>
      cases hc
      cases b <;> cases hdelim
  | string body =>
      rw [chars, List.getLast?_cons, stringBody_getLast? hl] at hc
      cases hc
      cases hdelim

theorem getLast?_text {ls : List Lexeme} {l : Lexeme} (hl : l.Ok) :
    (text (ls ++ [l])).getLast? = l.chars.getLast? := by
  rw [text_append, text_cons, text_nil, List.append_nil, List.getLast?_append_of_ne_nil _ (chars_ne_nil hl)]

/-- Texts join where a run ends in an atom and the other starts with one. -/
theorem joins_iff {a b : List Lexeme} (ha : Run a) (hclosed : Closed a) (hb : Run b) :
    Joins (text a) (text b) ↔ ∃ x u v y, a = x ++ [.atom u] ∧ b = .atom v :: y := by
  constructor
  · rintro ⟨c, hc, d, hd, hcdelim, hddelim⟩
    rcases List.eq_nil_or_concat' a with rfl | ⟨x, l, rfl⟩
    · cases hc
    · cases b with
      | nil => cases hd
      | cons m y =>
          have hl : l.Ok := ha.ok l (by simp)
          rw [getLast?_text hl] at hc
          obtain ⟨u, rfl⟩ := eq_atom_of_getLast? hl (hclosed l (by simp)) hc hcdelim
          obtain ⟨d', rest, hchars, hatom, -⟩ := head_of_ok (hb.ok m List.mem_cons_self)
          rw [text_cons, hchars] at hd
          obtain rfl : d' = d := by simpa using hd
          have hnot : ¬ ∀ cs, m ≠ .atom cs := by
            rw [← hatom, hddelim]
            exact Bool.false_ne_true
          push Not at hnot
          obtain ⟨v, rfl⟩ := hnot
          exact ⟨x, u, v, y, rfl, rfl⟩
  · rintro ⟨x, u, v, y, rfl, rfl⟩
    have hu : (Lexeme.atom u).Ok := ha.ok _ (by simp)
    have hv : (Lexeme.atom v).Ok := hb.ok _ (by simp)
    obtain ⟨d, v, rfl⟩ := List.exists_cons_of_ne_nil hv.1
    refine ⟨u.getLast hu.1, ?_, d, rfl, hu.2 _ (List.getLast_mem hu.1), hv.2 d List.mem_cons_self⟩
    rw [getLast?_text hu]
    exact List.getLast?_eq_some_getLast hu.1

/-- Runs that do not join make a run. -/
theorem Run.append_of_not_joins {a b : List Lexeme} (ha : Run a) (hclosed : Closed a) (hb : Run b)
    (h : ¬ Joins (text a) (text b)) : Run (a ++ b) := by
  refine ha.append hb fun l hl m hm => ?_
  obtain ⟨x, rfl⟩ := List.getLast?_eq_some_iff.1 hl
  obtain ⟨y, rfl⟩ := List.head?_eq_some_iff.1 hm
  cases l with
  | comment body => exact absurd rfl (hclosed _ hl body)
  | atom u =>
      cases m with
      | atom v => exact absurd ((joins_iff ha hclosed hb).2 ⟨x, u, v, y, rfl, rfl⟩) h
      | _ => trivial
  | _ => trivial

end Lexeme

/-! ## The text with the nodes printed over -/

/-- What is printed for a list starts with a bracket and ends with one. -/
structure Lexeme.Prints (ls : List Lexeme) (ss : List Sign) : Prop extends Spells ls ss where
  head : ss.head? = some .opening
  last : ss.getLast? = some .closing

namespace Lexeme

theorem Prints.ne_nil {ls : List Lexeme} {ss : List Sign} (h : Prints ls ss) : ls ≠ [] := by
  rintro rfl
  have hhead := h.head
  rw [← h.signs_eq] at hhead
  cases hhead

theorem Prints.meets_left {ls : List Lexeme} {ss : List Sign} (h : Prints ls ss) {l : Lexeme}
    (hl : ∀ body, l ≠ .comment body) : ∀ m ∈ ls.head?, Meets l m := by
  intro m hm
  obtain ⟨rest, rfl⟩ := List.head?_eq_some_iff.1 hm
  have hatom : ∀ cs, m ≠ .atom cs := by
    rintro cs rfl
    have hhead := h.head
    rw [← h.signs_eq, signs_cons] at hhead
    cases hhead
  cases l with
  | comment body => exact absurd rfl (hl body)
  | atom cs =>
      cases m with
      | atom ds => exact absurd rfl (hatom ds)
      | _ => trivial
  | _ => trivial

theorem Prints.meets_right {ls : List Lexeme} {ss : List Sign} (h : Prints ls ss) (l : Lexeme) :
    ∀ m ∈ ls.getLast?, Meets m l := by
  intro m hm
  have hclosed := h.closed m hm
  obtain ⟨front, rfl⟩ := List.getLast?_eq_some_iff.1 hm
  cases m with
  | comment body => exact absurd rfl (hclosed body)
  | atom cs =>
      have hlast := h.last
      rw [← h.signs_eq, signs_append] at hlast
      simp [signs, sign?] at hlast
  | _ => trivial

section Cut

variable {ts : List Token} {p : Pos} {ls x rest ms : List Lexeme} {n : Node} {covered : List Char}
  (h : Cut ts p ls n x covered rest) (hms : Run ms)

include h hms

theorem Cut.run_print {new : List Lexeme} {ss : List Sign} (hnew : Prints new ss) : Run (x ++ (new ++ ms)) := by
  refine h.run.append (hnew.run.append hms ?_) ?_
  · exact fun a ha b _ => hnew.meets_right b a ha
  · intro a ha b hb
    refine hnew.meets_left (h.closed a ha) b ?_
    rwa [List.head?_append_of_ne_nil _ hnew.ne_nil] at hb

/-- Where nothing is put in, what comes behind can be met as what it comes from. -/
theorem Cut.run_of_not_joins {before : List Char} (hjoins : ¬ Joins (before ++ text x) (text rest))
    (hfront : ∀ l, (∀ body, l ≠ .comment body) → (∀ m ∈ rest.head?, Meets l m) → ∀ m ∈ ms.head?, Meets l m) :
    Run (x ++ ms) := by
  refine h.run.append hms fun l hl => hfront l (h.closed l hl) fun m hm => ?_
  have hmem := List.mem_of_mem_getLast? hl
  have hne : text x ≠ [] := fun hnil => chars_ne_nil (h.run.ok l hmem) (List.flatMap_eq_nil_iff.1 hnil l hmem)
  rw [joins_append_left hne] at hjoins
  have hrun := h.run.append_of_not_joins h.closed h.remain.run hjoins
  exact (List.isChain_append.1 hrun.meets).2.2 l hl m hm

end Cut

end Lexeme

/-- The change that prints a text over the range of a node. -/
def Node.printOver (n : Node) (text : String) : TextChange := ⟨n.range.start, n.range.stop, text⟩

/-- Nodes printed over one behind the other, and at most one of them taken away between texts that do not
join: the new text has the new signs, and its brackets close as those of the old. -/
theorem Marked.splice {new : Node → List Sign} (print : Node → String) {gone : Node → Prop} {ts : List Token}
    {p : Pos} {ls : List Lexeme} {ns : List Node} {ss : List Sign} (h : Marked new p ls ns ss)
    (hls : Remain ts p ls) (hclear : ∀ n ∈ ns, n.Clear ts) (hends : ∀ n ∈ ns, ∀ c ∈ n.comment, c.span.EndsIn ts)
    (hranges : ns.Pairwise fun a b => a.range.stop ≤ b.range.start) (hstart : ∀ n ∈ ns, p ≤ n.range.start)
    {source : String} (hprint : ∀ n ∈ ns, ¬ gone n → ∃ ms, text ms = (print n).toList ∧ Prints ms (new n))
    (hgone : ∀ n ∈ ns, gone n → print n = "" ∧ new n = [] ∧
      ∀ a covered b, around source n.range = .ok (a, covered, b) → ¬ Joins a b)
    (honce : ns.Pairwise fun a b => ¬ (gone a ∧ gone b))
    {before : List Char} (hsource : source.toList = before ++ text ls) (hp : p = Pos.zero.advanceOver before) :
    ∃ ms splices, Run ms ∧ signs ms = ss ∧ (∀ opened, openAfter ms opened = openAfter ls opened) ∧
      ((∀ n ∈ ns, ¬ gone n) → ∀ l, (∀ body, l ≠ .comment body) → (∀ m ∈ ls.head?, Meets l m) →
        ∀ m ∈ ms.head?, Meets l m) ∧
      (ns.map fun n => n.printOver (print n)).reverse.mapM (Splice.resolve source) = .ok splices ∧
      splices.foldl Splice.apply source.toList = before ++ text ms := by
  -- The first node is cut out and printed over; what stands behind its range is left to the induction. The
  -- splices are made from the last to the first, so those behind a node do not move it.
  induction ns generalizing p ls ss before with
  | nil =>
      refine ⟨ls, [], hls.run, h.signs_of_nil.symm, fun _ => rfl, fun _ _ _ hl => hl, rfl, hsource⟩
  | cons n ns ih =>
      obtain ⟨x, own, y, ss', rfl, hown, rfl, hrest⟩ := h.first_mark
      obtain ⟨hclear, hclears⟩ := List.forall_mem_cons.1 hclear
      obtain ⟨hends, hendss⟩ := List.forall_mem_cons.1 hends
      obtain ⟨hrange, hranges⟩ := List.pairwise_cons.1 hranges
      obtain ⟨hprint, hprints⟩ := List.forall_mem_cons.1 hprint
      obtain ⟨hgone, hgones⟩ := List.forall_mem_cons.1 hgone
      obtain ⟨honly, honce⟩ := List.pairwise_cons.1 honce
      obtain ⟨x', covered, rest, hcut, hsigns, hmarked⟩ :=
        hls.cut hown hclear hends (hstart n List.mem_cons_self)
      have hbefore : source.toList = (before ++ text x' ++ covered) ++ text rest := by
        rw [hsource, hcut.text_eq]
        simp only [List.append_assoc]
      have hstop : n.range.stop = Pos.zero.advanceOver (before ++ text x' ++ covered) := by
        rw [hcut.stop, hcut.start, hp]
        simp only [Pos.advanceOver_append]
      obtain ⟨ms, splices, hrun, hss, hopen, hfront, hresolve, hfold⟩ :=
        ih (hmarked _ _ _ hrest) hcut.remain hclears hendss hranges hrange hprints hgones honce hbefore hstop
      have haround : around source (n.printOver (print n)).span =
          .ok (before ++ text x', covered, text rest) := by
        refine around_eq_ok_iff.2 ⟨hbefore.symm, ?_, hstop.symm⟩
        rw [Pos.advanceOver_append, ← hp]
        exact hcut.start.symm
      obtain ⟨splice, hthis, hsplice⟩ : ∃ splice, Splice.resolve source (n.printOver (print n)) = .ok splice ∧
          splice = ⟨(before ++ text x').length, (before ++ text x').length + covered.length,
            (print n).toList⟩ :=
        ⟨_, Splice.resolve_eq_ok_iff.2 ⟨_, _, _, haround, rfl⟩, rfl⟩
      -- Where a node is taken away the texts around it meet. They do not join, and the next node is not taken
      -- away as well, so the text behind still starts as it did or with a bracket.
      obtain ⟨new', htext, hnew, hbalanced, hwhole, hhead⟩ : ∃ new', text new' = (print n).toList ∧
          signs new' = new n ∧ Balanced new' ∧ Run (x' ++ (new' ++ ms)) ∧
          (¬ gone n → ∀ l, (∀ body, l ≠ .comment body) → ∀ m ∈ (new' ++ ms).head?, Meets l m) := by
        by_cases hg : gone n
        · obtain ⟨hempty, hnone, hjoins⟩ := hgone hg
          refine ⟨[], by rw [hempty]; rfl, hnone.symm, .nil, ?_, fun h => absurd hg h⟩
          exact hcut.run_of_not_joins hrun (hjoins _ _ _ haround) (hfront fun m hm hm' => honly m hm ⟨hg, hm'⟩)
        · obtain ⟨new', htext, hnew⟩ := hprint hg
          refine ⟨new', htext, hnew.signs_eq, hnew.balanced, hcut.run_print hrun hnew, fun _ l hl m hm => ?_⟩
          rw [List.head?_append_of_ne_nil _ hnew.ne_nil] at hm
          exact hnew.meets_left hl m hm
      refine ⟨x' ++ (new' ++ ms), splices ++ [splice], hwhole, ?_, ?_, ?_, ?_, ?_⟩
      · rw [signs_append, signs_append, hnew, hss, hsigns]
      · intro opened
        rw [hcut.openAfter_eq, openAfter_append, openAfter_append]
        congr 1
        funext opened
        rw [openAfter_append, hbalanced opened, Option.bind_some, hopen]
      · intro hnone l hl hmeets m hm
        -- The text starts with the print of the node, or with a lexeme in front of the node that is still
        -- there.
        cases hx : x' with
        | nil =>
            rw [hx, List.nil_append] at hm
            exact hhead (hnone n List.mem_cons_self) l hl m hm
        | cons first others =>
            obtain ⟨tail, htail⟩ := hcut.front
            rw [hx] at hm htail
            refine hmeets m ?_
            rw [← htail]
            exact hm
      · rw [List.map_cons, List.reverse_cons, List.mapM_append, hresolve, List.mapM_cons, hthis]
        rfl
      · rw [List.foldl_append, hfold, hsplice, List.foldl_cons, List.foldl_nil, Splice.apply_parts, ← htext,
          text_append, text_append]
        simp only [List.append_assoc]

/-! ## Marks by a choice of nodes -/

section Choice

variable {K : Node → Prop} {new : Node → List Sign}

/-- The outermost chosen nodes within some nodes: they are chosen, they stand within, and whatever is
chosen within the nodes stands within one of them. -/
structure Outermost (K : Node → Prop) (ns : List Node) (marks : List Node) : Prop where
  chosen : ∀ m ∈ marks, K m ∧ ∃ n ∈ ns, n.Within m
  covers : ∀ n ∈ ns, ∀ m, n.Within m → K m → ∃ mark ∈ marks, mark.Within m

theorem Outermost.append {ns ms as bs : List Node} (ha : Outermost K ns as) (hb : Outermost K ms bs) :
    Outermost K (ns ++ ms) (as ++ bs) := by
  constructor
  · intro m hm
    rcases List.mem_append.1 hm with hm | hm
    · obtain ⟨hk, n, hn, hwithin⟩ := ha.chosen m hm
      exact ⟨hk, n, List.mem_append_left _ hn, hwithin⟩
    · obtain ⟨hk, n, hn, hwithin⟩ := hb.chosen m hm
      exact ⟨hk, n, List.mem_append_right _ hn, hwithin⟩
  · intro n hn m hm hk
    rcases List.mem_append.1 hn with hn | hn
    · obtain ⟨mark, hmark, hwithin⟩ := ha.covers n hn m hm hk
      exact ⟨mark, List.mem_append_left _ hmark, hwithin⟩
    · obtain ⟨mark, hmark, hwithin⟩ := hb.covers n hn m hm hk
      exact ⟨mark, List.mem_append_right _ hmark, hwithin⟩

theorem Fills.marked {p : Pos} {ls : List Lexeme} {pattern : List (Sign ⊕ Node)}
    (h : Fills (fun p ls n => ∃ marks, Marked new p ls marks (new n) ∧ Outermost K [n] marks) p ls pattern) :
    ∃ marks, Marked new p ls marks (fill new pattern) ∧
      Outermost K (pattern.filterMap Sum.getRight?) marks := by
  induction h with
  | nil p => exact ⟨[], .nil p, by simp, by simp⟩
  | @silent p l ls pattern hl _ ih =>
      obtain ⟨marks, hmarked, hmarks⟩ := ih
      refine ⟨marks, ?_, hmarks⟩
      have hkeep := hmarked.keep
      rwa [hl] at hkeep
  | @sign p l s ls pattern hl _ ih =>
      obtain ⟨marks, hmarked, hmarks⟩ := ih
      refine ⟨marks, ?_, hmarks⟩
      have hkeep := hmarked.keep
      rwa [hl] at hkeep
  | @part p own ls n pattern hn _ ih =>
      obtain ⟨as, ha, has⟩ := hn
      obtain ⟨bs, hb, hbs⟩ := ih
      exact ⟨as ++ bs, ha.append hb, has.append hbs⟩

/-- If a node that is not chosen gives way to no more than its parts do, the signs that come of it are
those of its lexemes with the outermost chosen nodes marked. -/
theorem Spans.marked {p : Pos} {ls : List Lexeme} {n : Node} (h : Spans p ls n)
    (hstep : ∀ m, n.Within m → ¬ K m → new m = fill new m.kind.shape) :
    ∃ marks, Marked new p ls marks (new n) ∧ Outermost K [n] marks := by
  refine Spans.induct (P := fun p ls n => (∀ m, n.Within m → ¬ K m → new m = fill new m.kind.shape) →
    ∃ marks, Marked new p ls marks (new n) ∧ Outermost K [n] marks) ?_ h hstep
  intro p ls n hspan hfills htight hbalanced hstep
  -- A chosen node is marked as a whole; any other leaves the marks to its parts.
  by_cases hk : K n
  · have hspans : Spans p ls n := .intro hspan (hfills.mono fun _ _ _ _ h => h.1) htight hbalanced
    refine ⟨[n], ?_, ?_⟩
    · have hmark : Marked new p (ls ++ []) [n] (new n ++ []) := .mark hspans (.nil _)
      rwa [List.append_nil, List.append_nil] at hmark
    · constructor
      · simpa using ⟨hk, Node.Within.self n⟩
      · intro m hm l hl _
        exact ⟨n, List.mem_singleton_self n, List.mem_singleton.1 hm ▸ hl⟩
  · have hparts := hfills.mono fun p ls m hm h =>
      h.2 fun l hl => hstep l (.part (Kind.mem_shape.1 hm) hl)
    obtain ⟨marks, hmarked, hmarks⟩ := hparts.marked
    rw [← hstep n (.self n) hk] at hmarked
    rw [Kind.parts_eq] at hmarks
    refine ⟨marks, hmarked, fun m hm => ?_, fun l hl m hm hkm => ?_⟩
    · obtain ⟨hkm, part, hpart, hwithin⟩ := hmarks.chosen m hm
      exact ⟨hkm, n, List.mem_singleton_self n, .part hpart hwithin⟩
    · rw [List.mem_singleton.1 hl] at hm
      cases hm with
      | self => exact absurd hkm hk
      | part hpart hwithin => exact hmarks.covers _ hpart m hwithin hkm

/-- The outermost chosen nodes of a document, in the order of the text. -/
theorem Placed.marked {roots : List Node} {doc : List Lexeme} (h : Placed roots doc)
    (hstep : ∀ root ∈ roots, ∀ m, root.Within m → ¬ K m → new m = fill new m.kind.shape) :
    ∃ marks, Marked new .zero doc marks (roots.flatMap new) ∧ Outermost K roots marks := by
  have hroots := h.fills.mono fun p ls n hn hspans =>
    hspans.marked (hstep n (by simpa using hn))
  obtain ⟨marks, hmarked, hmarks⟩ := hroots.marked
  rw [fill_parts] at hmarked
  rw [List.filterMap_map, show Sum.getRight? ∘ (Sum.inr : Node → Sign ⊕ Node) = some from rfl,
    List.filterMap_some] at hmarks
  exact ⟨marks, hmarked, hmarks⟩

end Choice

/-- What stands in the text says what it says there. -/
theorem Fills.signs_eq {p : Pos} {ls : List Lexeme} {pattern : List (Sign ⊕ Node)} (h : Fills Spans p ls pattern) :
    signs ls = fill Node.flatten pattern := by
  have hparts : Fills (fun p ls n => ∃ marks, Marked Node.flatten p ls marks n.flatten ∧
      Outermost (fun _ => False) [n] marks) p ls pattern :=
    h.mono fun _ _ _ _ hn => hn.marked fun m _ _ => m.flatten_eq
  obtain ⟨marks, hmarked, hmarks⟩ := hparts.marked
  obtain rfl : marks = [] := List.eq_nil_iff_forall_not_mem.2 fun m hm => (hmarks.chosen m hm).1
  exact hmarked.signs_of_nil.symm

/-- Marked nodes stand one behind the other. -/
theorem Marked.ordered {new : Node → List Sign} {p : Pos} {ls : List Lexeme} {ns : List Node}
    {ss : List Sign} (h : Marked new p ls ns ss) :
    (∀ n ∈ ns, p ≤ n.span.start) ∧ ns.Pairwise fun a b => a.span.stop ≤ b.span.start := by
  induction h with
  | nil p => exact ⟨by simp, .nil⟩
  | keep _ ih => exact ⟨fun n hn => (Pos.le_advanceOver _ _).trans (ih.1 n hn), ih.2⟩
  | mark hn _ ih =>
      obtain ⟨hspan, -, -, -⟩ := hn
      refine ⟨List.forall_mem_cons.2 ⟨by rw [hspan], fun n hn => ?_⟩, List.pairwise_cons.2 ⟨fun b hb => ?_, ih.2⟩⟩
      · exact (Pos.le_advanceOver _ _).trans (ih.1 n hn)
      · rw [hspan]
        exact ih.1 b hb

/-! ## The document printed over -/

/-- There is only one way to put separate changes in order. -/
theorem latestFirst_of_perm {changes sorted : List TextChange} (hperm : changes.Perm sorted)
    (hsorted : sorted.Pairwise fun a b => a.start < b.start) : latestFirst changes = sorted.reverse := by
  have hreverse : sorted.reverse.Pairwise fun a b => b.start < a.start := List.pairwise_reverse.2 hsorted
  have hsymm : Std.Symm fun a b : TextChange => a.start ≠ b.start := ⟨fun a b h => h.symm⟩
  have hne : sorted.Pairwise fun a b => a.start ≠ b.start := hsorted.imp ne_of_lt
  refine List.Perm.eq_of_pairwise ?_ (latestFirst_pairwise changes) ?_ ?_
  · intro a b ha hb hab hba
    have ha : a ∈ sorted := hperm.subset ((List.mergeSort_perm _ _).subset ha)
    have hb : b ∈ sorted := List.mem_reverse.1 hb
    by_contra hdiffer
    have hstarts : a.start ≠ b.start := hne.forall ha hb hdiffer
    simp only [rangeLe, TextChange.span, Bool.or_eq_true, Bool.and_eq_true] at hab hba
    rcases hab with hab | hab
    · rcases hba with hba | hba
      · exact lt_asymm (of_decide_eq_true hab) (of_decide_eq_true hba)
      · exact hstarts (of_decide_eq_true hba.1)
    · exact hstarts (of_decide_eq_true hab.1).symm
  · exact hreverse.imp fun hlt => by simp [rangeLe, TextChange.span, hlt]
  · exact (List.mergeSort_perm _ _).trans (hperm.trans (List.reverse_perm _).symm)

theorem Node.span_start_lt {n : Node} {doc : List Lexeme} (h : n.Settled doc) (hok : ∀ l ∈ doc, l.Ok) :
    n.span.start < n.span.stop := by
  obtain ⟨t, -, -, hstart, hlt, hstop⟩ := h.first_token hok
  rw [← hstart]
  exact hlt.trans_le hstop

namespace Placed

variable {roots : List Node} {doc : List Lexeme} (h : Placed roots doc)
  (hclear : ∀ n ∈ Forest.nodes roots, n.Clear (tokens .zero doc))

include h hclear

/-- Lists that stand one behind the other in a document have separate ranges. -/
theorem ranges_ordered {r s m l : Node} (hr : r ∈ roots) (hs : s ∈ roots) (hm : r.Within m)
    (hl : s.Within l) (hmlist : m.Bracketed) (hllist : l.Bracketed) (hml : m.span.stop ≤ l.span.start) :
    m.range.stop ≤ l.range.start := by
  have hmproper := Node.span_start_lt (h.settled hclear hr hm) h.run.ok
  have hlproper := Node.span_start_lt (h.settled hclear hs hl) h.run.ok
  rcases h.nestedOrSeparate hclear hr hs hm hl hmlist hllist with hin | hin | hle | hle
  · rcases hin.range_between (fun n hn => h.settled hclear hr (hm.trans hn)) with rfl | ⟨-, hstop⟩
    · exact absurd hml (not_le.2 hmproper)
    · exact absurd ((l.le_range_stop.trans_lt hstop).trans_le hml) (not_lt.2 hlproper.le)
  · rcases hin.range_between (fun n hn => h.settled hclear hs (hl.trans hn)) with rfl | ⟨hstart, -⟩
    · exact absurd hml (not_le.2 hmproper)
    · exact absurd ((hstart.trans_le m.range_start_le).trans hmproper) (not_lt.2 hml)
  · exact hle
  · have hlt : l.range.stop < l.range.stop :=
      calc l.range.stop
        _ ≤ m.range.start := hle
        _ ≤ m.span.start := m.range_start_le
        _ < m.span.stop := hmproper
        _ ≤ l.span.start := hml
        _ ≤ l.span.stop := hlproper.le
        _ ≤ l.range.stop := l.le_range_stop
    exact absurd hlt (lt_irrefl _)

/-- A root and a node that stand one behind the other in a document have separate ranges. -/
theorem root_ranges_ordered {r s m l : Node} (hr : r ∈ roots) (hs : s ∈ roots) (hm : r.Within m)
    (hl : s.Within l) (hroot : m ∈ roots ∨ l ∈ roots) (hml : m.span.stop ≤ l.span.start) :
    m.range.stop ≤ l.range.start := by
  have hmproper := Node.span_start_lt (h.settled hclear hr hm) h.run.ok
  have hlproper := Node.span_start_lt (h.settled hclear hs hl) h.run.ok
  have hsymm : Std.Symm fun a b : Node => a.range.stop ≤ b.range.start ∨ b.range.stop ≤ a.range.start :=
    ⟨fun _ _ h => h.symm⟩
  have hordered : roots.Pairwise fun a b => a.range.stop ≤ b.range.start ∨ b.range.stop ≤ a.range.start :=
    h.rootsOrdered.imp Or.inl
  -- Different roots have separate ranges, and the spans say which of them is in front.
  have hseparate : ∀ {a b : Node}, a ∈ roots → b ∈ roots → a.Within m → b.Within l → a ≠ b →
      m.range.stop ≤ l.range.start := by
    intro a b ha hb ham hbl hab
    have hma := ham.range_le fun n hn => h.settled hclear ha hn
    have hlb := hbl.range_le fun n hn => h.settled hclear hb hn
    rcases hordered.forall ha hb hab with hle | hle
    · exact (hma.2.trans hle).trans hlb.1
    · have hback : l.range.stop ≤ m.range.start := (hlb.2.trans hle).trans hma.1
      have hlt := (((hlproper.trans_le l.le_range_stop).trans_le hback).trans_le m.range_start_le).trans hmproper
      exact absurd hml (not_le.2 hlt)
  rcases hroot with hroot | hroot
  · by_cases hne : m = s
    · -- A node within the root cannot stand behind it.
      subst hne
      rcases hl.range_between fun n hn => h.settled hclear hroot hn with rfl | ⟨-, hstop⟩
      · exact absurd hml (not_le.2 hmproper)
      · exact absurd hml (not_le.2 ((hlproper.trans_le l.le_range_stop).trans hstop))
    · exact hseparate hroot hs (.self m) hl hne
  · by_cases hne : r = l
    · -- Nor in front of it.
      subst hne
      rcases hm.range_between fun n hn => h.settled hclear hroot hn with rfl | ⟨hstart, -⟩
      · exact absurd hml (not_le.2 hmproper)
      · exact absurd hml (not_le.2 ((hstart.trans_le m.range_start_le).trans hmproper))
    · exact hseparate hr hroot hm (.self l) hne

/-- The outermost chosen nodes of a document written over: all lists printed but for one root at most, which
is taken away between texts that do not join. The new text can be read, and its signs are those that the
roots give way to. -/
theorem writeOver {source : String} (hsource : text doc = source.toList) {K gone : Node → Prop}
    {new : Node → List Sign} {print : Node → String}
    (hstep : ∀ root ∈ roots, ∀ m, root.Within m → ¬ K m → new m = fill new m.kind.shape)
    (hlist : ∀ root ∈ roots, ∀ m, root.Within m → K m → ¬ gone m → m.Bracketed)
    (hprint : ∀ root ∈ roots, ∀ m, root.Within m → K m → ¬ gone m →
      ∃ ms, text ms = (print m).toList ∧ Prints ms (new m))
    (hgone : ∀ m, gone m → m ∈ roots ∧ print m = "" ∧ new m = [] ∧
      ∀ a covered b, around source m.range = .ok (a, covered, b) → ¬ Joins a b)
    (honce : ∀ m l, gone m → gone l → m = l) :
    ∃ marks, Outermost K roots marks ∧ marks.Pairwise (fun a b => a.range.stop ≤ b.range.start) ∧
      ∀ changes : List TextChange, changes.Perm (marks.map fun m => m.printOver (print m)) →
        ∃ after, applyChanges source changes = .ok after ∧
          (∃ ts, tokenize after = .ok ts ∧ ts.filterMap Token.sign? = roots.flatMap new) ∧
          ∃ reread, readDocument after = .ok reread := by
  obtain ⟨marks, hmarked, hmarks⟩ := h.marked hstep
  have hmem : ∀ m ∈ marks, m ∈ Forest.nodes roots := by
    intro m hm
    obtain ⟨-, root, hroot, hwithin⟩ := hmarks.chosen m hm
    exact List.mem_flatMap.2 ⟨root, hroot, hwithin.mem_walk⟩
  have hproper : ∀ m ∈ marks, m.range.start < m.range.stop := by
    intro m hm
    obtain ⟨-, r, hr, hrm⟩ := hmarks.chosen m hm
    have hspan := Node.span_start_lt (h.settled hclear hr hrm) h.run.ok
    exact (m.range_start_le.trans_lt hspan).trans_le m.le_range_stop
  have hranges : marks.Pairwise fun a b => a.range.stop ≤ b.range.start := by
    refine hmarked.ordered.2.imp_of_mem fun {a b} ha hb hab => ?_
    obtain ⟨hka, r, hr, hra⟩ := hmarks.chosen a ha
    obtain ⟨hkb, s, hs, hsb⟩ := hmarks.chosen b hb
    by_cases hga : gone a
    · exact h.root_ranges_ordered hclear hr hs hra hsb (.inl (hgone a hga).1) hab
    · by_cases hgb : gone b
      · exact h.root_ranges_ordered hclear hr hs hra hsb (.inr (hgone b hgb).1) hab
      · exact h.ranges_ordered hclear hr hs hra hsb (hlist r hr a hra hka hga) (hlist s hs b hsb hkb hgb) hab
  have hstarts : marks.Pairwise fun a b => a.range.start < b.range.start :=
    hranges.imp_of_mem fun {a b} ha _ hab => (hproper a ha).trans_le hab
  refine ⟨marks, hmarks, hranges, fun changes hperm => ?_⟩
  have hprints : ∀ m ∈ marks, ¬ gone m → ∃ ms, text ms = (print m).toList ∧ Prints ms (new m) := by
    intro m hm hg
    obtain ⟨hk, r, hr, hrm⟩ := hmarks.chosen m hm
    exact hprint r hr m hrm hk hg
  have hsingle : marks.Pairwise fun a b => ¬ (gone a ∧ gone b) := by
    refine hstarts.imp fun {a b} hab hg => ?_
    rw [honce a b hg.1 hg.2] at hab
    exact lt_irrefl _ hab
  have hwhole : source.toList = [] ++ text doc := hsource.symm
  obtain ⟨ms, splices, hrun, hsigns, hopen, -, hresolve, hfold⟩ :=
    hmarked.splice print (h.run.remain .zero) (fun m hm => hclear m (hmem m hm))
      (fun m hm => h.ends m (hmem m hm)) hranges (fun _ _ => Pos.zero_le _) hprints
      (fun m _ hg => (hgone m hg).2) hsingle hwhole rfl
  -- The changes may come in any order: they are applied latest first, and the marks are sorted.
  have hsorted : (marks.map fun m => m.printOver (print m)).Pairwise fun a b => a.start < b.start :=
    List.pairwise_map.2 hstarts
  have hlatest := latestFirst_of_perm hperm hsorted
  have happly : applyChanges source changes = .ok (String.ofList (text ms)) := by
    refine applyChanges_eq_ok_iff.2 ⟨?_, splices, ?_, ?_⟩
    · rw [hlatest]
      exact refuseOverlap_of_pairwise (List.pairwise_reverse.2 (List.pairwise_map.2 hranges))
    · rw [hlatest]
      exact hresolve
    · rw [hfold]
      rfl
  refine ⟨_, happly, ⟨tokens .zero ms, ?_, ?_⟩, ?_⟩
  · rw [tokenize, String.toList_ofList]
    exact tokensFrom_run hrun .zero
  · rw [filterMap_sign?_tokens, hsigns]
  · obtain ⟨es, hes⟩ := (exists_elements_iff [] .zero []).2 ((hopen []).trans (h.balanced []))
    exact ⟨_, readDocument_eq_ok_iff.2 ⟨ms, es, hrun, by rw [String.toList_ofList], hes, rfl⟩⟩

/-- The outermost chosen lists of a document printed over: the new text can be read, and its signs are
those that the roots give way to. -/
theorem printOver {source : String} (hsource : text doc = source.toList) {K : Node → Prop}
    {new : Node → List Sign} {print : Node → String}
    (hstep : ∀ root ∈ roots, ∀ m, root.Within m → ¬ K m → new m = fill new m.kind.shape)
    (hlist : ∀ root ∈ roots, ∀ m, root.Within m → K m → m.Bracketed)
    (hprint : ∀ root ∈ roots, ∀ m, root.Within m → K m →
      ∃ ms, text ms = (print m).toList ∧ Prints ms (new m)) :
    ∃ marks, Outermost K roots marks ∧ marks.Pairwise (fun a b => a.range.stop ≤ b.range.start) ∧
      ∀ changes : List TextChange, changes.Perm (marks.map fun m => m.printOver (print m)) →
        ∃ after, applyChanges source changes = .ok after ∧
          (∃ ts, tokenize after = .ok ts ∧ ts.filterMap Token.sign? = roots.flatMap new) ∧
          ∃ reread, readDocument after = .ok reread :=
  h.writeOver hclear hsource hstep (fun root hroot m hm hk _ => hlist root hroot m hm hk)
    (fun root hroot m hm hk _ => hprint root hroot m hm hk) (fun _ (hgone : False) => hgone.elim)
    fun _ _ hgone => hgone.elim

end Placed

end TreeEdit
