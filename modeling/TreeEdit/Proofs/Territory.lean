import TreeEdit.Proofs.Anonymous
import TreeEdit.Proofs.Margins
import TreeEdit.Proofs.Trees

/-!
# Nested and separate ranges

`Placed roots ls` collects what reading a text says about places, for roots that may have identities
by now: how they stand among the lexemes, which ends their comments have, and how the lists among the
parts of a node lie. Suppose further that the range of a node covers no token of another node but
comments (`Node.Clear`). Then ranges nest as the nodes do: of two lists one stands within the other
and has its range inside the brackets of the other, or one range ends before the other starts
(`Placed.nestedOrSeparate`).
-/

namespace TreeEdit

open Reader Lexeme

/-! ## What stands in the text does so under any identity -/

theorem Fills.mono {R S : Pos → List Lexeme → Node → Prop} {p : Pos} {ls : List Lexeme}
    {pattern : List (Sign ⊕ Node)} (hf : Fills R p ls pattern)
    (h : ∀ p ls n, .inr n ∈ pattern → R p ls n → S p ls n) : Fills S p ls pattern := by
  induction hf with
  | nil p => exact .nil p
  | silent hl _ ih => exact .silent hl (ih h)
  | sign hl _ ih => exact .sign hl (ih fun p ls n hn => h p ls n (List.mem_cons_of_mem _ hn))
  | part hn _ ih =>
      refine .part (h _ _ _ List.mem_cons_self hn) (ih fun p ls n hn => ?_)
      exact h p ls n (List.mem_cons_of_mem _ hn)

/-- What holds of a node as soon as it holds of its parts, where they stand, holds wherever a node
stands. -/
theorem Spans.induct {P : Pos → List Lexeme → Node → Prop}
    (step : ∀ p ls n, n.span = ⟨p, p.advanceOver (text ls)⟩ →
      Fills (fun p ls m => Spans p ls m ∧ P p ls m) p ls n.kind.shape → Tight ls → Balanced ls → P p ls n)
    {p : Pos} {ls : List Lexeme} {n : Node} (h : Spans p ls n) : P p ls n :=
  @Spans.rec (fun p ls n _ => P p ls n)
    (fun p ls pattern _ => Fills (fun p ls m => Spans p ls m ∧ P p ls m) p ls pattern)
    (fun span _ tight balanced ih => step _ _ _ span ih tight balanced) (fun p => .nil p)
    (fun hl _ ih => .silent hl ih) (fun hl _ ih => .sign hl ih) (fun hn _ ihn ih => .part ⟨hn, ihn⟩ ih)
    p ls n h

namespace Node

theorem span_anonymous (n : Node) : n.anonymous.span = n.span := by rw [anonymous_eq]

theorem kind_anonymous (n : Node) : n.anonymous.kind = n.kind.map anonymous := by rw [anonymous_eq]

theorem comment_span_anonymous (n : Node) :
    n.anonymous.comment.map Comment.span = n.comment.map Comment.span := by
  rw [anonymous_eq, Option.map_map]
  rfl

theorem range_eq_of_comment_span {n m : Node} (hspan : n.span = m.span)
    (hcomment : n.comment.map Comment.span = m.comment.map Comment.span) : n.range = m.range := by
  unfold range
  cases hn : n.comment <;> cases hm : m.comment <;> simp_all

theorem range_anonymous (n : Node) : n.anonymous.range = n.range :=
  range_eq_of_comment_span n.span_anonymous n.comment_span_anonymous

theorem header_anonymous (n : Node) : n.anonymous.header = n.header.map anonymous := by
  unfold header
  rw [kind_anonymous]
  cases n.kind <;> rfl

theorem walk_anonymous (n : Node) : n.anonymous.walk = n.walk.map anonymous := by
  induction n using induct with
  | step n ih =>
      rw [walk_eq, walk_eq n, List.map_cons, children, kind_anonymous, Kind.children_map, List.flatMap_map,
        List.map_flatMap]
      exact congrArg _ (List.flatMap_congr ih)

end Node

theorem Kind.shape_anonymous (k : Kind Node) :
    (k.map Node.anonymous).shape = k.shape.map (Sum.map id Node.anonymous) := by
  rw [shape, shape, pattern_map, map_pattern]
  congr 1
  funext n
  exact n.header_anonymous

theorem Kind.parts_anonymous (k : Kind Node) :
    (k.map Node.anonymous).parts = k.parts.map Node.anonymous := by
  cases k <;> simp [map, Node.header_anonymous]
  case conditional test yes no => cases no <;> rfl

/-- What stands for a pattern stands for one that differs in identities only. -/
theorem Fills.anonymous {R : Pos → List Lexeme → Node → Prop}
    (hR : ∀ p ls n m, R p ls n → n.anonymous = m.anonymous → Spans p ls m) {p : Pos} {ls : List Lexeme}
    {s t : List (Sign ⊕ Node)} (h : Fills R p ls s)
    (hst : s.map (Sum.map id Node.anonymous) = t.map (Sum.map id Node.anonymous)) : Fills Spans p ls t := by
  induction h generalizing t with
  | nil p =>
      rw [List.map_nil, eq_comm, List.map_eq_nil_iff] at hst
      rw [hst]
      exact .nil p
  | silent hl _ ih => exact .silent hl (ih hst)
  | sign hl _ ih =>
      obtain ⟨x, t, rfl, hx, ht⟩ := List.map_eq_cons_iff.1 hst.symm
      cases x with
      | inl s =>
          cases hx
          exact .sign hl (ih ht.symm)
      | inr m => cases hx
  | part hn _ ih =>
      obtain ⟨x, t, rfl, hx, ht⟩ := List.map_eq_cons_iff.1 hst.symm
      cases x with
      | inl s => cases hx
      | inr m => exact .part (hR _ _ _ m hn (Sum.inr.inj hx).symm) (ih ht.symm)

theorem Spans.anonymous {p : Pos} {ls : List Lexeme} {n m : Node} (h : Spans p ls n)
    (hnm : n.anonymous = m.anonymous) : Spans p ls m := by
  refine Spans.induct (P := fun p ls n => ∀ m : Node, n.anonymous = m.anonymous → Spans p ls m) ?_ h m hnm
  intro p ls n hspan hfills htight hbalanced m hnm
  refine .intro ?_ (hfills.anonymous (fun _ _ _ m h hnm => h.2 m hnm) ?_) htight hbalanced
  · rw [← m.span_anonymous, ← hnm, n.span_anonymous, hspan]
  · rw [← Kind.shape_anonymous, ← Kind.shape_anonymous, ← Node.kind_anonymous, hnm, Node.kind_anonymous]

/-- Roots as they stand in a text. -/
structure Placed (roots : List Node) (ls : List Lexeme) : Prop where
  run : Run ls
  balanced : Balanced ls
  fills : Fills Spans .zero ls (roots.map .inr)
  rootsOrdered : roots.Pairwise fun a b => a.range.stop ≤ b.range.start
  between : ∀ n ∈ Forest.nodes roots, ∀ m ∈ n.kind.parts, m.Between n.span.start n.span.stop
  beside : ∀ n ∈ Forest.nodes roots, n.kind.parts.Pairwise Node.Beside
  ends : ∀ n ∈ Forest.nodes roots, ∀ c ∈ n.comment, c.span.EndsIn (tokens .zero ls)
  params : ∀ n ∈ Forest.nodes roots, ∀ name params body, n.kind = .functionDef name params body →
    params.range = Reader.paramsSpan name params.header

theorem Kind.isList_map {α β : Type} (f : α → β) (k : Kind α) : (k.map f).isList = k.isList := by
  cases k <;> rfl

/-- The lists among the parts of a node are apart. -/
theorem Placed.apart {roots : List Node} {ls : List Lexeme} (h : Placed roots ls) {n : Node}
    (hn : n ∈ Forest.nodes roots) : n.kind.parts.Pairwise Node.Apart :=
  (h.beside n hn).imp_of_mem fun _ hb hab => hab.apart (h.between n hn _ hb).proper

theorem Node.between_anonymous {p q : Pos} {n : Node} : n.anonymous.Between p q ↔ n.Between p q := by
  constructor
  · rintro ⟨hstart, hproper, hstop⟩
    rw [range_anonymous] at hstart hstop
    rw [span_anonymous] at hproper
    exact ⟨hstart, hproper, hstop⟩
  · rintro ⟨hstart, hproper, hstop⟩
    rw [← range_anonymous] at hstart hstop
    rw [← span_anonymous] at hproper
    exact ⟨hstart, hproper, hstop⟩

theorem Node.beside_anonymous {a b : Node} : a.anonymous.Beside b.anonymous ↔ a.Beside b := by
  unfold Beside InMargin Bracketed
  rw [kind_anonymous, Kind.isList_map, span_anonymous, span_anonymous, range_anonymous, range_anonymous]

theorem pairwise_beside_of_anonymous {ns ms : List Node} (h : ns.map Node.anonymous = ms.map Node.anonymous)
    (hns : ns.Pairwise Node.Beside) : ms.Pairwise Node.Beside := by
  have hmap : (ns.map Node.anonymous).Pairwise Node.Beside :=
    List.pairwise_map.2 (hns.imp Node.beside_anonymous.2)
  rw [h] at hmap
  exact (List.pairwise_map.1 hmap).imp Node.beside_anonymous.1

theorem Forest.nodes_anonymous {roots read : List Node}
    (h : roots.map Node.anonymous = read.map Node.anonymous) :
    (nodes roots).map Node.anonymous = (nodes read).map Node.anonymous := by
  have hwalk : ∀ ns : List Node, (nodes ns).map Node.anonymous = (ns.map Node.anonymous).flatMap Node.walk := by
    intro ns
    rw [nodes, List.map_flatMap, List.flatMap_map]
    exact List.flatMap_congr fun n _ => n.walk_anonymous.symm
  rw [hwalk, hwalk, h]

theorem Reader.paramsSpan_anonymous {name name' : Node} {params params' : List Node}
    (hname : name'.anonymous = name.anonymous) (hparams : params'.map Node.anonymous = params.map Node.anonymous) :
    paramsSpan name' params' = paramsSpan name params := by
  have hfirst : params'.head?.map Node.range = params.head?.map Node.range := by
    have hhead := congrArg (fun ns => ns.head?.map Node.range) hparams
    simpa [Option.map_map, Function.comp_def, Node.range_anonymous] using hhead
  have hlast : params'.getLast?.map Node.range = params.getLast?.map Node.range := by
    have hlast := congrArg (fun ns => ns.getLast?.map Node.range) hparams
    simpa [Option.map_map, Function.comp_def, Node.range_anonymous] using hlast
  have hspan : name'.span = name.span := by rw [← name'.span_anonymous, hname, name.span_anonymous]
  unfold paramsSpan
  rw [hspan]
  cases hf' : params'.head? <;> cases hf : params.head? <;> rw [hf', hf] at hfirst <;>
    cases hl' : params'.getLast? <;> cases hl : params.getLast? <;> rw [hl', hl] at hlast <;>
    simp_all

namespace Node

variable {n m : Node} (h : m.anonymous = n.anonymous)

include h

theorem map_anonymous_parts : m.kind.parts.map anonymous = n.kind.parts.map anonymous := by
  rw [← Kind.parts_anonymous, ← Kind.parts_anonymous, ← kind_anonymous, h, kind_anonymous]

theorem between_of_anonymous (hm : ∀ part ∈ m.kind.parts, part.Between m.span.start m.span.stop) :
    ∀ part ∈ n.kind.parts, part.Between n.span.start n.span.stop := by
  intro part hpart
  have hmem := List.mem_map_of_mem (f := anonymous) hpart
  rw [← map_anonymous_parts h] at hmem
  obtain ⟨part', hpart', hsame⟩ := List.mem_map.1 hmem
  rw [← between_anonymous, ← hsame, between_anonymous, ← n.span_anonymous, ← h, m.span_anonymous]
  exact hm part' hpart'

theorem endsIn_of_anonymous {ts : List Token} (hm : ∀ c ∈ m.comment, c.span.EndsIn ts) :
    ∀ c ∈ n.comment, c.span.EndsIn ts := by
  intro c hc
  have hcomment : m.comment.map Comment.span = n.comment.map Comment.span := by
    rw [← m.comment_span_anonymous, h, n.comment_span_anonymous]
  rw [Option.mem_def.1 hc, Option.map_some, Option.map_eq_some_iff] at hcomment
  obtain ⟨d, hd, hspan⟩ := hcomment
  rw [← hspan]
  exact hm d hd

theorem params_of_anonymous (hm : ∀ name params body, m.kind = .functionDef name params body →
    params.range = Reader.paramsSpan name params.header) :
    ∀ name params body, n.kind = .functionDef name params body →
      params.range = Reader.paramsSpan name params.header := by
  intro name params body hkind
  have hsame : m.kind.map anonymous = n.kind.map anonymous := by
    rw [← kind_anonymous, h, kind_anonymous]
  rw [hkind] at hsame
  cases hk : m.kind with
  | functionDef name' params' body' =>
      rw [hk, Kind.map, Kind.map, Kind.functionDef.injEq] at hsame
      obtain ⟨hname, hparams, -⟩ := hsame
      rw [← params.range_anonymous, ← hparams, params'.range_anonymous, hm name' params' body' hk]
      exact Reader.paramsSpan_anonymous hname (by rw [← header_anonymous, hparams, header_anonymous])
  | _ =>
      rw [hk] at hsame
      cases hsame

end Node

/-- The roots of a document that was read are placed, whatever identities they get. -/
theorem readDocument_placed {source : String} {read roots : List Node} (h : readDocument source = .ok read)
    (hroots : roots.map Node.anonymous = read.map Node.anonymous) :
    ∃ ls, text ls = source.toList ∧ Placed roots ls := by
  obtain ⟨ls, es, hrun, htext, hparse, rfl, hfills⟩ := readDocument_fills h
  obtain ⟨htidy, hspaced⟩ := readDocument_tidy hparse hrun
  have hread : ∀ n ∈ Forest.nodes roots, ∃ m : Node, m.anonymous = n.anonymous ∧ m.Tidy (tokens .zero ls) := by
    intro n hn
    have hmem := List.mem_map_of_mem (f := Node.anonymous) hn
    rw [Forest.nodes_anonymous hroots] at hmem
    obtain ⟨m, hm, hnm⟩ := List.mem_map.1 hmem
    obtain ⟨root, hroot, hm⟩ := List.mem_flatMap.1 hm
    exact ⟨m, hnm, htidy root hroot m hm⟩
  refine ⟨ls, htext, hrun, hparse.balanced, ?_, ?_, ?_, ?_, ?_, ?_⟩
  · refine hfills.anonymous (fun _ _ _ _ h hnm => h.anonymous hnm) ?_
    have hright : ∀ ns : List Node, (ns.map Sum.inr).map (Sum.map (fun s : Sign => s) Node.anonymous) =
        (ns.map Node.anonymous).map Sum.inr := by simp
    exact (hright _).trans ((congrArg _ hroots.symm).trans (hright _).symm)
  · have hordered : ((Element.attach es).map Node.anonymous).Pairwise fun a b => a.range.stop ≤ b.range.start := by
      refine List.pairwise_map.2 (hspaced.ordered.imp fun {a b} hle => ?_)
      rwa [a.range_anonymous, b.range_anonymous]
    rw [← hroots] at hordered
    refine (List.pairwise_map.1 hordered).imp fun {a b} hle => ?_
    rwa [a.range_anonymous, b.range_anonymous] at hle
  · intro n hn
    obtain ⟨m, hmn, hm⟩ := hread n hn
    exact Node.between_of_anonymous hmn hm.laid.between
  · intro n hn
    obtain ⟨m, hmn, hm⟩ := hread n hn
    exact pairwise_beside_of_anonymous (Node.map_anonymous_parts hmn) hm.laid.beside
  · intro n hn
    obtain ⟨m, hmn, hm⟩ := hread n hn
    exact Node.endsIn_of_anonymous hmn hm.ends
  · intro n hn
    obtain ⟨m, hmn, hm⟩ := hread n hn
    exact Node.params_of_anonymous hmn hm.laid.params

/-! ## Nodes within a node -/

/-- The second node is the first or stands within one of its parts. -/
inductive Node.Within : Node → Node → Prop
  | self (n : Node) : Within n n
  | part {n m l : Node} : m ∈ n.kind.parts → Within m l → Within n l

theorem Node.Within.trans {n m l : Node} (h : n.Within m) (h' : m.Within l) : n.Within l := by
  induction h with
  | self n => exact h'
  | part hm _ ih => exact .part hm (ih h')

theorem Node.bracketed_of_part {n m : Node} (h : m ∈ n.kind.parts) : n.Bracketed := by
  unfold Bracketed
  cases hk : n.kind <;> simp_all [Kind.isList]

theorem Node.Within.bracketed {n m : Node} (h : n.Within m) (hm : m.Bracketed) : n.Bracketed := by
  cases h with
  | self => exact hm
  | part hpart _ => exact bracketed_of_part hpart

theorem Kind.mem_shape {k : Kind Node} {m : Node} : .inr m ∈ k.shape ↔ m ∈ k.parts := by
  rw [← parts_eq, List.mem_filterMap]
  constructor
  · exact fun h => ⟨_, h, rfl⟩
  · rintro ⟨x, hx, hm⟩
    rwa [Sum.getRight?_eq_some_iff.1 hm] at hx

namespace Fills

theorem locate {R : Pos → List Lexeme → Node → Prop} {p : Pos} {ls : List Lexeme}
    {pattern : List (Sign ⊕ Node)} (h : Fills R p ls pattern) {m : Node} (hm : .inr m ∈ pattern) :
    ∃ x own y, ls = x ++ (own ++ y) ∧ R (p.advanceOver (text x)) own m := by
  induction h with
  | nil p => cases hm
  | @silent p l ls pattern hl _ ih =>
      obtain ⟨x, own, y, rfl, hown⟩ := ih hm
      refine ⟨l :: x, own, y, rfl, ?_⟩
      rwa [text_cons, Pos.advanceOver_append]
  | @sign p l s ls pattern hl _ ih =>
      obtain ⟨x, own, y, rfl, hown⟩ := ih (by simpa using hm)
      refine ⟨l :: x, own, y, rfl, ?_⟩
      rwa [text_cons, Pos.advanceOver_append]
  | @part p own ls n pattern hn _ ih =>
      rcases List.mem_cons.1 hm with hm | hm
      · cases hm
        exact ⟨[], own, ls, rfl, hn⟩
      · obtain ⟨x, own', y, rfl, hown⟩ := ih hm
        refine ⟨own ++ x, own', y, by rw [List.append_assoc], ?_⟩
        rwa [text_append, Pos.advanceOver_append]

/-- The parts of a pattern stand one behind the other. -/
theorem ordered {p : Pos} {ls : List Lexeme} {pattern : List (Sign ⊕ Node)} (h : Fills Spans p ls pattern) :
    (∀ m, .inr m ∈ pattern → p ≤ m.span.start ∧ m.span.stop ≤ p.advanceOver (text ls)) ∧
      (pattern.filterMap Sum.getRight?).Pairwise fun a b => a.span.stop ≤ b.span.start := by
  induction h with
  | nil p => exact ⟨by simp, .nil⟩
  | @silent p l ls pattern hl _ ih =>
      obtain ⟨hall, hordered⟩ := ih
      rw [text_cons, Pos.advanceOver_append]
      exact ⟨fun m hm => ⟨(Pos.le_advanceOver p _).trans (hall m hm).1, (hall m hm).2⟩, hordered⟩
  | @sign p l s ls pattern hl _ ih =>
      obtain ⟨hall, hordered⟩ := ih
      rw [text_cons, Pos.advanceOver_append]
      refine ⟨fun m hm => ?_, hordered⟩
      have hm : .inr m ∈ pattern := by simpa using hm
      exact ⟨(Pos.le_advanceOver p _).trans (hall m hm).1, (hall m hm).2⟩
  | @part p own ls n pattern hn _ ih =>
      obtain ⟨hall, hordered⟩ := ih
      obtain ⟨hspan, -, -, -⟩ := hn
      have hle : p ≤ p.advanceOver (text own) := Pos.le_advanceOver p _
      rw [text_append, Pos.advanceOver_append]
      refine ⟨fun m hm => ?_, List.pairwise_cons.2 ⟨fun b hb => ?_, hordered⟩⟩
      · rcases List.mem_cons.1 hm with hm | hm
        · cases hm
          rw [hspan]
          exact ⟨le_refl p, Pos.le_advanceOver _ _⟩
        · exact ⟨hle.trans (hall m hm).1, (hall m hm).2⟩
      · obtain ⟨x, hx, hb⟩ := List.mem_filterMap.1 hb
        rw [Sum.getRight?_eq_some_iff.1 hb] at hx
        rw [hspan]
        exact (hall b hx).1

end Fills

theorem Spans.within {p : Pos} {ls : List Lexeme} {n m : Node} (h : Spans p ls n) (hm : n.Within m) :
    ∃ x own y, ls = x ++ (own ++ y) ∧ Spans (p.advanceOver (text x)) own m := by
  induction hm generalizing p ls with
  | self n => exact ⟨[], ls, [], by simp, h⟩
  | part hpart _ ih =>
      obtain ⟨-, hfills, -, -⟩ := h
      obtain ⟨x, own, y, rfl, hown⟩ := hfills.locate (Kind.mem_shape.2 hpart)
      obtain ⟨x', own', y', rfl, hown'⟩ := ih hown
      refine ⟨x ++ x', own', y' ++ y, by simp, ?_⟩
      rwa [text_append, Pos.advanceOver_append]

/-! ## Brackets in the text -/

/-- The place one column on. -/
def Pos.next (p : Pos) : Pos := ⟨p.line, p.ch + 1⟩

theorem Pos.lt_next (p : Pos) : p < p.next :=
  .inr ⟨rfl, Nat.lt_succ_self _⟩

/-- Nothing lies between a place and the next one. -/
theorem Pos.next_le_iff {p q : Pos} : p.next ≤ q ↔ p < q := by
  simp only [le_def, lt_def, next]
  omega

theorem Pos.advance_opener (p : Pos) (b : Bracket) : p.advance b.opener = p.next := by
  cases b <;> rfl

theorem Pos.advance_closer (p : Pos) (b : Bracket) : p.advance b.closer = p.next := by
  cases b <;> rfl

theorem Lexeme.eq_opening {l : Lexeme} (h : l.sign? = some .opening) : ∃ b, l = .opening b := by
  cases l with
  | opening b => exact ⟨b, rfl⟩
  | _ => cases h

theorem Lexeme.eq_closing {l : Lexeme} (h : l.sign? = some .closing) : ∃ b, l = .closing b := by
  cases l with
  | closing b => exact ⟨b, rfl⟩
  | _ => cases h

/-- A lexeme with a sign is a token that is no comment. -/
theorem Lexeme.token_of_sign? {l : Lexeme} (h : l.sign? ≠ none) (p : Pos) :
    ∃ t, l.token? p = some t ∧ t.kind ≠ .comment ∧ t.span = ⟨p, p.advanceOver l.chars⟩ := by
  cases l with
  | blank c => exact absurd rfl h
  | comment body => exact absurd rfl h
  | _ => exact ⟨_, rfl, by simp [Token.ofChars], rfl⟩

theorem Fills.silent_of_nil {R : Pos → List Lexeme → Node → Prop} {p : Pos} {ls : List Lexeme}
    (h : Fills R p ls []) : ∀ l ∈ ls, l.sign? = none := by
  generalize hpattern : ([] : List (Sign ⊕ Node)) = pattern at h
  induction h with
  | nil p => simp
  | silent hl _ ih => exact List.forall_mem_cons.2 ⟨hl, ih hpattern⟩
  | sign _ _ _ => cases hpattern
  | part _ _ _ => cases hpattern

theorem Fills.first_sign {R : Pos → List Lexeme → Node → Prop} {p : Pos} {ls : List Lexeme} {x : Sign}
    {pattern : List (Sign ⊕ Node)} (h : Fills R p ls (.inl x :: pattern))
    (htight : ∃ l ∈ ls.head?, l.sign? ≠ none) :
    ∃ l rest, ls = l :: rest ∧ l.sign? = some x ∧ Fills R (p.advanceOver l.chars) rest pattern := by
  generalize hpattern : Sum.inl x :: pattern = s at h
  cases h with
  | nil => cases hpattern
  | silent hl _ =>
      obtain ⟨m, hm, hsign⟩ := htight
      cases hm
      exact absurd hl hsign
  | sign hl hrest =>
      cases hpattern
      exact ⟨_, _, rfl, hl, hrest⟩
  | part _ _ => cases hpattern

theorem Fills.last_sign {R : Pos → List Lexeme → Node → Prop} {p : Pos} {ls : List Lexeme} {x : Sign}
    (h : Fills R p ls [.inl x]) (htight : ∃ l ∈ ls.getLast?, l.sign? ≠ none) :
    ∃ before l, ls = before ++ [l] ∧ l.sign? = some x ∧ Fills R p before [] := by
  generalize hpattern : [Sum.inl x] = pattern at h
  induction h with
  | nil p => cases hpattern
  | @silent p l ls pattern hl hrest ih =>
      cases ls with
      | nil =>
          obtain ⟨m, hm, hsign⟩ := htight
          cases hm
          exact absurd hl hsign
      | cons l' ls =>
          rw [List.getLast?_cons_cons] at htight
          obtain ⟨before, last, hls, hlast, hbefore⟩ := ih htight hpattern
          exact ⟨l :: before, last, by rw [hls]; rfl, hlast, .silent hl hbefore⟩
  | @sign p l s ls pattern hl hrest _ =>
      cases hpattern
      cases ls with
      | nil => exact ⟨[], l, rfl, hl, .nil p⟩
      | cons l' ls =>
          -- What follows is silent, but the last lexeme is not.
          rw [List.getLast?_cons_cons] at htight
          obtain ⟨m, hm, hsign⟩ := htight
          exact absurd (hrest.silent_of_nil m (List.mem_of_getLast? hm)) hsign
  | part _ _ _ => cases hpattern

/-- The first and the last lexeme of a list are its brackets. -/
theorem Spans.brackets {p : Pos} {ls : List Lexeme} {n : Node} (h : Spans p ls n) (hn : n.Bracketed) :
    ∃ b b' core inner, ls = .opening b :: (core ++ [.closing b']) ∧ n.kind.shape = inBrackets inner ∧
      Fills Spans p.next core inner := by
  obtain ⟨-, hfills, ⟨hhead, hlast⟩, -⟩ := h
  obtain ⟨inner, hshape⟩ := Kind.shape_of_isList hn
  rw [hshape, inBrackets] at hfills
  obtain ⟨l, rest, rfl, hl, hrest⟩ := hfills.first_sign hhead
  obtain ⟨b, rfl⟩ := eq_opening hl
  obtain ⟨x, y, rfl, hx, hy⟩ := hrest.divide
  have hylast : ∃ m ∈ y.getLast?, m.sign? ≠ none := by
    cases y with
    | nil =>
        generalize hpattern : [Sum.inl Sign.closing] = pattern at hy
        generalize hnil : ([] : List Lexeme) = empty at hy
        cases hy <;> simp_all
    | cons m y =>
        rw [← List.cons_append, List.getLast?_append] at hlast
        simpa [List.getLast?_cons] using hlast
  obtain ⟨before, last, rfl, hsign, hbefore⟩ := hy.last_sign hylast
  obtain ⟨b', rfl⟩ := eq_closing hsign
  refine ⟨b, b', x ++ before, inner, by simp, hshape, ?_⟩
  have hcore := hx.append hbefore
  rw [List.append_nil] at hcore
  rw [← Pos.advance_opener p b]
  exact hcore

/-! ## Ranges that cover no foreign tokens -/

/-- The range of the node covers no tokens outside its span but comments. -/
def Node.Clear (ts : List Token) (n : Node) : Prop :=
  ∀ t ∈ ts, t.kind ≠ .comment → n.range.contains t.span → n.span.contains t.span

instance (ts : List Token) (n : Node) : Decidable (n.Clear ts) :=
  inferInstanceAs (Decidable (∀ t ∈ ts, t.kind ≠ .comment → n.range.contains t.span → n.span.contains t.span))

/-- The node stands among the lexemes of a document, its range is clear, and the lists among its parts
are apart. -/
structure Node.Settled (doc : List Lexeme) (n : Node) : Prop where
  stands : ∃ x own y, doc = x ++ (own ++ y) ∧ Spans (Pos.zero.advanceOver (text x)) own n
  clear : n.Clear (tokens .zero doc)
  apart : n.kind.parts.Pairwise Apart

theorem Lexeme.token?_span {l : Lexeme} (hl : l.Ok) {p : Pos} {t : Token} (h : l.token? p = some t) :
    t.span.start = p ∧ p < t.span.stop ∧ t.span.stop ≤ p.advanceOver l.chars := by
  by_cases hsign : l.sign? = none
  · cases l with
    | comment body =>
        cases h
        exact ⟨rfl, noteAt_span p body⟩
    | blank c => cases h
    | _ => cases hsign
  · obtain ⟨u, hu, -, hspan⟩ := token_of_sign? hsign p
    rw [hu] at h
    cases h
    rw [hspan]
    exact ⟨rfl, Pos.lt_advanceOver (chars_ne_nil hl) p, le_refl _⟩

namespace Node

variable {doc : List Lexeme}

theorem Settled.span_le {n : Node} (h : n.Settled doc) : n.span.start ≤ n.span.stop := by
  obtain ⟨⟨x, own, y, -, ⟨hspan, -, -, -⟩⟩, -, -⟩ := h
  rw [hspan]
  exact Pos.le_advanceOver _ _

/-- Every node that stands in the text starts with a token. -/
theorem Settled.first_token {n : Node} (h : n.Settled doc) (hok : ∀ l ∈ doc, l.Ok) :
    ∃ t ∈ tokens .zero doc, t.kind ≠ .comment ∧ t.span.start = n.span.start ∧
      t.span.start < t.span.stop ∧ t.span.stop ≤ n.span.stop := by
  obtain ⟨⟨x, own, y, rfl, ⟨hspan, -, ⟨⟨l, hl, hsign⟩, -⟩, -⟩⟩, -, -⟩ := h
  obtain ⟨rest, rfl⟩ := List.head?_eq_some_iff.1 hl
  obtain ⟨t, ht, hkind, htspan⟩ := token_of_sign? hsign (Pos.zero.advanceOver (text x))
  refine ⟨t, mem_tokens_of_token? ht, hkind, ?_, ?_, ?_⟩
  · rw [htspan, hspan]
  · rw [htspan]
    exact Pos.lt_advanceOver (chars_ne_nil (hok l (by simp))) _
  · rw [htspan, hspan, text_cons, Pos.advanceOver_append]
    exact Pos.le_advanceOver _ _

/-- The brackets of a list are tokens, and its parts stand between them. -/
theorem Settled.brackets {n : Node} (h : n.Settled doc) (hn : n.Bracketed) :
    ∃ close, (∃ t ∈ tokens .zero doc, t.kind ≠ .comment ∧ t.span = ⟨n.span.start, n.span.start.next⟩) ∧
      (∃ t ∈ tokens .zero doc, t.kind ≠ .comment ∧ t.span = ⟨close, n.span.stop⟩) ∧
      n.span.stop = close.next ∧
      ∀ m ∈ n.kind.parts, n.span.start.next ≤ m.span.start ∧ m.span.stop ≤ close := by
  obtain ⟨⟨x, own, y, rfl, hspans⟩, -, -⟩ := h
  obtain ⟨b, b', core, inner, rfl, hshape, hfills⟩ := hspans.brackets hn
  obtain ⟨hspan, -, -, -⟩ := hspans
  have hclose : Pos.zero.advanceOver (text (x ++ opening b :: core)) =
      (Pos.zero.advanceOver (text x)).next.advanceOver (text core) := by
    rw [text_append, text_cons, Pos.advanceOver_append, Pos.advanceOver_append, ← Pos.advance_opener _ b]
    rfl
  have hstop : (Pos.zero.advanceOver (text x)).advanceOver (text (opening b :: (core ++ [closing b']))) =
      ((Pos.zero.advanceOver (text x)).next.advanceOver (text core)).next := by
    rw [← Pos.advance_closer _ b', ← hclose, ← List.cons_append, ← Pos.advanceOver_append, ← text_append,
      ← List.append_assoc, text_append, Pos.advanceOver_append]
    rfl
  rw [hstop] at hspan
  -- The two brackets are lexemes with a sign, so they are tokens.
  obtain ⟨t, ht, htkind, htspan⟩ := token_of_sign? (l := opening b) (by simp [sign?])
    (Pos.zero.advanceOver (text x))
  obtain ⟨u, hu, hukind, huspan⟩ := token_of_sign? (l := closing b') (by simp [sign?])
    (Pos.zero.advanceOver (text (x ++ opening b :: core)))
  refine ⟨(Pos.zero.advanceOver (text x)).next.advanceOver (text core),
    ⟨t, mem_tokens_of_token? ht, htkind, ?_⟩, ⟨u, ?_, hukind, ?_⟩, ?_, ?_⟩
  · rw [htspan, hspan]
    exact congrArg (Span.mk _) (Pos.advance_opener _ b)
  · have hmem := mem_tokens_of_token? (y := y) hu
    simpa using hmem
  · rw [huspan, hspan, hclose]
    exact congrArg (Span.mk _) (Pos.advance_closer _ b')
  · rw [hspan]
  · intro m hm
    rw [hspan]
    refine hfills.ordered.1 m ?_
    have hmem := Kind.mem_shape.2 hm
    rw [hshape, inBrackets] at hmem
    simpa using hmem

/-- The range of a part of a list ends between the brackets. -/
theorem Settled.part_range {n m : Node} (h : n.Settled doc) (hm : m ∈ n.kind.parts) (hpart : m.Settled doc) :
    n.span.start < m.range.start ∧ m.range.stop < n.span.stop := by
  obtain ⟨close, ⟨t, ht, htkind, htspan⟩, ⟨u, hu, hukind, huspan⟩, hstop, hparts⟩ :=
    h.brackets (bracketed_of_part hm)
  obtain ⟨hstart, hend⟩ := hparts m hm
  have hle : m.span.start ≤ m.span.stop := hpart.span_le
  constructor
  · by_contra hnot
    have hcontains : m.range.contains t.span := by
      rw [Span.contains_iff, htspan]
      exact ⟨not_lt.1 hnot, (hstart.trans hle).trans m.le_range_stop⟩
    have hown := Span.contains_iff.1 (hpart.clear t ht htkind hcontains)
    rw [htspan] at hown
    exact absurd (hown.1.trans_lt (Pos.lt_next _)) (not_lt.2 hstart)
  · rw [hstop]
    by_contra hnot
    have hcontains : m.range.contains u.span := by
      rw [Span.contains_iff, huspan, hstop]
      exact ⟨m.range_start_le.trans (hle.trans hend), not_lt.1 hnot⟩
    have hown := Span.contains_iff.1 (hpart.clear u hu hukind hcontains)
    rw [huspan, hstop] at hown
    exact absurd (hend.trans_lt (Pos.lt_next _)) (not_lt.2 hown.2)

/-- The range of a node properly within a list ends between the brackets of the list. -/
theorem Within.range_between {n m : Node} (h : n.Within m) (hall : ∀ l, n.Within l → l.Settled doc) :
    m = n ∨ n.span.start < m.range.start ∧ m.range.stop < n.span.stop := by
  induction h with
  | self n => exact .inl rfl
  | @part n m l hm hml ih =>
      right
      obtain ⟨hstart, hstop⟩ := (hall n (.self n)).part_range hm (hall m (.part hm (.self m)))
      rcases ih fun l hl => hall l (.part hm hl) with rfl | ⟨hstart', hstop'⟩
      · exact ⟨hstart, hstop⟩
      · exact ⟨(hstart.trans_le m.range_start_le).trans hstart', hstop'.trans (m.le_range_stop.trans_lt hstop)⟩

theorem Within.range_le {n m : Node} (h : n.Within m) (hall : ∀ l, n.Within l → l.Settled doc) :
    n.range.start ≤ m.range.start ∧ m.range.stop ≤ n.range.stop := by
  rcases h.range_between hall with rfl | ⟨hstart, hstop⟩
  · exact ⟨le_refl _, le_refl _⟩
  · exact ⟨n.range_start_le.trans hstart.le, hstop.le.trans n.le_range_stop⟩

/-- If the range of one list ends before that of another starts, so do the ranges within them. -/
theorem ranges_separate {a b m l : Node} (hab : a.range.stop ≤ b.range.start) (hm : a.Within m)
    (hl : b.Within l) (ha : ∀ n, a.Within n → n.Settled doc) (hb : ∀ n, b.Within n → n.Settled doc) :
    m.range.stop ≤ l.range.start :=
  ((hm.range_le ha).2.trans hab).trans (hl.range_le hb).1

/-- Lists that stand one behind the other and are apart have separate ranges. -/
theorem ranges_of_apart {ns : List Node} (hall : ∀ n ∈ ns, n.Settled doc) (hapart : ns.Pairwise Apart)
    (hordered : ns.Pairwise fun a b => a.span.stop ≤ b.span.start) :
    ns.Pairwise fun a b => a.Bracketed → b.Bracketed → a.range.stop ≤ b.range.start := by
  refine (hapart.and hordered).imp_of_mem ?_
  rintro a b ha hb ⟨hab, hle⟩ hla hlb
  rcases hab hla hlb with hlt | hle
  · -- The range of the first would cover the opening bracket of the second.
    obtain ⟨-, ⟨t, ht, htkind, htspan⟩, -, -, -⟩ := (hall b hb).brackets hlb
    have hcontains : a.range.contains t.span := by
      rw [Span.contains_iff, htspan]
      exact ⟨a.range_start_le.trans ((hall a ha).span_le.trans hle), Pos.next_le_iff.2 hlt⟩
    have hown := Span.contains_iff.1 ((hall a ha).clear t ht htkind hcontains)
    rw [htspan] at hown
    exact absurd ((Pos.lt_next _).trans_le (hown.2.trans hle)) (lt_irrefl _)
  · exact hle

theorem Settled.parts_ordered {n : Node} (h : n.Settled doc) :
    n.kind.parts.Pairwise fun a b => a.span.stop ≤ b.span.start := by
  obtain ⟨⟨x, own, y, -, ⟨-, hfills, -, -⟩⟩, -, -⟩ := h
  rw [← Kind.parts_eq]
  exact hfills.ordered.2

/-- One of the two stands within the other, or one range ends before the other starts. -/
def NestedOrSeparate (a b : Node) : Prop :=
  a.Within b ∨ b.Within a ∨ a.range.stop ≤ b.range.start ∨ b.range.stop ≤ a.range.start

theorem nestedOrSeparate_of_siblings {ns : List Node} (hall : ∀ n ∈ ns, ∀ l, n.Within l → l.Settled doc)
    (hapart : ns.Pairwise Apart) (hordered : ns.Pairwise fun a b => a.span.stop ≤ b.span.start)
    {a b m l : Node} (ha : a ∈ ns) (hb : b ∈ ns) (hab : a ≠ b) (hm : a.Within m) (hl : b.Within l)
    (hmlist : m.Bracketed) (hllist : l.Bracketed) : m.NestedOrSeparate l := by
  have hranges : ns.Pairwise fun a b => a.Bracketed → b.Bracketed →
      a.range.stop ≤ b.range.start ∨ b.range.stop ≤ a.range.start :=
    (ranges_of_apart (fun n hn => hall n hn n (.self n)) hapart hordered).imp fun h ha hb => .inl (h ha hb)
  have hsymm : Std.Symm fun a b : Node => a.Bracketed → b.Bracketed →
      a.range.stop ≤ b.range.start ∨ b.range.stop ≤ a.range.start :=
    ⟨fun a b h hb ha => (h ha hb).symm⟩
  rcases hranges.forall ha hb hab (hm.bracketed hmlist) (hl.bracketed hllist) with hle | hle
  · exact .inr (.inr (.inl (ranges_separate hle hm hl (hall a ha) (hall b hb))))
  · exact .inr (.inr (.inr (ranges_separate hle hl hm (hall b hb) (hall a ha))))

theorem Within.nestedOrSeparate {n m l : Node} (hm : n.Within m) (hl : n.Within l)
    (hall : ∀ l, n.Within l → l.Settled doc) (hmlist : m.Bracketed) (hllist : l.Bracketed) :
    m.NestedOrSeparate l := by
  induction hm with
  | self n => exact .inl hl
  | @part n a m ha hm ih =>
      cases hl with
      | self => exact .inr (.inl (.part ha hm))
      | @part _ b _ hb hl =>
          by_cases hab : a = b
          · subst hab
            exact ih hl (fun l hl => hall l (.part ha hl)) hmlist
          · have hn := hall n (.self n)
            exact nestedOrSeparate_of_siblings (fun c hc l hl => hall l (.part hc hl)) hn.apart
              hn.parts_ordered ha hb hab hm hl hmlist hllist

theorem parts_eq_children {n : Node} (h : ∀ name params body, n.kind ≠ .functionDef name params body) :
    n.kind.parts = n.children := by
  unfold children
  cases hk : n.kind with
  | functionDef name params body => exact absurd hk (h name params body)
  | _ => simp [Kind.children, Kind.slots, Slot.nodes]

theorem children_functionDef {n name params body : Node} (h : n.kind = .functionDef name params body) :
    n.children = [name, params, body] := by
  rw [children, h]
  rfl

theorem header_eq_children {n : Node} (h : n.header ≠ [n]) : n.header = n.children := by
  unfold header at h ⊢
  split at h
  · rename_i ids hids
    simp [children, hids, Kind.children, Kind.slots, Slot.nodes]
  · exact absurd rfl h

/-- A child of a node is a part of it, or it is a parameter list and its elements are. -/
theorem part_of_child {n c : Node} (h : c ∈ n.children) :
    c ∈ n.kind.parts ∨ ∃ name body, n.kind = .functionDef name c body ∧
      c.kind.parts = c.header ∧ c.header ⊆ n.kind.parts := by
  by_cases hdef : ∃ name params body, n.kind = .functionDef name params body
  · obtain ⟨name, params, body, hk⟩ := hdef
    rw [children_functionDef hk] at h
    rw [hk]
    have hname : name ∈ (Kind.functionDef name params body).parts := by simp
    have hbody : body ∈ (Kind.functionDef name params body).parts := by simp
    -- A parameter list that is one node stands as a part; made up by the reader, it has its identifiers as
    -- parts instead.
    by_cases hheader : params.header = [params]
    · left
      have hparams : params ∈ (Kind.functionDef name params body).parts := by simp [hheader]
      simp only [List.mem_cons, List.not_mem_nil, or_false] at h
      rcases h with rfl | rfl | rfl
      · exact hname
      · exact hparams
      · exact hbody
    · simp only [List.mem_cons, List.not_mem_nil, or_false] at h
      rcases h with rfl | rfl | rfl
      · exact .inl hname
      · refine .inr ⟨name, body, rfl, ?_, fun m hm => by simp [hm]⟩
        unfold header at hheader ⊢
        split at hheader
        · rename_i ids hids
          rw [hids]
          rfl
        · exact absurd rfl hheader
      · exact .inl hbody
  · left
    rwa [parts_eq_children fun name params body hk => hdef ⟨name, params, body, hk⟩]

/-- A part of a node is a child of it, or a child of its parameter list. -/
theorem child_of_part {n m : Node} (h : m ∈ n.kind.parts) :
    m ∈ n.children ∨ ∃ name params body, n.kind = .functionDef name params body ∧
      params.header ≠ [params] ∧ m ∈ params.children := by
  by_cases hdef : ∃ name params body, n.kind = .functionDef name params body
  · obtain ⟨name, params, body, hk⟩ := hdef
    rw [children_functionDef hk]
    rw [hk] at h
    simp only [Kind.parts, List.mem_cons, List.mem_append, List.not_mem_nil, or_false] at h
    by_cases hheader : params.header = [params]
    · rw [hheader, List.mem_singleton] at h
      simpa using Or.inl h
    · rcases h with rfl | h | rfl
      · simp
      · exact .inr ⟨name, params, body, hk, hheader, header_eq_children hheader ▸ h⟩
      · simp
  · left
    rwa [← parts_eq_children fun name params body hk => hdef ⟨name, params, body, hk⟩]

/-- A part is a child, or it is in one. -/
theorem part_below {n m : Node} (h : m ∈ n.kind.parts) : ∃ c ∈ n.children, m ∈ c.walk := by
  rcases child_of_part h with hm | ⟨name, params, body, hk, -, hm⟩
  · exact ⟨m, hm, mem_walk_self m⟩
  · have hparams : params ∈ n.children := by simp [children_functionDef hk]
    exact ⟨params, hparams, mem_walk_of_child hm⟩

theorem part_mem_walk {n m : Node} (h : m ∈ n.kind.parts) : m ∈ n.walk := by
  obtain ⟨c, hc, hm⟩ := part_below h
  exact mem_walk_trans (mem_walk_of_child hc) hm

theorem Within.mem_walk {n m : Node} (h : n.Within m) : m ∈ n.walk := by
  induction h with
  | self n => exact n.mem_walk_self
  | part hm _ ih => exact mem_walk_trans (part_mem_walk hm) ih

/-- Every descendant but a parameter list stands within a node. -/
theorem within_of_mem_walk {n m : Node} (h : m ∈ n.walk) :
    n.Within m ∨ ∃ f name body, n.Within f ∧ f.kind = .functionDef name m body ∧ m.kind.parts = m.header := by
  induction n using induct with
  | step n ih =>
      rw [walk_eq] at h
      rcases List.mem_cons.1 h with rfl | h
      · exact .inl (.self m)
      · obtain ⟨c, hc, h⟩ := List.mem_flatMap.1 h
        rcases part_of_child hc with hpart | ⟨name, body, hk, hparts, hsub⟩
        · rcases ih c hc h with hm | ⟨f, name, body, hf, hk⟩
          · exact .inl (.part hpart hm)
          · exact .inr ⟨f, name, body, .part hpart hf, hk⟩
        · -- What stands within the parameter list stands within the definition.
          have hlift : ∀ l, c.Within l → l = c ∨ n.Within l := by
            intro l hl
            cases hl with
            | self => exact .inl rfl
            | part hpart hl =>
                rw [hparts] at hpart
                exact .inr (.part (hsub hpart) hl)
          rcases ih c hc h with hm | ⟨f, name', body', hf, hk'⟩
          · rcases hlift m hm with rfl | hm
            · exact .inr ⟨n, name, body, .self n, hk, hparts⟩
            · exact .inl hm
          · rcases hlift f hf with rfl | hf
            · rw [hk'.1] at hparts
              simp [header, hk'.1] at hparts
            · exact .inr ⟨f, name', body', hf, hk'⟩

end Node

/-! ## Roots in the text -/

namespace Placed

variable {roots : List Node} {doc : List Lexeme} (h : Placed roots doc)
  (hclear : ∀ n ∈ Forest.nodes roots, n.Clear (tokens .zero doc))

include h

omit hclear in
theorem stands {root n : Node} (hroot : root ∈ roots) (hn : root.Within n) :
    ∃ x own y, doc = x ++ (own ++ y) ∧ Spans (Pos.zero.advanceOver (text x)) own n := by
  obtain ⟨x, own, y, hdoc, hown⟩ := h.fills.locate (List.mem_map_of_mem hroot)
  obtain ⟨x', own', y', rfl, hown'⟩ := hown.within hn
  refine ⟨x ++ x', own', y' ++ y, by simp [hdoc], ?_⟩
  rwa [text_append, Pos.advanceOver_append]

include hclear

theorem settled {root n : Node} (hroot : root ∈ roots) (hn : root.Within n) : n.Settled doc := by
  have hmem : n ∈ Forest.nodes roots := List.mem_flatMap.2 ⟨root, hroot, hn.mem_walk⟩
  exact ⟨h.stands hroot hn, hclear n hmem, h.apart hmem⟩

/-- Of two lists of a document one stands within the other, or their ranges are separate. -/
theorem nestedOrSeparate {r s m l : Node} (hr : r ∈ roots) (hs : s ∈ roots) (hm : r.Within m)
    (hl : s.Within l) (hmlist : m.Bracketed) (hllist : l.Bracketed) : m.NestedOrSeparate l := by
  by_cases hrs : r = s
  · subst hrs
    exact hm.nestedOrSeparate hl (fun n hn => h.settled hclear hr hn) hmlist hllist
  · refine Node.nestedOrSeparate_of_siblings (fun n hn l hl => h.settled hclear hn hl)
      (h.rootsOrdered.imp fun hle _ _ => .inr hle) ?_ hr hs hrs hm hl hmlist hllist
    have hordered := h.fills.ordered.2
    rwa [List.filterMap_map, show Sum.getRight? ∘ (Sum.inr : Node → Sign ⊕ Node) = some from rfl,
      List.filterMap_some] at hordered

end Placed

end TreeEdit
