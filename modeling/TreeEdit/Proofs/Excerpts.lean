import TreeEdit.Proofs.Nesting
import TreeEdit.Proofs.Roles
import TreeEdit.Proofs.RootEdits
import TreeEdit.Proofs.Tiling

/-!
# A node is read again from its own text

What stands in the span of a node can be cut out of the text and read on its own. Nothing outside the span has
any part in the kind of the node or in what lies in it, and no comment crosses the brackets of a list other than
to hang on the list itself. So reading the excerpt gives one root, the node without its comment
(`reads_again_from_own_text`).

Clauses, bindings and lists of identifiers are left out: they are what they are by their place in a form, and on
their own are read as applications or not at all.
-/

namespace TreeEdit

open Reader Lexeme

/-- A kind and a span that a text has somewhere: the grammar derives them from what stands in the span, whatever
stands around it. -/
def Kind.Alone (whole : List Lexeme) (s : Span) (k : Kind Node) : Prop :=
  k.role = .standing → ∃ x own y, whole = x ++ (own ++ y) ∧
    s = ⟨Pos.zero.advanceOver (text x), Pos.zero.advanceOver (text x ++ text own)⟩ ∧
    Parses (Pos.zero.advanceOver (text x)) own [.expr (.make k s)]

namespace Reader

theorem inherited_alone (whole : List Lexeme) :
    Inherited (fun n => ∀ m ∈ n.walk, m.kind.Alone whole m.span) fun _ => True := by
  refine .of_places (fun s k h hrole => ?_) fun _ _ _ _ _ hrole => nomatch hrole
  rw [Kind.raw_eq_of_role hrole] at h
  exact h hrole

theorem leaf_alone {whole x y : List Lexeme} {l : Lexeme} {t : Token} (hwhole : whole = x ++ ([l] ++ y))
    (hkind : t.kind = .atom ∨ t.kind = .string) (htoken : l.token? (Pos.zero.advanceOver (text x)) = some t) :
    (leaf t).kind.Alone whole (leaf t).span := by
  intro _
  refine ⟨x, [l], y, hwhole, ?_, .word hkind htoken (.nil _)⟩
  obtain ⟨hspan, -, -, -⟩ := spans_leaf hkind htoken
  rw [hspan, Pos.advanceOver_append]

theorem list_alone {whole x y inner : List Lexeme} {b : Bracket} {es : List Element} {p q : Pos}
    (hwhole : whole = x ++ (.opening b :: (inner ++ [.closing b]) ++ y)) (hp : p = Pos.zero.advanceOver (text x))
    (hstop : q = p.advanceOver (text (.opening b :: (inner ++ [.closing b]))))
    (hinner : Parses (p.advance b.opener) inner es) :
    (recognise (Element.attach es)).Alone whole ⟨p, q⟩ := by
  intro _
  refine ⟨x, .opening b :: (inner ++ [.closing b]), y, hwhole, ?_, hp ▸ .list b hstop hinner (.nil q)⟩
  rw [hstop, hp, Pos.advanceOver_append]

end Reader

/-- What stands in the span is read on its own, with places counted from the start of the span. -/
theorem Kind.Alone.reads {source : String} {whole : List Lexeme} {s : Span} {k : Kind Node} (h : k.Alone whole s)
    (hrole : k.role = .standing) (hrun : Run whole) (htext : text whole = source.toList) :
    ∃ part m, slice? source s = some part ∧ readDocument part = .ok [m] ∧ m.beyond s.start = .make k s := by
  obtain ⟨x, own, y, rfl, hs, hparses⟩ := h hrole
  obtain ⟨es, hes, hmoved⟩ := hparses.of_beyond (q := .zero) (Pos.beyond_zero _).symm
  obtain ⟨e, rfl, he⟩ := List.map_eq_singleton_iff.1 hmoved.symm
  have hread := readDocument_of_parses hrun.right.left hes
  refine ⟨String.ofList (text own), ?_⟩
  cases e with
  | note t => cases he
  | expr m =>
      refine ⟨m, ?_, hread, ?_⟩
      · rw [hs]
        exact slice?_of_append (b := text y) (by rw [← htext, text_append, text_append])
      · rw [hs] at he ⊢
        exact Element.expr.inj he

/-- What stands in the span of a node can be cut out of the text, and read on its own it is the node without its
comment, with places counted from the start of the span. Clauses, bindings and lists of identifiers have no reading of
their own. -/
theorem reads_again_from_own_text {source : String} {roots : List Node} (h : readDocument source = .ok roots) {n : Node}
    (hn : n ∈ Forest.nodes roots) (hrole : n.kind.role = .standing) :
    ∃ part m, slice? source n.span = some part ∧ readDocument part = .ok [m] ∧
      m.bare = (n.withComment none).bare ∧ m.span.beyond n.span.start = n.span := by
  obtain ⟨ls, es, hrun, htext, hparses, rfl, -⟩ := readDocument_fills h
  have halone : n.kind.Alone ls n.span :=
    hparses.places (inherited_alone ls) leaf_alone
      (fun hwhole hp hstop hinner _ => list_alone hwhole hp hstop hinner) n hn
  obtain ⟨part, m, hpart, hread, hmoved⟩ := halone.reads hrole hrun htext
  refine ⟨part, m, hpart, hread, ?_, ?_⟩
  · rw [← m.bare_beyond n.span.start, hmoved, Node.bare_make, Node.bare_withComment, Node.bare_eq]
    rfl
  · rw [← Node.span_beyond, hmoved, Node.make]

/-- The comment of a keyword, which goes to the first binding, goes there again; the comment of the form itself is not
in its text. -/
theorem reads_again_from_own_text_commented_let :
    ∃ n m, readDocument "; k\n(let ; l\n ([s \"é\n\"])\n s)" = .ok [n] ∧ n.comment.map Comment.text = some "; k" ∧
      n.kind.role = .standing ∧
      slice? "; k\n(let ; l\n ([s \"é\n\"])\n s)" n.span = some "(let ; l\n ([s \"é\n\"])\n s)" ∧
      readDocument "(let ; l\n ([s \"é\n\"])\n s)" = .ok [m] ∧ m.bare = (n.withComment none).bare := by
  have hfacts : (readDocument "; k\n(let ; l\n ([s \"é\n\"])\n s)").toOption.map (List.map fun n =>
      (n.comment.map Comment.text, n.kind.role, slice? "; k\n(let ; l\n ([s \"é\n\"])\n s)" n.span)) =
      some [(some "; k", .standing, some "(let ; l\n ([s \"é\n\"])\n s)")] := by
    decide +kernel
  cases hread : readDocument "; k\n(let ; l\n ([s \"é\n\"])\n s)" with
  | error e => simp [hread, Except.toOption] at hfacts
  | ok roots =>
      rw [hread, Except.toOption, Option.map_some, Option.some_inj] at hfacts
      obtain ⟨n, rfl, hn⟩ := List.map_eq_singleton_iff.1 hfacts
      obtain ⟨hcomment, hrole, hslice⟩ := by simpa only [Prod.mk.injEq] using hn
      obtain ⟨part, m, hpart, hpartRead, hbare, -⟩ := reads_again_from_own_text hread
        (List.mem_flatMap.2 ⟨n, List.mem_cons_self, n.mem_walk_self⟩) hrole
      cases hslice.symm.trans hpart
      exact ⟨n, m, rfl, hcomment, hrole, hslice, hpartRead, hbare⟩

end TreeEdit
