import TreeEdit.Proofs.Territory

/-!
# Children lie in their parents, one behind the other

A comment may be passed on from the keyword, from a function header or from a list of bindings to another node
of the form, and the parameters of a function are a node without brackets of its own, whose span is made up from
the parameters and their comments. None of this leads out of the form, and none of it changes the order: the
range of every child lies in the span of its parent, and the spans of the children follow one another in the
order of the slots (`children_nest_in_slot_order`).

The parameters and the name of a function come from its header, so the header has to be in order before the
function is: `Kind.Stacked` says so of every list that may become one, and `Reader.Parses.places` proves it of all
nodes.
-/

namespace TreeEdit

open Reader Lexeme

/-! ## Children in their parents -/

/-- The ranges of the children lie in the span, and their spans follow one another. The elements of a list
that may yet become the header of a function have separate ranges. -/
structure Kind.Stacked (s : Span) (k : Kind Node) : Prop where
  proper : s.start ≤ s.stop
  inside : ∀ m ∈ k.children, s.contains m.range = true
  ordered : k.children.Pairwise fun a b => a.span.stop ≤ b.span.start
  spaced : ∀ func args, k = .app func args → Spaced s.start (func :: args) s.stop

theorem Kind.Stacked.of_raw {s : Span} {k : Kind Node} (h : k.raw.Stacked s) : k.Stacked s := by
  refine ⟨h.proper, k.children_raw ▸ h.inside, k.children_raw ▸ h.ordered, ?_⟩
  rintro func args rfl
  exact h.spaced func args rfl

theorem Node.Between.contains {s : Span} {n : Node} (h : n.Between s.start s.stop) : s.contains n.range = true :=
  Span.contains_iff.2 ⟨h.start, h.stop⟩

/-- The parameters of a function stand between its name and the end of the header. -/
theorem Spaced.params_between {p q : Pos} {name : Node} {ids : List Node} (h : Spaced p (name :: ids) q) :
    name.span.stop ≤ (paramsSpan name ids).start ∧ (paramsSpan name ids).start ≤ (paramsSpan name ids).stop ∧
      (paramsSpan name ids).stop ≤ q := by
  cases hids : ids with
  | nil => exact ⟨le_refl _, le_refl _, name.le_range_stop.trans (h.between name List.mem_cons_self).stop⟩
  | cons first rest =>
      subst hids
      obtain ⟨last, hlast⟩ := List.getLast?_isSome.2 (List.cons_ne_nil first rest) |> Option.isSome_iff_exists.1
      have hspan : paramsSpan name (first :: rest) = ⟨first.range.start, last.range.stop⟩ := by
        rw [paramsSpan, List.head?_cons, hlast]
      have hfirst : first.Between (paramsSpan name (first :: rest)).start (paramsSpan name (first :: rest)).stop :=
        h.tail.between_ends first List.mem_cons_self
      have hnext := (List.pairwise_cons.1 h.ordered).1 first List.mem_cons_self
      refine ⟨?_, hfirst.start.trans (hfirst.range_le.trans hfirst.stop), ?_⟩
      · rw [hspan]
        exact name.le_range_stop.trans hnext
      · rw [hspan]
        exact (h.between last (List.mem_cons_of_mem _ (List.mem_of_getLast? hlast))).stop

namespace Reader

theorem inherited_stacked : Inherited (fun n => ∀ m ∈ n.walk, m.kind.Stacked m.span) fun _ => True := by
  refine .of_places (fun _ _ h => h.of_raw) fun s name ids h _ => ?_
  have hheader := h.spaced name ids rfl
  have hchildren : (Kind.identifiers ids).children = ids := by simp [Kind.children, Kind.slots, Slot.nodes]
  refine ⟨hheader.params_between.2.1, fun m hm => ?_, ?_, by rintro _ _ ⟨⟩⟩
  · rw [hchildren] at hm
    exact (hheader.tail.between_ends m hm).contains
  · rw [hchildren]
    exact hheader.tail.ordered.imp fun {a b} hle => a.le_range_stop.trans (hle.trans b.range_start_le)

/-- A function is only recognised with a header, and its parameters come from the header. -/
theorem recognise_functionDef {items : List Node} {name params body : Node}
    (h : recognise items = .functionDef name params body) :
    ∃ head target own ids, passKeywordComment items = [head, target, body] ∧ target.kind = .app own ids ∧
      name.span = own.span ∧ params = .make (.identifiers ids) (paramsSpan own ids) := by
  rcases recognise_cases items with ⟨-, hrec⟩ | ⟨keyword, -, -, hformed | hrec⟩
  · rw [hrec] at h
    cases items <;> cases h
  · rw [h] at hformed
    generalize passKeywordComment items = passed at hformed
    cases hformed with
    | @functionDef head target own _ ids header =>
        exact ⟨head, target, own, ids, rfl, (symbols?_eq_some header).1, own.span_addNotes _, rfl⟩
  · rw [hrec] at h
    cases h

/-- A definition of a function whose header keeps its place has its children in place. -/
theorem functionDef_stacked {s : Span} {items : List Node} {name params body : Node}
    (hitems : Spaced s.start items s.stop) (hlists : ∀ n ∈ passKeywordComment items, n.kind.Stacked n.span)
    (hbetween : name.Between s.start s.stop) (h : recognise items = .functionDef name params body) :
    (∀ m ∈ [name, params, body], s.contains m.range = true) ∧
      [name, params, body].Pairwise fun a b => a.span.stop ≤ b.span.start := by
  obtain ⟨head, target, own, ids, hpassed, htarget, hname, hparams⟩ := recognise_functionDef h
  have hrest : Spaced s.start [target, body] s.stop := by
    have hrest := passKeywordComment_spaced hitems
    rwa [hpassed] at hrest
  have hheader := (hlists target (by simp [hpassed])).spaced own ids htarget
  obtain ⟨hstart, hproper, hstop⟩ := hheader.params_between
  have htargetIn := hrest.between target (by simp)
  have hbodyIn := hrest.between body (by simp)
  have hownIn := hheader.between own (by simp)
  have hbody : target.span.stop ≤ body.span.start := by
    have hle := (List.pairwise_cons.1 hrest.ordered).1 body (by simp)
    exact target.le_range_stop.trans (hle.trans body.range_start_le)
  have hspan : params.span = paramsSpan own ids := by rw [hparams, Node.make]
  have hrange : params.range = paramsSpan own ids := by rw [hparams, Node.make, Node.range]
  have hfrom : s.start ≤ (paramsSpan own ids).start :=
    calc s.start ≤ target.range.start := htargetIn.start
      _ ≤ target.span.start := target.range_start_le
      _ ≤ own.range.start := hownIn.start
      _ ≤ own.span.start := own.range_start_le
      _ ≤ own.span.stop := hownIn.proper.le
      _ ≤ (paramsSpan own ids).start := hstart
  have hupto : (paramsSpan own ids).stop ≤ s.stop :=
    calc (paramsSpan own ids).stop ≤ target.span.stop := hstop
      _ ≤ target.range.stop := target.le_range_stop
      _ ≤ s.stop := htargetIn.stop
  refine ⟨?_, ?_⟩
  · simp only [List.forall_mem_cons, hrange]
    exact ⟨hbetween.contains, Span.contains_iff.2 ⟨hfrom, hupto⟩, hbodyIn.contains, List.forall_mem_nil _⟩
  · simp only [List.pairwise_cons, List.forall_mem_cons, hspan, hname]
    refine ⟨⟨hstart, ?_, List.forall_mem_nil _⟩, ⟨hstop.trans hbody, List.forall_mem_nil _⟩,
      List.forall_mem_nil _, .nil⟩
    exact hstart.trans (hproper.trans (hstop.trans hbody))

theorem leaf_stacked {p : Pos} {l : Lexeme} {t : Token} (hl : l.Ok) (h : l.token? p = some t) :
    (leaf t).kind.Stacked (leaf t).span := by
  have hchildren : (leaf t).kind.children = [] := leaf_children t
  refine ⟨?_, by simp [hchildren], by simp [hchildren], ?_⟩
  · obtain ⟨hstart, hlt, -⟩ := token?_span hl h
    exact hstart.trans_le hlt.le
  · intro func args hkind
    simp [hkind, Kind.children, Kind.slots, Slot.nodes] at hchildren

theorem list_stacked {p q : Pos} {b : Bracket} {inner : List Lexeme} {es : List Element}
    (hstop : q = p.advanceOver (text (.opening b :: (inner ++ [.closing b]))))
    (hinner : Parses (p.advance b.opener) inner es) (hok : ∀ l ∈ inner, l.Ok)
    (hitems : ∀ n ∈ Element.attach es, ∀ m ∈ n.walk, m.kind.Stacked m.span) :
    (recognise (Element.attach es)).Stacked ⟨p, q⟩ := by
  have hspaced : Spaced p (Element.attach es) q := by
    refine (hinner.rowed hok).attach.mono (p.lt_advance _).le ?_
    rw [hstop, text_cons, text_append, Pos.advanceOver_append, Pos.advanceOver_append]
    exact Pos.le_advanceOver _ _
  have hlaid : (recognise (Element.attach es)).Laid ⟨p, q⟩ := by
    have htidy := (Parses.list b hstop hinner (.nil q)).tidy
      (by simpa [or_imp, forall_and, Lexeme.Ok] using hok) fun u (hu : u ∈ tokens p _) => hu
    exact (htidy.1 _ List.mem_cons_self _ (Node.mem_walk_self _)).laid
  obtain ⟨-, hfills, -, -⟩ := spans_list hstop hinner.balanced hinner.fills
  have hordered := hfills.ordered.2
  rw [Kind.parts_eq] at hordered
  -- Only a function has a child that is no part of its own, and parts that are no children.
  have hchildren : (∀ m ∈ (recognise (Element.attach es)).children, (Span.mk p q).contains m.range = true) ∧
      (recognise (Element.attach es)).children.Pairwise fun a b => a.span.stop ≤ b.span.start := by
    by_cases hfunction : ∃ name params body, recognise (Element.attach es) = .functionDef name params body
    · obtain ⟨name, params, body, hkind⟩ := hfunction
      have hlists := inherited_stacked.passKeywordComment hitems
      have hname := hlaid.between name (by simp [hkind, Kind.parts])
      rw [hkind]
      exact functionDef_stacked hspaced (fun n hn => hlists n hn n n.mem_walk_self) hname hkind
    · have hparts : (recognise (Element.attach es)).parts = (recognise (Element.attach es)).children :=
        Node.parts_eq_children (n := .make (recognise (Element.attach es)) ⟨p, q⟩) fun name params body hkind =>
          hfunction ⟨name, params, body, hkind⟩
      rw [← hparts]
      exact ⟨fun m hm => (hlaid.between m hm).contains, hordered⟩
  exact ⟨hstop ▸ Pos.le_advanceOver _ _, hchildren.1, hchildren.2, hlaid.inside⟩

end Reader

/-- Every child of a node, with its comment, lies in the span of the node, and the spans of the children follow one
another in the order of the slots; the parameters of a function stand between its name and its body. -/
theorem children_nest_in_slot_order {source : String} {roots : List Node}
    (h : readDocument source = .ok roots) :
    ∀ n ∈ Forest.nodes roots, n.span.start ≤ n.span.stop ∧ (∀ c ∈ n.children, n.span.contains c.range = true) ∧
      n.children.Pairwise fun a b => a.span.stop ≤ b.span.start := by
  obtain ⟨ls, es, hrun, -, hparses, rfl, -⟩ := readDocument_fills h
  have hstacked := hparses.places inherited_stacked
    (fun {x y l t} hwhole _ htoken => leaf_stacked (hrun.ok l (by simp [hwhole])) htoken)
    (fun {x y b inner es p q} hwhole _ hstop hinner hitems =>
      list_stacked hstop hinner (fun l hl => hrun.ok l (by simp [hwhole, hl])) hitems)
  exact fun n hn => ⟨(hstacked n hn).proper, (hstacked n hn).inside, (hstacked n hn).ordered⟩

/-- A comment in front of a header goes to the name; parameters that are missing have a place behind the name. -/
theorem children_nest_in_slot_order_functions :
    ∃ f g, readDocument "(define ; d\n (f x ; x\n y) x)\n(define (g) 1)" = .ok [f, g] ∧
      f.children.map Node.span = [⟨⟨1, 2⟩, ⟨1, 3⟩⟩, ⟨⟨1, 4⟩, ⟨2, 2⟩⟩, ⟨⟨2, 4⟩, ⟨2, 5⟩⟩] ∧
      g.children.map Node.span = [⟨⟨3, 9⟩, ⟨3, 10⟩⟩, ⟨⟨3, 10⟩, ⟨3, 10⟩⟩, ⟨⟨3, 12⟩, ⟨3, 13⟩⟩] ∧
      ∀ n ∈ [f, g], (∀ c ∈ n.children, n.span.contains c.range = true) ∧
        n.children.Pairwise fun a b => a.span.stop ≤ b.span.start := by
  have hspans : (readDocument "(define ; d\n (f x ; x\n y) x)\n(define (g) 1)").toOption.map
      (List.map fun n => n.children.map Node.span) =
      some [[⟨⟨1, 2⟩, ⟨1, 3⟩⟩, ⟨⟨1, 4⟩, ⟨2, 2⟩⟩, ⟨⟨2, 4⟩, ⟨2, 5⟩⟩],
        [⟨⟨3, 9⟩, ⟨3, 10⟩⟩, ⟨⟨3, 10⟩, ⟨3, 10⟩⟩, ⟨⟨3, 12⟩, ⟨3, 13⟩⟩]] := by
    decide +kernel
  cases hread : readDocument "(define ; d\n (f x ; x\n y) x)\n(define (g) 1)" with
  | error e => simp [hread, Except.toOption] at hspans
  | ok roots =>
      rw [hread, Except.toOption, Option.map_some, Option.some_inj] at hspans
      obtain ⟨f, _, rfl, hf, hspans⟩ := List.map_eq_cons_iff.1 hspans
      obtain ⟨g, _, rfl, hg, hspans⟩ := List.map_eq_cons_iff.1 hspans
      cases List.map_eq_nil_iff.1 hspans
      refine ⟨f, g, rfl, hf, hg, fun n hn => ?_⟩
      exact (children_nest_in_slot_order hread n (List.mem_flatMap.2 ⟨n, hn, n.mem_walk_self⟩)).2

end TreeEdit
