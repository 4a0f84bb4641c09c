import Mathlib
import TreeEdit.Proofs.Territory

/-!
# Code in the range of a node

The range of a node takes in its comment. A comment hung on an expression where it was read has no code
between itself and the expression, so all items of a list have clear ranges (`Element.attach_clear`). A
form moves comments on: that of its keyword to the next item, that of a function header to the name, that
of a list of bindings to the first of them or to the body. Between such a comment and its heir there may
be the keyword, brackets and other items. This is the only way in which the range of a node comes to cover
foreign code, and it does come about: see `keyword_in_range_of_test`.
-/

namespace TreeEdit

open Reader Lexeme

/-! ## Tokens by their places -/

namespace Lexeme

theorem mem_tokens_between {p : Pos} {ls : List Lexeme} (hok : ∀ l ∈ ls, l.Ok) {t : Token}
    (ht : t ∈ tokens p ls) :
    p ≤ t.span.start ∧ t.span.start < t.span.stop ∧ t.span.stop ≤ p.advanceOver (text ls) := by
  obtain ⟨x, l, y, rfl, htoken⟩ := mem_tokens_iff.1 ht
  obtain ⟨hstart, hlt, hstop⟩ := token?_span (hok l (by simp)) htoken
  refine ⟨?_, ?_, hstop.trans ?_⟩
  · rw [hstart]
    exact Pos.le_advanceOver p _
  · rw [hstart]
    exact hlt
  · rw [text_append, text_cons, Pos.advanceOver_append, Pos.advanceOver_append]
    exact Pos.le_advanceOver _ _

theorem tokens_ordered {p : Pos} {ls : List Lexeme} (hok : ∀ l ∈ ls, l.Ok) :
    (tokens p ls).Pairwise fun t u => t.span.stop ≤ u.span.start := by
  induction ls generalizing p with
  | nil => exact .nil
  | cons l ls ih =>
      obtain ⟨hl, hls⟩ := List.forall_mem_cons.1 hok
      rw [tokens]
      refine List.pairwise_append.2 ⟨?_, ih hls, fun t ht u hu => ?_⟩
      · cases l.token? p with
        | none => exact .nil
        | some t => exact List.pairwise_singleton _ t
      · obtain ⟨-, -, hstop⟩ := token?_span hl (Option.mem_toList.1 ht)
        exact hstop.trans (mem_tokens_between hls hu).1

/-- Of two tokens one ends before the other starts. -/
theorem tokens_apart {p : Pos} {ls : List Lexeme} (hok : ∀ l ∈ ls, l.Ok) {t u : Token} (ht : t ∈ tokens p ls)
    (hu : u ∈ tokens p ls) (hne : t ≠ u) : t.span.stop ≤ u.span.start ∨ u.span.stop ≤ t.span.start := by
  have hsymm : Std.Symm fun t u : Token => t.span.stop ≤ u.span.start ∨ u.span.stop ≤ t.span.start :=
    ⟨fun _ _ h => h.symm⟩
  exact ((tokens_ordered hok).imp .inl : (tokens p ls).Pairwise fun t u =>
    t.span.stop ≤ u.span.start ∨ u.span.stop ≤ t.span.start).forall ht hu hne

/-- The tokens of a text that lie in a stretch of it are the tokens of the stretch. -/
theorem mem_tokens_of_between {x ls y : List Lexeme} (hok : ∀ l ∈ x ++ (ls ++ y), l.Ok) {t : Token}
    (ht : t ∈ tokens .zero (x ++ (ls ++ y))) (hstart : Pos.zero.advanceOver (text x) ≤ t.span.start)
    (hstop : t.span.stop ≤ (Pos.zero.advanceOver (text x)).advanceOver (text ls)) :
    t ∈ tokens (Pos.zero.advanceOver (text x)) ls := by
  have hlt := (mem_tokens_between hok ht).2.1
  rw [tokens_append, tokens_append, List.mem_append, List.mem_append] at ht
  rcases ht with ht | ht | ht
  · have hx := (mem_tokens_between (fun l hl => hok l (by simp [hl])) ht).2.2
    exact absurd (hlt.trans_le (hx.trans hstart)) (lt_irrefl _)
  · exact ht
  · have hy := (mem_tokens_between (fun l hl => hok l (by simp [hl])) ht).1
    exact absurd (hlt.trans_le (hstop.trans hy)) (lt_irrefl _)

end Lexeme

/-! ## Expressions where they were read -/

/-- Every token of a stretch that is no comment lies in an expression of it. -/
theorem Reader.Parses.holds {p : Pos} {ls : List Lexeme} {es : List Element} (h : Parses p ls es)
    (hok : ∀ l ∈ ls, l.Ok) :
    ∀ t ∈ tokens p ls, t.kind ≠ .comment → ∃ n, .expr n ∈ es ∧ n.span.contains t.span := by
  induction h with
  | nil p => simp [tokens]
  | blank c _ ih => exact ih (List.forall_mem_cons.1 hok).2
  | comment body _ ih =>
      intro t ht hkind
      rcases List.mem_append.1 ht with ht | ht
      · cases List.mem_singleton.1 ht
        exact absurd rfl hkind
      · obtain ⟨n, hn, hspan⟩ := ih (List.forall_mem_cons.1 hok).2 t ht hkind
        exact ⟨n, List.mem_cons_of_mem _ hn, hspan⟩
  | @word p l u ls es _ htoken _ ih =>
      intro t ht hkind
      rw [tokens, htoken] at ht
      rcases List.mem_append.1 ht with ht | ht
      · obtain rfl : t = u := by simpa using ht
        exact ⟨leaf t, List.mem_cons_self, Span.contains_iff.2 ⟨le_refl _, le_refl _⟩⟩
      · obtain ⟨n, hn, hspan⟩ := ih (List.forall_mem_cons.1 hok).2 t ht hkind
        exact ⟨n, List.mem_cons_of_mem _ hn, hspan⟩
  | @list p q b inner ls es fs hstop _ _ _ ih =>
      intro t ht hkind
      rw [list_eq_append] at hok
      rw [list_eq_append, tokens_append, List.mem_append, ← hstop] at ht
      rcases ht with ht | ht
      · -- Whatever stands between the brackets lies in the list.
        obtain ⟨hge, -, hle⟩ := mem_tokens_between (fun l hl => hok l (List.mem_append_left _ hl)) ht
        rw [← hstop] at hle
        exact ⟨_, List.mem_cons_self, Span.contains_iff.2 ⟨hge, hle⟩⟩
      · obtain ⟨n, hn, hspan⟩ := ih (fun l hl => hok l (List.mem_append_right _ hl)) t ht hkind
        exact ⟨n, List.mem_cons_of_mem _ hn, hspan⟩

namespace Element

variable {p q : Pos} {ts : List Token}

/-- Every token that is no comment and lies between two places lies in an expression. -/
def Holds (ts : List Token) (p : Pos) (es : List Element) (q : Pos) : Prop :=
  ∀ t ∈ ts, t.kind ≠ .comment → p ≤ t.span.start → t.span.stop ≤ q →
    t.span.start < t.span.stop ∧ ∃ n, expr n ∈ es ∧ n.span.contains t.span

/-- An expression among elements in a row covers no code of the others. -/
theorem Block.clear {before block after : List Element} {m : Node} (h : Block block m)
    (hrow : Rowed p (before ++ (block ++ after)) q) (hholds : Holds ts p (before ++ (block ++ after)) q) :
    m.Clear ts := by
  intro t ht hkind hrange
  obtain ⟨hstart, hstop⟩ := Span.contains_iff.1 hrange
  obtain ⟨⟨first, hfirst, hfirst'⟩, last, hlast, hlast'⟩ := h.range_mem hrow.right.left.fresh
  obtain ⟨-, hright, hcross⟩ := List.pairwise_append.1 hrow.ordered
  obtain ⟨-, -, hcross'⟩ := List.pairwise_append.1 hright
  have hge : p ≤ t.span.start := (hrow.start first (by simp [hfirst])).trans (hfirst' ▸ hstart)
  have hle : t.span.stop ≤ q := (hlast' ▸ hstop).trans (hrow.stop last (by simp [hlast]))
  obtain ⟨hlt, n, hn, hspan⟩ := hholds t ht hkind hge hle
  obtain ⟨hnstart, hnstop⟩ := Span.contains_iff.1 hspan
  rcases List.mem_append.1 hn with hn | hn
  · -- An expression before the block ends before the range starts.
    have hsep := hcross _ hn first (List.mem_append_left _ hfirst)
    rw [hfirst'] at hsep
    exact absurd (hlt.trans_le ((hnstop.trans hsep).trans hstart)) (lt_irrefl _)
  · rcases List.mem_append.1 hn with hn | hn
    · obtain ⟨own, notes, notes', rfl, hhung⟩ := h
      obtain rfl : n = own := by simpa using hn
      rwa [hhung.sameShape.1]
    · have hsep := hcross' last hlast _ hn
      rw [hlast'] at hsep
      exact absurd (hlt.trans_le ((hstop.trans hsep).trans hnstart)) (lt_irrefl _)

theorem blocks_clear {blocks : List (List Element)} {ns : List Node} (h : List.Forall₂ Block blocks ns)
    {before after : List Element} (hrow : Rowed p (before ++ (blocks.flatten ++ after)) q)
    (hholds : Holds ts p (before ++ (blocks.flatten ++ after)) q) : ∀ m ∈ ns, m.Clear ts := by
  induction h generalizing before with
  | nil => simp
  | @cons block m blocks ms hblock _ ih =>
      rw [List.flatten_cons, List.append_assoc] at hrow hholds
      refine List.forall_mem_cons.2 ⟨hblock.clear hrow hholds, ?_⟩
      rw [← List.append_assoc] at hrow hholds
      exact ih hrow hholds

/-- Hung on an expression where it was read, a comment has no code between itself and the expression. -/
theorem attach_clear {es : List Element} (hrow : Rowed p es q) (hholds : Holds ts p es q) :
    ∀ m ∈ attach es, m.Clear ts := by
  obtain ⟨blocks, left, hes, hblocks, -⟩ := attach_blocks es
  rw [hes] at hrow hholds
  rw [← List.nil_append (_ ++ _)] at hrow hholds
  exact blocks_clear hblocks hrow hholds

end Element

/-! ## Comments passed on -/

/-- The child to which a form passes the comment of its keyword or of a list in its place. -/
def Kind.heir? {α : Type} : Kind α → Option α
  | .variableDef name _ => some name
  | .functionDef name _ _ => some name
  | .structDef name _ => some name
  | .lambda args _ => some args
  | .conditional test _ _ => some test
  | .cond clauses => clauses.head?
  | .letIn _ bindings body => some (bindings.headD body)
  | .guarded _ predicate _ => some predicate
  | .sequence exprs => exprs.head?
  | .unknown elts => elts[1]?
  | _ => none

/-- All children of the kind but the heir have clear ranges. -/
def Kind.Kept (ts : List Token) (k : Kind Node) : Prop :=
  ∀ m ∈ k.children, k.heir? = some m ∨ m.Clear ts

theorem Node.clear_of_comment_eq_none {ts : List Token} {n : Node} (h : n.comment = none) : n.Clear ts := by
  intro t _ _ hrange
  rwa [Node.range, h] at hrange

theorem Node.SamePlace.clear {ts : List Token} {n m : Node} (h : n.SamePlace m) (hn : n.Clear ts) :
    m.Clear ts := by
  intro t ht hkind hrange
  rw [h.1]
  exact hn t ht hkind (h.range_eq ▸ hrange)

theorem clear_of_samePlaces {ts : List Token} {ns ms : List Node} (h : List.Forall₂ Node.SamePlace ns ms)
    (hns : ∀ n ∈ ns, n.Clear ts) : ∀ m ∈ ms, m.Clear ts := by
  induction h with
  | nil => exact hns
  | cons hnm _ ih =>
      obtain ⟨hn, hns⟩ := List.forall_mem_cons.1 hns
      exact List.forall_mem_cons.2 ⟨hnm.clear hn, ih hns⟩

theorem Kind.Kept.of_raw {ts : List Token} {k : Kind Node} (h : k.raw.Kept ts) : k.Kept ts := by
  cases k with
  | identifiers ids =>
      intro m hm
      rw [← children_raw] at hm
      rcases h m hm with hheir | hclear
      · cases ids <;> cases hheir
      · exact .inr hclear
  | clause test body => exact h
  | binding name value => exact h
  | _ => exact h

namespace Reader

variable {ts : List Token}

theorem inherited_kept (ts : List Token) :
    Inherited (fun n => ∀ l ∈ n.walk, l.kind.Kept ts) fun _ => True := by
  refine .of_places (Q := fun _ k => k.Kept ts) (fun _ _ h => h.of_raw) fun _ name ids h _ m hm => ?_
  refine (h m ?_).imp_left (by rintro ⟨⟩)
  simp only [Kind.children, Kind.slots, Slot.nodes, List.flatMap_cons, List.flatMap_nil, List.append_nil] at hm ⊢
  exact List.mem_append_right _ hm

/-- Where the first of a list inherits, the others have to be clear. -/
theorem kept_of_rest (ns : List Node) {k : Kind Node} (hchildren : k.children = ns)
    (hheir : k.heir? = ns.head?) (hclear : ∀ n ∈ ns.drop 1, n.Clear ts) : k.Kept ts := by
  intro m hm
  rw [hchildren] at hm
  rw [hheir]
  cases ns with
  | nil => cases hm
  | cons first rest =>
      rcases List.mem_cons.1 hm with rfl | hm
      · exact .inl rfl
      · exact .inr (hclear m hm)

/-- A form passes comments on to its heir alone. -/
theorem Formed.kept {keyword : String} {items : List Node} {k : Kind Node} (h : Formed keyword items k)
    (hitems : ∀ n ∈ items, n.kind.Kept ts) (hclear : ∀ n ∈ items.drop 2, n.Clear ts) : k.Kept ts := by
  cases h with
  | @variableDef head name body symbol =>
      have hbody := hclear body (by simp)
      simp [Kind.Kept, Kind.children, Kind.slots, Slot.nodes, Kind.heir?, hbody]
  | @functionDef head target name body params header =>
      have hbody := hclear body (by simp)
      have hlist : (Node.make (.identifiers params) (paramsSpan name params)).Clear ts :=
        Node.clear_of_comment_eq_none rfl
      simp [Kind.Kept, Kind.children, Kind.slots, Slot.nodes, Kind.heir?, hlist, hbody]
  | @structDef head name fields ids symbol list =>
      have hfields := (samePlace_rekind fields (.identifiers ids)).clear (hclear fields (by simp))
      simp [Kind.Kept, Kind.children, Kind.slots, Slot.nodes, Kind.heir?, hfields]
  | @lambda head args body ids list =>
      have hbody := hclear body (by simp)
      simp [Kind.Kept, Kind.children, Kind.slots, Slot.nodes, Kind.heir?, hbody]
  | @oneArm head test yes =>
      have hyes := hclear yes (by simp)
      simp [Kind.Kept, Kind.children, Kind.slots, Slot.nodes, Kind.heir?, hyes]
  | @twoArms head test yes no =>
      have hyes := hclear yes (by simp)
      have hno := hclear no (by simp)
      simp [Kind.Kept, Kind.children, Kind.slots, Slot.nodes, Kind.heir?, hyes, hno]
  | @cond _ clauses all =>
      refine kept_of_rest clauses (by simp [Kind.children, Kind.slots, Slot.nodes]) rfl ?_
      have hsame := List.forall₂_drop 1 ((forall₂_of_mapM all).imp fun _ _ => samePlace_clause)
      rw [List.drop_drop] at hsame
      exact clear_of_samePlaces hsame hclear
  | letNothing form empty => simp [Kind.Kept, Kind.children, Kind.slots, Slot.nodes, Kind.heir?]
  | @letIn form head list body first rest bound =>
      obtain ⟨elements, hkind, hmap⟩ := bindings?_eq_some bound
      have hsame := (forall₂_of_mapM hmap).imp fun _ _ => samePlace_binding
      refine kept_of_rest (_ :: (rest ++ [body])) (by simp [Kind.children, Kind.slots, Slot.nodes]) rfl ?_
      intro m hm
      rcases List.mem_append.1 hm with hm | hm
      · -- No application passes comments on, so the bindings are clear in their list.
        have hlist := hitems list (by simp)
        rw [hkind] at hlist
        refine clear_of_samePlaces hsame (fun n hn => ?_) m (List.mem_cons_of_mem _ hm)
        rw [← children_applicationOf elements] at hn
        cases hsame with
        | cons _ _ => exact (hlist n hn).resolve_left (by rintro ⟨⟩)
      · rw [List.mem_singleton.1 hm]
        exact hclear body (by simp)
  | @guarded form head predicate exprs =>
      exact kept_of_rest (predicate :: exprs) (by simp [Kind.children, Kind.slots, Slot.nodes]) rfl hclear
  | sequence =>
      refine kept_of_rest (items.drop 1) (by simp [Kind.children, Kind.slots, Slot.nodes]) rfl ?_
      rwa [List.drop_drop]

/-- Where the keyword's comment is passed on, it is the second item that gets it. -/
theorem passKeywordComment_clear {items : List Node} (h : ∀ n ∈ items, n.Clear ts) :
    ∀ n ∈ passKeywordComment items, (passKeywordComment items)[1]? = some n ∨ n.Clear ts := by
  rcases passKeywordComment_cases items with hpass | ⟨keyword, next, rest, c, rfl, -, hpass⟩
  · rw [hpass]
    exact fun n hn => .inr (h n hn)
  · rw [hpass]
    intro n hn
    rcases List.mem_cons.1 hn with rfl | hn
    · exact .inr (Node.clear_of_comment_eq_none rfl)
    · rcases List.mem_cons.1 hn with rfl | hn
      · exact .inl rfl
      · exact .inr (h n (by simp [hn]))

theorem passKeywordComment_drop (items : List Node) : (passKeywordComment items).drop 2 = items.drop 2 := by
  rcases passKeywordComment_cases items with hpass | ⟨keyword, next, rest, c, rfl, -, hpass⟩
  · rw [hpass]
  · rw [hpass]
    rfl

theorem recognise_kept {items : List Node} (hitems : ∀ n ∈ items, ∀ l ∈ n.walk, l.kind.Kept ts)
    (hclear : ∀ n ∈ items, n.Clear ts) : (recognise items).Kept ts := by
  rcases recognise_cases items with ⟨-, hrec⟩ | ⟨keyword, -, -, hformed | hrec⟩
  · rw [hrec]
    intro m hm
    rw [children_applicationOf] at hm
    exact .inr (hclear m hm)
  · refine hformed.kept (fun n hn => ?_) ?_
    · exact (inherited_kept ts).passKeywordComment hitems n hn n n.mem_walk_self
    · rw [passKeywordComment_drop]
      exact fun n hn => hclear n (List.mem_of_mem_drop hn)
  · rw [hrec]
    intro m hm
    refine passKeywordComment_clear hclear m ?_
    simpa [Kind.children, Kind.slots, Slot.nodes] using hm

/-- The elements of a stretch hold the code of the text that lies in it. -/
theorem Parses.holds_all {x ls y : List Lexeme} {es : List Element}
    (h : Parses (Pos.zero.advanceOver (text x)) ls es) (hok : ∀ l ∈ x ++ (ls ++ y), l.Ok) :
    Element.Holds (tokens .zero (x ++ (ls ++ y))) (Pos.zero.advanceOver (text x)) es
      ((Pos.zero.advanceOver (text x)).advanceOver (text ls)) := by
  intro t ht hkind hstart hstop
  refine ⟨(mem_tokens_between hok ht).2.1, ?_⟩
  exact h.holds (fun l hl => hok l (by simp [hl])) t (mem_tokens_of_between hok ht hstart hstop) hkind

theorem Parses.kept {p : Pos} {ls : List Lexeme} {es : List Element} (h : Parses p ls es)
    {x y : List Lexeme} (hp : p = Pos.zero.advanceOver (text x)) (hok : ∀ l ∈ x ++ (ls ++ y), l.Ok) :
    ∀ n, .expr n ∈ es → ∀ l ∈ n.walk, l.kind.Kept (tokens .zero (x ++ (ls ++ y))) := by
  refine (h.everywhere (y := y) (inherited_kept _) (fun {_ _ _ t} _ _ _ => ?_) (fun _ => trivial)
    (fun {x' y' b inner es p q} hx hp _ hinner hitems => ?_) rfl hp).1
  · intro c hc
    have hnone : (leaf t).kind.children = [] := leaf_children t
    rw [hnone] at hc
    cases hc
  · have hin : x ++ (ls ++ y) = (x' ++ [.opening b]) ++ (inner ++ (.closing b :: y')) := by simp [hx]
    have hpin : p.advance b.opener = Pos.zero.advanceOver (text (x' ++ [.opening b])) := by
      rw [text_append, Pos.advanceOver_append, ← hp]
      rfl
    rw [hin] at hok hitems ⊢
    rw [hpin] at hinner
    refine recognise_kept hitems (Element.attach_clear ?_ (hinner.holds_all hok))
    exact hinner.rowed fun l hl => hok l (by simp [hl])

end Reader

/-! ## Comments that reach over code -/

/-- A comment of the child stands in the node on the other side of code. It was hung on the keyword or on a
list of the node where it was read: a comment that stays where it was read has no code between itself and
its expression. -/
def Node.PassesOver (ts : List Token) (n m : Node) : Prop :=
  ∃ c ∈ m.comment, ∃ note ∈ ts, note.kind = .comment ∧ n.span.contains note.span ∧
    ∃ t ∈ ts, t.kind ≠ .comment ∧ n.span.contains t.span ∧
      (note.span.start = c.span.start ∧ note.span.stop ≤ t.span.start ∧ t.span.stop ≤ m.span.start ∨
        m.span.stop ≤ t.span.start ∧ t.span.stop ≤ note.span.start ∧ note.span.stop = c.span.stop)

theorem Kind.mem_parts_of_heir? {k : Kind Node} {m : Node} (h : k.heir? = some m) : m ∈ k.parts := by
  cases k with
  | cond clauses => exact List.mem_of_mem_head? h
  | sequence exprs => exact List.mem_of_mem_head? h
  | unknown elts => exact List.mem_of_getElem? h
  | letIn form bindings body =>
      cases h
      cases bindings <;> simp
  | _ => simp_all [heir?]

theorem Node.within_part {root n m : Node} (hn : n ∈ root.walk) (hm : m ∈ n.kind.parts) : root.Within m := by
  rcases within_of_mem_walk hn with h | ⟨f, name, body, hf, hk, hparts⟩
  · exact h.trans (.part hm (.self m))
  · rw [hparts] at hm
    exact hf.trans (.part (by simp [hk, hm]) (.self m))

namespace Placed

variable {roots : List Node} {doc : List Lexeme} (h : Placed roots doc)

include h

/-- No token stands across an end of a node. -/
theorem token_beside {root n : Node} (hroot : root ∈ roots) (hn : root.Within n) {t : Token}
    (ht : t ∈ tokens .zero doc) :
    t.span.stop ≤ n.span.start ∨ n.span.contains t.span ∨ n.span.stop ≤ t.span.start := by
  obtain ⟨x, own, y, rfl, hspan, -⟩ := h.stands hroot hn
  have hok := h.run.ok
  rw [hspan]
  rw [tokens_append, tokens_append, List.mem_append, List.mem_append] at ht
  rcases ht with ht | ht | ht
  · exact .inl (mem_tokens_between (fun l hl => hok l (by simp [hl])) ht).2.2
  · have hin := mem_tokens_between (fun l hl => hok l (by simp [hl])) ht
    exact .inr (.inl (Span.contains_iff.2 ⟨hin.1, hin.2.2⟩))
  · exact .inr (.inr (mem_tokens_between (fun l hl => hok l (by simp [hl])) ht).1)

theorem passesOver_of_not_clear {n m : Node} (hn : n ∈ Forest.nodes roots) (hm : m ∈ n.kind.parts)
    (hclear : ¬ m.Clear (tokens .zero doc)) : n.PassesOver (tokens .zero doc) m := by
  obtain ⟨root, hroot, hwalk⟩ := List.mem_flatMap.1 hn
  have hwithin := Node.within_part hwalk hm
  have hbetween := h.between n hn m hm
  have hends := h.ends m (List.mem_flatMap.2 ⟨root, hroot, hwithin.mem_walk⟩)
  obtain ⟨t, ht, hkind, hrange, hout⟩ : ∃ t ∈ tokens .zero doc, t.kind ≠ .comment ∧
      m.range.contains t.span ∧ ¬ m.span.contains t.span := by simpa [Node.Clear] using hclear
  obtain ⟨hstart, hstop⟩ := Span.contains_iff.1 hrange
  have hproper := (mem_tokens_between h.run.ok ht).2.1
  have hlow := hbetween.start.trans hstart
  have hhigh := hstop.trans hbetween.stop
  have hapart : ∀ {note : Token}, note ∈ tokens .zero doc → note.kind = .comment →
      note.span.stop ≤ t.span.start ∨ t.span.stop ≤ note.span.start := by
    intro note hnote hcomment
    exact tokens_apart h.run.ok hnote ht (by rintro rfl; exact hkind hcomment)
  rcases h.token_beside hroot hwithin ht with hbefore | hin | hbehind
  · -- The range starts before the span, so it starts with a comment.
    rcases m.range_start_eq_or with hsame | ⟨c, hc, hsame⟩
    · exact absurd (hbefore.trans (hsame ▸ hstart)) hproper.not_ge
    obtain ⟨note, hnote, hcomment, hfirst⟩ := (hends c hc).1
    have hle : note.span.stop ≤ t.span.start := (hapart hnote hcomment).resolve_right fun hle =>
      hproper.not_ge (hle.trans (hfirst.trans_le (hsame ▸ hstart)))
    refine ⟨c, hc, note, hnote, hcomment, ?_, t, ht, hkind, Span.contains_iff.2 ⟨hlow, hhigh⟩,
      .inl ⟨hfirst, hle, hbefore⟩⟩
    refine Span.contains_iff.2 ⟨?_, hle.trans (hproper.le.trans hhigh)⟩
    rw [hfirst, ← hsame]
    exact hbetween.start
  · exact absurd hin hout
  · -- It ends behind the span, so it ends with a comment.
    rcases m.range_stop_eq_or with hsame | ⟨c, hc, hsame⟩
    · exact absurd ((hsame ▸ hstop).trans hbehind) hproper.not_ge
    obtain ⟨note, hnote, hcomment, hlast⟩ := (hends c hc).2
    have hle : t.span.stop ≤ note.span.start := (hapart hnote hcomment).resolve_left fun hle =>
      hproper.not_ge ((hsame ▸ hstop).trans (hlast.symm.trans_le hle))
    refine ⟨c, hc, note, hnote, hcomment, ?_, t, ht, hkind, Span.contains_iff.2 ⟨hlow, hhigh⟩,
      .inr ⟨hbehind, hle, hlast⟩⟩
    refine Span.contains_iff.2 ⟨hlow.trans (hproper.le.trans hle), ?_⟩
    rw [hlast, ← hsame]
    exact hbetween.stop

theorem not_clear_of_passesOver {n m : Node} (hn : n ∈ Forest.nodes roots) (hm : m ∈ n.kind.parts)
    (hpassed : n.PassesOver (tokens .zero doc) m) : ¬ m.Clear (tokens .zero doc) := by
  intro hclear
  have hproper : ∀ {t : Token}, t ∈ tokens .zero doc → t.span.start < t.span.stop :=
    fun ht => (mem_tokens_between h.run.ok ht).2.1
  have hspan := (h.between n hn m hm).proper.le
  obtain ⟨c, hc, note, hnote, -, -, t, ht, hkind, -, hplace⟩ := hpassed
  rcases hplace with ⟨hfirst, hle, hbefore⟩ | ⟨hbehind, hle, hlast⟩
  · have hstart : m.range.start ≤ t.span.start :=
      (m.range_start_le_comment_start hc).trans (hfirst.ge.trans ((hproper hnote).le.trans hle))
    have hstop : t.span.stop ≤ m.range.stop := hbefore.trans (hspan.trans m.le_range_stop)
    have hin := Span.contains_iff.1 (hclear t ht hkind (Span.contains_iff.2 ⟨hstart, hstop⟩))
    exact (hproper ht).not_ge (hbefore.trans hin.1)
  · have hstart : m.range.start ≤ t.span.start := m.range_start_le.trans (hspan.trans hbehind)
    have hstop : t.span.stop ≤ m.range.stop :=
      hle.trans ((hproper hnote).le.trans (hlast.le.trans (m.comment_stop_le_range_stop hc)))
    have hin := Span.contains_iff.1 (hclear t ht hkind (Span.contains_iff.2 ⟨hstart, hstop⟩))
    exact (hproper ht).not_ge (hin.2.trans hbehind)

end Placed

/-- In every text that can be read, the ranges of the roots cover no code outside their spans. The range of
a child does just if its form passed a comment on to it over code, and a form passes comments on to one of its
children only. -/
theorem range_clear_or_heir {source : String} {roots : List Node} (h : readDocument source = .ok roots) :
    ∃ ts, tokenize source = .ok ts ∧ (∀ root ∈ roots, root.Clear ts) ∧
      ∀ n ∈ Forest.nodes roots, ∀ m ∈ n.children,
        (¬ m.Clear ts ↔ n.kind.heir? = some m ∧ n.PassesOver ts m) := by
  obtain ⟨ls, es, hrun, htext, hparse, rfl, -⟩ := readDocument_fills h
  have hwhole : [] ++ (ls ++ []) = ls := by simp
  have hok : ∀ l ∈ [] ++ (ls ++ []), l.Ok := by simpa using hrun.ok
  have hkept := hparse.kept (x := []) (y := []) rfl hok
  have hholds := Parses.holds_all (x := []) (y := []) hparse hok
  rw [hwhole] at hkept hholds
  have htokens : tokenize source = .ok (tokens .zero ls) := by
    rw [tokenize, ← htext]
    exact tokensFrom_run hrun .zero
  obtain ⟨doc, hdoc, hplaced⟩ := readDocument_placed h rfl
  have hsame : tokens .zero doc = tokens .zero ls := by
    rw [tokenize, ← hdoc, tokensFrom_run hplaced.run .zero] at htokens
    exact Except.ok.inj htokens
  refine ⟨tokens .zero ls, htokens, Element.attach_clear (hparse.rowed hrun.ok) hholds, fun n hn m hm => ?_⟩
  constructor
  · intro hclear
    obtain ⟨root, hroot, hnode⟩ := List.mem_flatMap.1 hn
    have hkind : n.kind.Kept (tokens .zero ls) :=
      Element.attach_all (fun _ _ hn hnotes => (inherited_kept _).hang hn hnotes) hkept
        (fun _ _ => trivial) root hroot n hnode
    have hheir := (hkind m hm).resolve_right hclear
    rw [← hsame] at hclear ⊢
    exact ⟨hheir, hplaced.passesOver_of_not_clear hn (Kind.mem_parts_of_heir? hheir) hclear⟩
  · rintro ⟨hheir, hpassed⟩
    rw [← hsame] at hpassed ⊢
    exact hplaced.not_clear_of_passesOver hn (Kind.mem_parts_of_heir? hheir) hpassed

theorem range_clear_or_heir_commented_keyword :
    ∃ ts root, readDocument "(; c\nif a b)" = .ok [root] ∧ tokenize "(; c\nif a b)" = .ok ts ∧
      root.Clear ts ∧ ∀ m ∈ root.children, (¬ m.Clear ts ↔ root.kind.heir? = some m ∧ root.PassesOver ts m) := by
  obtain ⟨roots, hread, hone⟩ : ∃ roots, readDocument "(; c\nif a b)" = .ok roots ∧ roots.length = 1 :=
    Except.exists_ok (by decide +kernel)
  obtain ⟨root, rfl⟩ := List.length_eq_one_iff.1 hone
  obtain ⟨ts, hts, hroots, hnodes⟩ := range_clear_or_heir hread
  refine ⟨ts, root, hread, hts, hroots root List.mem_cons_self, hnodes root ?_⟩
  exact List.mem_flatMap.2 ⟨root, List.mem_cons_self, root.mem_walk_self⟩

/-- The comment in front of the keyword goes to the test, whose range then covers the keyword. -/
theorem keyword_in_range_of_test :
    ∃ ts root test, tokenize "(; c\nif a b)" = .ok ts ∧ readDocument "(; c\nif a b)" = .ok [root] ∧
      root.kind.heir? = some test ∧ ¬ test.Clear ts := by
  obtain ⟨ts, hts, roots, hread, hheirs⟩ : ∃ ts, tokenize "(; c\nif a b)" = .ok ts ∧
      ∃ roots ∈ (readDocument "(; c\nif a b)").toOption,
        roots.map (fun root => root.kind.heir?.map fun m => decide (m.Clear ts)) = [some false] :=
    Except.exists_ok (by decide +kernel)
  obtain ⟨root, rfl, hroot⟩ := List.map_eq_singleton_iff.1 hheirs
  obtain ⟨test, hheir, htest⟩ := Option.map_eq_some_iff.1 hroot
  exact ⟨ts, root, test, hts, Except.toOption_eq_some.1 hread, hheir, of_decide_eq_false htest⟩

end TreeEdit
