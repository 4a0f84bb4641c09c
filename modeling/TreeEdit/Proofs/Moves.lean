import Mathlib
import TreeEdit.Proofs.Conservation
import TreeEdit.Proofs.Performed

/-!
# Nodes moved

A node is moved by taking it away and putting the text of its range in at another place. The text says what
the node says as long as the range covers no foreign code, and it can be put in anywhere as long as it does
not end in a comment. If it is a root that goes, the texts around it must not join. Then a move neither loses
code nor adds any, but for the blank that is left in a place that may not be empty:
`Session.drop_conserves_code`.
-/

namespace TreeEdit

open Edit Reader Lexeme

/-! ## The text of a node -/

theorem Spans.signs_eq {p : Pos} {ls : List Lexeme} {n : Node} (h : Spans p ls n) : signs ls = n.flatten := by
  obtain ⟨-, hfills, -, -⟩ := h
  rw [hfills.signs_eq, ← n.flatten_eq]

namespace Fills

theorem first_part {R : Pos → List Lexeme → Node → Prop} {p : Pos} {ls : List Lexeme} {n : Node}
    {pattern : List (Sign ⊕ Node)} (h : Fills R p ls (.inr n :: pattern)) :
    ∃ s own rest, ls = s ++ (own ++ rest) ∧ (∀ l ∈ s, l.sign? = none) ∧ R (p.advanceOver (text s)) own n ∧
      Fills R ((p.advanceOver (text s)).advanceOver (text own)) rest pattern := by
  generalize hpattern : Sum.inr n :: pattern = s at h
  induction h with
  | nil p => cases hpattern
  | @silent p l ls pattern hl _ ih =>
      obtain ⟨s, own, rest, rfl, hs, hown, hrest⟩ := ih hpattern
      refine ⟨l :: s, own, rest, rfl, List.forall_mem_cons.2 ⟨hl, hs⟩, ?_, ?_⟩
      · rwa [text_cons, Pos.advanceOver_append]
      · rwa [text_cons, Pos.advanceOver_append]
  | sign _ _ _ => cases hpattern
  | @part p own ls m pattern hm hrest _ =>
      cases hpattern
      exact ⟨[], own, ls, rfl, by simp, hm, hrest⟩

/-- Nodes one behind the other, without what is silent before the first and behind the last. -/
theorem trim {p : Pos} {ls : List Lexeme} {n : Node} {ns : List Node}
    (h : Fills Spans p ls ((n :: ns).map .inr)) :
    ∃ s core rest, ls = s ++ (core ++ rest) ∧ (∀ l ∈ s, l.sign? = none) ∧
      n.span.start = p.advanceOver (text s) ∧
      (∀ last ∈ (n :: ns).getLast?, last.span.stop = (p.advanceOver (text s)).advanceOver (text core)) ∧
      (∃ l ∈ core.getLast?, l.sign? ≠ none) ∧ Balanced core ∧ signs core = (n :: ns).flatMap Node.flatten := by
  -- On the nodes behind the first: what is cut off at the end is cut off behind the last one.
  induction ns generalizing p ls n with
  | nil =>
      obtain ⟨s, own, rest, rfl, hs, hown, -⟩ := h.first_part
      have hsigns := hown.signs_eq
      obtain ⟨hspan, -, ⟨-, hlast⟩, hbalanced⟩ := hown
      refine ⟨s, own, rest, rfl, hs, by rw [hspan], ?_, hlast, hbalanced, by simpa using hsigns⟩
      rintro last ⟨⟩
      exact congrArg Span.stop hspan
  | cons m ns ih =>
      obtain ⟨s, own, rest, rfl, hs, hown, hrest⟩ := h.first_part
      have hsigns := hown.signs_eq
      obtain ⟨hspan, -, -, hbalanced⟩ := hown
      obtain ⟨s', core, rest, rfl, hs', -, hstop, hlast, hbalanced', hsigns'⟩ := ih hrest
      have hsilent : signs s' = [] := List.filterMap_eq_nil_iff.2 hs'
      refine ⟨s, own ++ (s' ++ core), rest, by simp, hs, by rw [hspan], ?_, ?_, ?_, ?_⟩
      · intro last hmem
        rw [List.getLast?_cons_cons] at hmem
        rw [hstop last hmem]
        simp only [text_append, Pos.advanceOver_append]
      · obtain ⟨l, hl, hsign⟩ := hlast
        refine ⟨l, ?_, hsign⟩
        rw [← List.append_assoc, List.getLast?_append, Option.mem_def.1 hl]
        rfl
      · exact hbalanced.append ((balanced_of_signs_eq_nil hsilent).append hbalanced')
      · rw [signs_append, signs_append, hsigns, hsilent, hsigns', List.nil_append]
        rfl

end Fills

/-- No comment of the document ends at the place. -/
def Uncommented (ts : List Token) (p : Pos) : Prop := ∀ t ∈ ts, t.span.stop = p → t.kind ≠ .comment

theorem Node.range_stop_of_uncommented {n : Node} {ts : List Token} (hends : ∀ c ∈ n.comment, c.span.EndsIn ts)
    (h : Uncommented ts n.range.stop) : n.range.stop = n.span.stop := by
  refine n.range_stop_eq_or.resolve_right ?_
  rintro ⟨c, hc, hstop⟩
  obtain ⟨-, t, ht, hkind, htstop⟩ := hends c hc
  exact h t ht (htstop.trans hstop.symm) hkind

/-- The lexemes of a document in a range spell the signs. -/
def Stretch (doc : List Lexeme) (range : Span) (ss : List Sign) : Prop :=
  ∃ before own after, doc = before ++ (own ++ after) ∧ range.start = Pos.zero.advanceOver (text before) ∧
    range.stop = Pos.zero.advanceOver (text (before ++ own)) ∧ Spells own ss

/-- The text of a stretch can be put in anywhere, and says what the stretch spells. -/
theorem Stretch.fragment {doc : List Lexeme} {range : Span} {ss : List Sign} (h : Stretch doc range ss)
    {source text : String} (hsource : Lexeme.text doc = source.toList) (htext : rangeText source range = .ok text) :
    Fragment text ∧ signsOf text = ss := by
  obtain ⟨before, own, after, rfl, hstart, hstop, hspells⟩ := h
  have haround : around source range = .ok (Lexeme.text before, Lexeme.text own, Lexeme.text after) := by
    rw [around_eq_ok_iff, hstart, hstop, ← hsource]
    simp only [text_append, List.append_assoc, and_self]
  rw [rangeText, haround] at htext
  cases htext
  have hsigns : signsOf (String.ofList (Lexeme.text own)) = ss := by
    rw [signsOf_text hspells.run, hspells.signs_eq]
  exact ⟨⟨own, (String.toList_ofList).symm, hsigns.symm ▸ hspells⟩, hsigns⟩

namespace Tree.Orderly

variable {t : Tree} {doc : List Lexeme} (ht : t.Orderly doc)

include ht

/-- Nodes one behind the other, up to a node that no comment follows. -/
theorem stretch_of_fills {x ls y : List Lexeme} (hdoc : doc = x ++ (ls ++ y)) {n last : Node} {ns : List Node}
    (hfills : Fills Spans (Pos.zero.advanceOver (text x)) ls ((n :: ns).map .inr)) (hn : t.Stands n)
    (hlast : last ∈ (n :: ns).getLast?) (hstands : t.Stands last)
    (hstop : Uncommented (tokens .zero doc) last.range.stop) :
    Stretch doc ⟨n.range.start, last.range.stop⟩ ((n :: ns).flatMap Node.flatten) := by
  obtain ⟨s, core, rest, rfl, hs, hstart, hend, hsign, hbalanced, hsigns⟩ := hfills.trim
  have hends : ∀ {m : Node}, t.Stands m → ∀ c ∈ m.comment, c.span.EndsIn (tokens .zero doc) :=
    fun hm => ht.placed.ends _ hm.mem_nodes
  have hwhole : doc = (x ++ s) ++ (core ++ (rest ++ y)) := by simp [hdoc]
  have hspan : n.span.start = Pos.zero.advanceOver (text (x ++ s)) := by
    rw [hstart, text_append, Pos.advanceOver_append]
  -- The range starts before the span if the node has a comment there, with silent lexemes between the two.
  have hremain := ht.placed.run.remain .zero
  nth_rewrite 2 [hwhole] at hremain
  obtain ⟨x', s', hx, hs', hrange, -⟩ := hremain.range_start (ht.clear n hn.mem_nodes) (hends hn) hspan
    (ht.settled hn).span_le (Pos.zero_le _)
  have hsilent : signs s' = [] := List.filterMap_eq_nil_iff.2 hs'
  have hdivided : doc = x' ++ ((s' ++ core) ++ (rest ++ y)) := by
    rw [hwhole, hx]
    simp only [List.append_assoc]
  refine ⟨x', s' ++ core, rest ++ y, hdivided, hrange.symm, ?_, ?_, ?_, ?_, ?_⟩
  · have hstop := Node.range_stop_of_uncommented (hends hstands) hstop
    rw [hstop, hend last hlast, ← hstart, hspan, ← List.append_assoc, ← hx, text_append (x ++ s),
      Pos.advanceOver_append]
  · have hrun := ht.placed.run
    rw [hdivided] at hrun
    exact hrun.right.left
  · obtain ⟨l, hl, hl'⟩ := hsign
    rintro m hm body rfl
    rw [List.getLast?_append, Option.mem_def.1 hl] at hm
    cases hm
    exact hl' rfl
  · exact (balanced_of_signs_eq_nil hsilent).append hbalanced
  · rw [signs_append, hsilent, hsigns]
    rfl

theorem stretch_of_stands {n : Node} (hn : t.Stands n) (hstop : Uncommented (tokens .zero doc) n.range.stop) :
    Stretch doc n.range n.flatten := by
  obtain ⟨⟨x, own, y, hdoc, hown⟩, -, -⟩ := ht.settled hn
  have hfills : Fills Spans (Pos.zero.advanceOver (text x)) (own ++ []) ([n].map .inr) := .part hown (.nil _)
  rw [List.append_nil] at hfills
  simpa using ht.stretch_of_fills hdoc hfills hn rfl hn hstop

/-- The parameters of a function are its header but for the name. -/
theorem stretch_of_params {f name params body : Node} (hf : f ∈ t.nodes)
    (hk : f.kind = .functionDef name params body) (hstop : Uncommented (tokens .zero doc) params.range.stop) :
    Stretch doc params.range (params.header.flatMap Node.flatten) := by
  have hstands : t.Stands f := Tree.stands_of_functionDef hf hk
  have hpart : ∀ m ∈ f.kind.parts, t.Stands m := fun m hm => hstands.within (.part hm (.self m))
  rw [hk] at hpart
  rw [ht.placed.params f hf name params body hk] at hstop ⊢
  obtain ⟨⟨x, own, y, hdoc, hown⟩, -, -⟩ := ht.settled hstands
  cases hheader : params.header with
  | nil =>
      -- Nothing stands in the header behind the name.
      obtain ⟨⟨x, own, y, rfl, hspan, -⟩, -, -⟩ := ht.settled (hpart name (by simp [Kind.parts]))
      have hname : name.span.stop = Pos.zero.advanceOver (text (x ++ own)) := by
        rw [hspan, text_append, Pos.advanceOver_append]
      exact ⟨x ++ own, [], y, by simp, hname, by rw [List.append_nil]; exact hname, .nil⟩
  | cons n ns =>
      obtain ⟨last, hlast⟩ : ∃ last, (n :: ns).getLast? = some last := by simp [List.getLast?_cons]
      have hheaders : ∀ m ∈ n :: ns, t.Stands m := by
        rw [← hheader]
        exact fun m hm => hpart m (by simp [Kind.parts, hm])
      have hrange := Reader.paramsSpan_cons name hlast
      rw [hheader, hrange] at hstop
      obtain ⟨left, right, hshape⟩ : ∃ left right : List (Sign ⊕ Node),
          f.kind.shape = left ++ ((n :: ns).map .inr ++ right) := by
        refine ⟨[.inl .opening, .inl (.word "define"), .inl .opening, .inr name],
          [.inl .closing, .inr body, .inl .closing], ?_⟩
        simp [hk, Kind.shape, Kind.pattern, inForm, inBrackets, hheader]
      obtain ⟨-, hfills, -, -⟩ := hown
      rw [hshape] at hfills
      obtain ⟨a, b, rfl, -, hfills⟩ := hfills.divide
      obtain ⟨b, c, rfl, hfills, -⟩ := hfills.divide
      rw [← Pos.advanceOver_append, ← text_append] at hfills
      have hdivided : doc = (x ++ a) ++ (b ++ (c ++ y)) := by simp [hdoc]
      rw [hrange]
      exact ht.stretch_of_fills hdivided hfills (hheaders n List.mem_cons_self) hlast
        (hheaders last (List.mem_of_getLast? hlast)) hstop

end Tree.Orderly

/-! ## The place of a node -/

theorem Kind.functionDef_of_params {k : Kind Node} {place : Slot Node} (h : place ∈ k.slots)
    (hfield : place.field = "params") :
    ∃ name params body, k = .functionDef name params body ∧ place = .required "params" params := by
  have hmem := List.mem_map_of_mem (f := Slot.field) h
  rw [hfield] at hmem
  cases k with
  | functionDef name params body =>
      have hplace : (Kind.functionDef name params body).slot? "params" = some place :=
        slot?_eq_some_iff.2 ⟨h, hfield⟩
      cases hplace
      exact ⟨name, params, body, rfl, rfl⟩
  | _ => simp [slots, Slot.field] at hmem

/-- Whether the node with an identity stands in a place that may not be empty. -/
def Tree.requires (t : Tree) (id : NodeId) : Bool :=
  t.nodes.any fun p => p.kind.slots.any fun
    | .required _ c => c.id == id
    | _ => false

namespace Tree.Distinct

variable {t : Tree} (ht : t.Distinct)

include ht

theorem place_unique {p q c : Node} (hp : p ∈ t.nodes) (hq : q ∈ t.nodes) {a b : Slot Node}
    (ha : a ∈ p.kind.slots) (hb : b ∈ q.kind.slots) (hca : c ∈ a.nodes) (hcb : c ∈ b.nodes) : p = q ∧ a = b := by
  obtain rfl := ht.parent_unique hp hq (List.mem_flatMap.2 ⟨a, ha, hca⟩) (List.mem_flatMap.2 ⟨b, hb, hcb⟩)
  refine ⟨rfl, ?_⟩
  have hnodup : p.children.Nodup := ((ht.identified hp).nodup.sublist p.children_ids_sublist).of_map _
  obtain ⟨-, hdisjoint⟩ := List.nodup_flatMap.1 hnodup
  by_contra hne
  have hsymm : Std.Symm (Function.onFun List.Disjoint (Slot.nodes (α := Node))) := ⟨fun _ _ h => h.symm⟩
  exact hdisjoint.forall ha hb hne hca hcb

omit ht in
theorem requires_iff {id : NodeId} : t.requires id = true ↔
    ∃ p ∈ t.nodes, ∃ field c, .required field c ∈ p.kind.slots ∧ c.id = id := by
  rw [requires, List.any_eq_true]
  refine exists_congr fun p => and_congr_right fun _ => List.any_eq_true.trans ⟨?_, ?_⟩
  · rintro ⟨place, hplace, hid⟩
    cases place with
    | required field c => exact ⟨field, c, hplace, beq_iff_eq.1 hid⟩
    | optional field c => cases hid
    | list field cs => cases hid
  · rintro ⟨field, c, hplace, hid⟩
    exact ⟨_, hplace, beq_iff_eq.2 hid⟩

/-- A blank is left if the place may not be empty. -/
theorem leftIn_eq {p c : Node} (hp : p ∈ t.nodes) {place : Slot Node} (hplace : place ∈ p.kind.slots)
    (hc : c ∈ place.nodes) : leftIn place = if t.requires c.id then [.word blankText] else [] := by
  by_cases hrequires : t.requires c.id
  · obtain ⟨q, hq, field, d, hother, hid⟩ := requires_iff.1 hrequires
    have hd : d ∈ (Slot.required field d).nodes := List.mem_singleton_self d
    obtain rfl : d = c := by
      refine ht.eq_of_id_eq ?_ ?_ hid
      · exact Tree.mem_nodes_of_mem_walk hq (Node.mem_walk_of_child (List.mem_flatMap.2 ⟨_, hother, hd⟩))
      · exact Tree.mem_nodes_of_mem_walk hp (Node.mem_walk_of_child (List.mem_flatMap.2 ⟨_, hplace, hc⟩))
    rw [if_pos hrequires, (ht.place_unique hp hq hplace hother hc hd).2]
    rfl
  · rw [if_neg hrequires]
    cases place with
    | required field d =>
        obtain rfl := List.mem_singleton.1 hc
        exact absurd (requires_iff.2 ⟨p, hp, field, c, hplace, rfl⟩) hrequires
    | optional field d => rfl
    | list field ds => rfl

theorem not_requires_of_root {root : Node} (hroot : root ∈ t.roots) : ¬ t.requires root.id := by
  intro hrequires
  obtain ⟨q, hq, field, d, hother, hid⟩ := requires_iff.1 hrequires
  have hd : d ∈ q.children := List.mem_flatMap.2 ⟨_, hother, List.mem_singleton_self d⟩
  obtain rfl := ht.eq_of_id_eq (Tree.mem_nodes_of_mem_walk hq (Node.mem_walk_of_child hd))
    (Tree.root_mem_nodes hroot) hid
  exact ht.root_not_child hroot hq hd

end Tree.Distinct

/-- The text of a child says what the child says in its place. -/
theorem Tree.Orderly.stretch_of_child {t : Tree} {doc : List Lexeme} (ht : t.Orderly doc) {p c : Node}
    (hp : p ∈ t.nodes) {place : Slot Node} (hplace : place ∈ p.kind.slots) (hc : c ∈ place.nodes)
    (hstop : Uncommented (tokens .zero doc) c.range.stop) : Stretch doc c.range (c.said place.field) := by
  by_cases hfield : place.field = "params"
  · obtain ⟨name, params, body, hk, rfl⟩ := Kind.functionDef_of_params hplace hfield
    obtain rfl := List.mem_singleton.1 hc
    rw [Node.said, if_pos hfield]
    exact ht.stretch_of_params hp hk hstop
  · rw [Node.said, if_neg hfield]
    have hnode : c ∈ t.nodes :=
      Tree.mem_nodes_of_mem_walk hp (Node.mem_walk_of_child (List.mem_flatMap.2 ⟨_, hplace, hc⟩))
    -- Only in the place of the parameters does a node stand without brackets of its own.
    refine ht.stretch_of_stands ((Tree.stands_or_params hnode).resolve_right ?_) hstop
    rintro ⟨f, name, body, hf, hk, -⟩
    have hparams : Slot.required "params" c ∈ f.kind.slots := by simp [hk, Kind.slots]
    obtain ⟨-, rfl⟩ := ht.distinct.place_unique hp hf hplace hparams hc (List.mem_singleton_self c)
    exact hfield rfl

/-! ## A child moved -/

/-- The edit puts a text into a place of a node of the tree. -/
structure Edit.Puts (t : Tree) (text : String) (m : Node) (e : Edit) : Prop where
  mem : m ∈ t.nodes
  fits : e.Fits m
  inserts : e.inserts
  text_eq : e.text? = some text

theorem Edit.puts_of_insert {t : Tree} {text field : String} {parent : NodeId} {pos : Pos} {e : Edit}
    (h : insert t text (some parent) field pos = .ok e) : ∃ m, m.id = parent ∧ e.Puts t text m := by
  obtain ⟨htext, m, hm, hid, hfits⟩ := insert_eq_ok h
  refine ⟨m, hid, hm, hfits, ?_, htext⟩
  obtain ⟨_, -, h⟩ := bind_eq_ok.1 h
  obtain ⟨_, -, h⟩ := bind_eq_ok.1 h
  obtain ⟨_, -, h⟩ := bind_eq_ok.1 h
  cases h
  rfl

theorem Node.containsId_iff {n : Node} {id : NodeId} : n.containsId id = true ↔ id ∈ n.ids := by
  simp [containsId, ids]

/-- An edit that puts a text in takes nothing and gives what the text says. -/
theorem Edit.Puts.taken_and_given {t : Tree} {text : String} {m : Node} {e : Edit} (h : e.Puts t text m) :
    e.taken m = [] ∧ e.given m = signsOf text := by
  obtain ⟨start, stop, kind⟩ := e
  obtain ⟨-, -, hinserts, htext⟩ := h
  cases kind <;> cases hinserts
  cases htext
  exact ⟨rfl, rfl⟩

theorem Tree.Distinct.roots_ids_nodup {t : Tree} (ht : t.Distinct) : (t.roots.flatMap Node.ids).Nodup := by
  have hnodup := ht.nodup
  rwa [Tree.ids, Tree.nodes, Forest.nodes, List.map_flatMap] at hnodup

section Child

variable {t : Tree} (ht : t.Distinct) {m : Node} {text : String} {insertion : Edit}
  (hputs : insertion.Puts t text m) {p c : Node} (hp : p ∈ t.nodes) {field : String} {place : Slot Node}
  (hplace : p.kind.slot? field = some place) {index : Nat} (hc : place.nodes[index]? = some c)
  (houtside : m.id ∉ c.ids)

include ht hputs hp hplace hc houtside

/-- A child can be taken away together with text put in outside of it. -/
theorem Edit.compatible_of_outside :
    Compatible t ⟨c.range.start, c.range.stop, .deleteChild c.id p.id field index⟩ insertion := by
  have hnode : c ∈ t.nodes := by
    refine Tree.mem_nodes_of_mem_walk hp (Node.mem_walk_of_child (List.mem_flatMap.2 ⟨place, ?_, ?_⟩))
    · exact (Kind.slot?_eq_some_iff.1 hplace).1
    · exact List.mem_of_getElem? hc
  refine (compatible_of_inserts hputs.inserts (by simp [inserts]) ?_).symm
  rintro ⟨_, n, parent, ⟨⟩, hget, hparent, hcontains⟩
  rw [ht.get?_eq hnode] at hget
  cases hget
  rw [hputs.fits.parent?_eq] at hparent
  cases hparent
  exact houtside (Node.containsId_iff.1 hcontains)

/-- A child is taken away and what it said is put in elsewhere. -/
theorem Tree.Distinct.perm_of_child_move (hsigns : signsOf text = c.said field) {deletion : Edit}
    (hdeletion : deletion = ⟨c.range.start, c.range.stop, .deleteChild c.id p.id field index⟩) :
    (t.roots.flatMap fun r => (r.edited (Edit.latestFirst [deletion, insertion])).flatten).Perm
      (leftIn place ++ t.roots.flatMap Node.flatten) := by
  have hfits' : deletion.Fits p := hdeletion ▸ .delete hplace hc
  have hne : insertion ≠ deletion := by
    rintro rfl
    have hinserts := hputs.inserts
    rw [hdeletion] at hinserts
    cases hinserts
  have hpair : [deletion, insertion].Pairwise (Compatible t) :=
    List.pairwise_pair.2 (hdeletion ▸ compatible_of_outside ht hputs hp hplace hc houtside)
  have hperm := Edit.latestFirst_perm [deletion, insertion]
  -- The deletion is in its own parent, whatever the insertion is in.
  let parent : Edit → Node := fun e => if e = deletion then p else m
  have hparent : ∀ e ∈ Edit.latestFirst [deletion, insertion],
      (∃ r ∈ t.roots, parent e ∈ r.walk) ∧ e.Fits (parent e) := by
    intro e he
    rcases List.mem_pair.1 (hperm.subset he) with rfl | rfl
    · simp only [parent, if_pos]
      exact ⟨List.mem_flatMap.1 hp, hfits'⟩
    · simp only [parent, if_neg hne]
      exact ⟨List.mem_flatMap.1 hputs.mem, hputs.fits⟩
  refine List.perm_iff_count.2 fun x => ?_
  have hcount := ht.count_edited ((hperm.pairwise_iff fun h => h.symm).2 hpair) (Edit.latestFirst_sorted _)
    (fun r hr => Tree.root_mem_nodes hr) ht.roots_ids_nodup hparent x
  obtain ⟨htaken, hgiven⟩ := hputs.taken_and_given
  have htaken' : deletion.taken p = c.said field := by simp [hdeletion, taken, hplace, hc]
  have hgiven' : deletion.given p = leftIn place := by simp [hdeletion, given, hplace]
  rw [(hperm.map _).sum_eq, (hperm.map _).sum_eq] at hcount
  simp only [List.map_cons, List.map_nil, List.sum_cons, List.sum_nil, parent, if_true, if_neg hne, htaken, htaken',
    hgiven, hgiven', hsigns, List.count_nil] at hcount
  rw [List.count_append]
  omega

end Child

namespace Session

/-- A child taken away and its text put in outside of it. -/
theorem perform_child_move {s : Session String} (hs : s.InStep) {doc : List Lexeme} (ht : s.tree.Orderly doc)
    (hdoc : Lexeme.text doc = s.text.toList) {m : Node} {text : String} {insertion : Edit}
    (hputs : insertion.Puts s.tree text m) (hfragment : Fragment text) {p c : Node} (hp : p ∈ s.tree.nodes)
    {field : String} {place : Slot Node} (hplace : p.kind.slot? field = some place) {index : Nat}
    (hc : place.nodes[index]? = some c) (houtside : m.id ∉ c.ids) (hsigns : signsOf text = c.said field) {deletion : Edit}
    (hdeletion : deletion = ⟨c.range.start, c.range.stop, .deleteChild c.id p.id field index⟩) :
    ∃ committed s', s.perform [deletion, insertion] = (.ok committed, s') ∧
      ∃ ts, tokenize s'.text = .ok ts ∧
        (ts.filterMap Token.sign?).Perm (leftIn place ++ s.tree.roots.flatMap Node.flatten) := by
  have hfits' : deletion.Fits p := hdeletion ▸ .delete hplace hc
  have hpair : [deletion, insertion].Pairwise (Compatible s.tree) :=
    List.pairwise_pair.2 (hdeletion ▸ compatible_of_outside ht.distinct hputs hp hplace hc houtside)
  have hall : ∀ e ∈ [deletion, insertion], ∃ m ∈ s.tree.nodes, e.Fits m := by
    simpa using ⟨⟨p, hp, hfits'⟩, m, hputs.mem, hputs.fits⟩
  have htexts : ∀ e ∈ [deletion, insertion], ∀ text ∈ e.text?, Fragment text := by
    intro e he text' htext'
    rcases List.mem_pair.1 he with rfl | rfl
    · rw [hdeletion] at htext'
      cases htext'
    · rw [hputs.text_eq] at htext'
      cases htext'
      exact hfragment
  -- The move is a batch of two compatible edits.
  obtain ⟨committed, s', hperform, ts, hts, hwording⟩ := perform_batch hs ht hdoc hall htexts hpair
  refine ⟨committed, s', hperform, ts, hts, ?_⟩
  rw [hwording, List.flatMap_map]
  exact ht.distinct.perm_of_child_move hputs hp hplace hc houtside hsigns hdeletion

end Session

/-! ## A root taken away -/

namespace Tree.Distinct

variable {t : Tree} (ht : t.Distinct) {root : Node} (hroot : root ∈ t.roots)

include ht hroot

theorem root_not_mem_parts {n : Node} (hn : n ∈ t.nodes) : root ∉ n.kind.parts := by
  intro hpart
  rcases Node.child_of_part hpart with hchild | ⟨name, params, body, hk, -, hchild⟩
  · exact ht.root_not_child hroot hn hchild
  · have hparams : params ∈ n.children := by simp [Node.children_functionDef hk]
    exact ht.root_not_child hroot (Tree.mem_nodes_of_mem_walk hn (Node.mem_walk_of_child hparams)) hchild

theorem eq_of_within_root {n : Node} (hn : n ∈ t.nodes) (h : n.Within root) : n = root := by
  rcases h.self_or_part with rfl | ⟨p, hp, hpart⟩
  · rfl
  · exact absurd hpart (ht.root_not_mem_parts hroot (Tree.mem_nodes_of_mem_walk hn hp.mem_walk))

/-- A root that goes is chosen besides nodes outside of it. -/
theorem outermost_cons {K : Node → Prop} {tops : List Node} (h : Outermost K t.roots tops)
    (hapart : tops.Pairwise fun a b => ¬ a.Within b ∧ ¬ b.Within a) (houtside : ∀ n, K n → ¬ root.Within n) :
    Outermost (fun n => K n ∨ n = root) t.roots (root :: tops) ∧
      (root :: tops).Pairwise fun a b => ¬ a.Within b ∧ ¬ b.Within a := by
  refine ⟨⟨?_, ?_⟩, List.pairwise_cons.2 ⟨fun b hb => ?_, hapart⟩⟩
  · intro n hn
    rcases List.mem_cons.1 hn with rfl | hn
    · exact ⟨.inr rfl, n, hroot, .self n⟩
    · obtain ⟨hk, hstands⟩ := h.chosen n hn
      exact ⟨.inl hk, hstands⟩
  · rintro r hr n hn (hk | rfl)
    · obtain ⟨mark, hmark, hwithin⟩ := h.covers r hr n hn hk
      exact ⟨mark, List.mem_cons_of_mem _ hmark, hwithin⟩
    · exact ⟨n, List.mem_cons_self, .self n⟩
  · obtain ⟨hk, hstands⟩ := h.chosen b hb
    refine ⟨houtside b hk, fun hwithin => ?_⟩
    obtain rfl := ht.eq_of_within_root hroot (Tree.Stands.mem_nodes hstands) hwithin
    exact houtside b hk (.self b)

end Tree.Distinct

theorem Edit.Touched.not_within {edits : List Edit} {n root : Node} (h : Touched edits n)
    (houtside : ∀ e ∈ edits, ∀ id ∈ e.parent?, id ∉ root.ids) : ¬ root.Within n := by
  intro hwithin
  obtain ⟨e, he, hparent | ⟨name, params, body, hk, hparent⟩⟩ := h
  · exact houtside e he _ hparent (List.mem_map_of_mem hwithin.mem_walk)
  · have hparams : params ∈ n.walk := Node.mem_walk_of_child (by simp [Node.children_functionDef hk])
    exact houtside e he _ hparent (List.mem_map_of_mem (Node.mem_walk_trans hwithin.mem_walk hparams))

/-- The edit that takes a root away. -/
def Node.removal (root : Node) : Edit := ⟨root.range.start, root.range.stop, .deleteRoot root.id⟩

theorem Edit.compatible_removal (t : Tree) (root : Node) (e : Edit) : Compatible t root.removal e := by
  refine ⟨fun _ => nofun, nofun, nofun, ?_, ?_⟩
  · rintro ⟨_, _, _, -, -, ⟨⟩, -⟩
  · rintro ⟨_, _, _, ⟨⟩, -⟩

/-- The removal is in no place of a node. -/
theorem Node.edited_removal (n root : Node) (e : Edit) :
    n.edited (Edit.latestFirst [root.removal, e]) = n.edited [e] := by
  refine edited_congr fun id _ => congrArg Edit.refit ?_
  have hperm := (Edit.latestFirst_perm [root.removal, e]).filter (·.parent? = some id)
  have hnone : ¬ root.removal.parent? = some id := nofun
  rw [List.filter_cons_of_neg (by simpa using hnone)] at hperm
  by_cases hid : e.parent? = some id
  · rw [List.filter_cons_of_pos (by simpa using hid)] at hperm
    rw [inside, inside, List.perm_singleton.1 hperm]
    simp [hid]
  · rw [List.filter_cons_of_neg (by simpa using hid)] at hperm
    rw [inside, inside, List.perm_nil.1 hperm]
    simp [hid]

/-- What a node says if a root is taken away and edits are made in the others. -/
def Node.remaining (root : Node) (edits : List Edit) (n : Node) : List Sign :=
  if n.id = root.id then [] else n.wording edits

/-- What a node is printed as if a root is taken away and edits are made in the others. -/
def Node.remnant (root : Node) (edits : List Edit) (width : Nat) (n : Node) : String :=
  if n.id = root.id then "" else n.reprinted edits width

theorem Tree.Distinct.root_ids_nodup {t : Tree} (ht : t.Distinct) : (t.roots.map Node.id).Nodup := by
  refine ht.roots_ids_nodup.sublist ?_
  rw [List.map_eq_flatMap]
  refine List.Sublist.flatMap_right _ fun r _ => ?_
  rw [Node.ids_eq]
  exact List.singleton_sublist.2 List.mem_cons_self

/-- What remains lacks what the root said. -/
theorem Tree.Distinct.count_remaining {t : Tree} (ht : t.Distinct) {root : Node} (hroot : root ∈ t.roots)
    (edits : List Edit) (x : Sign) :
    (t.roots.flatMap (root.remaining edits)).count x + (root.wording edits).count x =
      (t.roots.flatMap (Node.wording edits)).count x := by
  have hnodup := ht.root_ids_nodup
  obtain ⟨before, after, hroots⟩ := List.append_of_mem hroot
  rw [hroots, List.map_append, List.map_cons, List.nodup_middle, List.nodup_cons, ← List.map_append] at hnodup
  have hothers : ∀ n ∈ before ++ after, root.remaining edits n = n.wording edits := by
    intro n hn
    refine if_neg fun hid => hnodup.1 ?_
    exact hid ▸ List.mem_map_of_mem hn
  have hself : root.remaining edits root = [] := if_pos rfl
  rw [hroots]
  simp only [List.flatMap_append, List.flatMap_cons, List.count_append, hself, List.count_nil,
    List.flatMap_congr fun n hn => hothers n (List.mem_append_left _ hn),
    List.flatMap_congr fun n hn => hothers n (List.mem_append_right _ hn)]
  omega

theorem fill_congr {f g : Node → List Sign} {pattern : List (Sign ⊕ Node)}
    (h : ∀ n, .inr n ∈ pattern → f n = g n) : fill f pattern = fill g pattern := by
  refine List.flatMap_congr fun part hpart => ?_
  cases part with
  | inl x => rfl
  | inr n => exact h n hpart

/-- One of the edits is in a place of the node, or the node is the root that goes. -/
def Edit.TouchedOr (root : Node) (edits : List Edit) (n : Node) : Prop := Touched edits n ∨ n = root

section Removal

variable {t : Tree} {doc : List Lexeme} (ht : t.Orderly doc) {root : Node} (hroot : root ∈ t.roots)

include ht hroot

theorem Tree.Orderly.remaining_eq {n : Node} (hn : n ∈ t.nodes) (hne : n ≠ root) (edits : List Edit) (width : Nat) :
    root.remaining edits n = n.wording edits ∧ root.remnant edits width n = n.reprinted edits width := by
  have hid : n.id ≠ root.id := fun heq => hne (ht.distinct.eq_of_id_eq hn (Tree.root_mem_nodes hroot) heq)
  exact ⟨if_neg hid, if_neg hid⟩

/-- A node that no edit touches and that stays says what remains of its parts. -/
theorem Tree.Orderly.remaining_of_untouched {edits : List Edit} {n : Node} (hn : t.Stands n)
    (h : ¬ TouchedOr root edits n) : root.remaining edits n = fill (root.remaining edits) n.kind.shape := by
  obtain ⟨huntouched, hne⟩ := not_or.1 h
  rw [(ht.remaining_eq hroot hn.mem_nodes hne edits 0).1,
    Node.wording_of_untouched fun e he htouches => huntouched ⟨e, he, htouches⟩]
  refine fill_congr fun l hl => ?_
  have hpart := Kind.mem_shape.1 hl
  refine (ht.remaining_eq hroot (hn.within (.part hpart (.self l))).mem_nodes ?_ edits 0).1.symm
  rintro rfl
  exact ht.distinct.root_not_mem_parts hroot hn.mem_nodes hpart

variable {edits : List Edit} (hfits : ∀ e ∈ edits, ∃ m ∈ t.nodes, e.Fits m ∧ m.id ∉ root.ids)

include hfits

omit ht hroot in
theorem Edit.fits_of_removal : ∀ e ∈ root.removal :: edits, e.parent? = none ∨ ∃ m ∈ t.nodes, e.Fits m := by
  refine List.forall_mem_cons.2 ⟨.inl rfl, fun e he => ?_⟩
  obtain ⟨m, hm, hfit, -⟩ := hfits e he
  exact .inr ⟨m, hm, hfit⟩

/-- A root taken away together with edits outside of it: the root is printed over with nothing, and the
outermost nodes that are touched with all edits made. -/
theorem textChanges_removal (hcompat : edits.Pairwise (Compatible t)) (width : Nat) :
    ∃ tops changes, Outermost (TouchedOr root (root.removal :: edits)) t.roots tops ∧
      tops.Pairwise (fun a b => ¬ a.Within b ∧ ¬ b.Within a) ∧
      textChanges t (root.removal :: edits) width = .ok changes ∧
      changes.Perm (tops.map fun a =>
        a.printOver (root.remnant (Edit.latestFirst (root.removal :: edits)) width a)) := by
  have houtside : ∀ e ∈ root.removal :: edits, ∀ id ∈ e.parent?, id ∉ root.ids := by
    refine List.forall_mem_cons.2 ⟨nofun, fun e he id hid => ?_⟩
    obtain ⟨m, -, hfit, hout⟩ := hfits e he
    rw [hfit.parent?_eq] at hid
    cases hid
    exact hout
  have hpairs : (root.removal :: edits).Pairwise (Compatible t) :=
    List.pairwise_cons.2 ⟨fun e _ => compatible_removal t root e, hcompat⟩
  obtain ⟨tops, htops, hapart, hchanges⟩ := textChanges_eq ht (fits_of_removal hfits) hpairs width
  obtain ⟨htops', hapart'⟩ := ht.distinct.outermost_cons hroot htops hapart fun n hn => hn.not_within houtside
  refine ⟨root :: tops, _, htops', hapart', hchanges, (List.mergeSort_perm _ _).trans ?_⟩
  have hnone : edits.filterMap Edit.rootChange? = [] := by
    refine List.filterMap_eq_nil_iff.2 fun e he => ?_
    obtain ⟨m, -, hfit, -⟩ := hfits e he
    exact hfit.rootChange?_eq
  have hremoved : ((Edit.latestFirst (root.removal :: edits)).filterMap Edit.rootChange?).Perm [root.printOver ""] := by
    refine ((Edit.latestFirst_perm _).filterMap _).trans ?_
    rw [List.filterMap_cons_some (show root.removal.rootChange? = some (root.printOver "") from rfl), hnone]
  -- The nodes that are touched are not the root, so they are printed as without the removal.
  refine (hremoved.append_right _).trans (.of_eq ?_)
  rw [List.map_cons, show root.remnant _ width root = "" from if_pos rfl, List.singleton_append]
  refine congrArg _ (List.map_congr_left fun a ha => ?_)
  obtain ⟨hk, hstands⟩ := htops.chosen a ha
  have hne : a ≠ root := by
    rintro rfl
    exact hk.not_within houtside (.self a)
  rw [(ht.remaining_eq hroot (Tree.Stands.mem_nodes hstands) hne _ width).2]

end Removal

namespace Session

/-- A root taken away between texts that do not join, together with a batch of compatible edits outside of
it: the new text says what the other roots say with the edits made at once. -/
theorem perform_batch_removal {s : Session String} (hs : s.InStep) {doc : List Lexeme} (ht : s.tree.Orderly doc)
    (hdoc : Lexeme.text doc = s.text.toList) {root : Node} (hroot : root ∈ s.tree.roots)
    (hjoins : ∀ before covered after, around s.text root.range = .ok (before, covered, after) → ¬ Joins before after)
    {edits : List Edit} (hfits : ∀ e ∈ edits, ∃ m ∈ s.tree.nodes, e.Fits m ∧ m.id ∉ root.ids)
    (htexts : ∀ e ∈ edits, ∀ text ∈ e.text?, Fragment text) (hcompat : edits.Pairwise (Compatible s.tree)) :
    ∃ committed s', s.perform (root.removal :: edits) = (.ok committed, s') ∧
      ∃ ts, tokenize s'.text = .ok ts ∧ ts.filterMap Token.sign? =
        s.tree.roots.flatMap (root.remaining (Edit.latestFirst (root.removal :: edits))) := by
  obtain ⟨tops, changes, htops, hapart, hchanges, hprinted⟩ :=
    textChanges_removal ht hroot hfits hcompat s.settings.prettyWidth
  have hperm := Edit.latestFirst_perm (root.removal :: edits)
  have htouched : ∀ {n}, TouchedOr root (root.removal :: edits) n ↔
      TouchedOr root (Edit.latestFirst (root.removal :: edits)) n := by
    intro n
    simp only [TouchedOr, Touched, hperm.mem_iff]
  have htexts' : ∀ e ∈ Edit.latestFirst (root.removal :: edits), ∀ text ∈ e.text?, Fragment text := by
    intro e he
    rcases List.mem_cons.1 (hperm.subset he) with rfl | he
    · nofun
    · exact htexts e he
  have hlist : ∀ r ∈ s.tree.roots, ∀ m, r.Within m → TouchedOr root (root.removal :: edits) m → ¬ m = root →
      m.Bracketed := by
    intro r hr m hm hk hne
    exact (hk.resolve_right hne).bracketed ht.distinct (fits_of_removal hfits) (Tree.Stands.mem_nodes ⟨r, hr, hm⟩)
  have hstep : ∀ r ∈ s.tree.roots, ∀ m, r.Within m → ¬ TouchedOr root (root.removal :: edits) m →
      root.remaining (Edit.latestFirst (root.removal :: edits)) m =
        fill (root.remaining (Edit.latestFirst (root.removal :: edits))) m.kind.shape :=
    fun r hr m hm hk => ht.remaining_of_untouched hroot ⟨r, hr, hm⟩ (mt htouched.2 hk)
  have hprint : ∀ r ∈ s.tree.roots, ∀ m, r.Within m → TouchedOr root (root.removal :: edits) m → ¬ m = root →
      ∃ ms, Lexeme.text ms =
          (root.remnant (Edit.latestFirst (root.removal :: edits)) s.settings.prettyWidth m).toList ∧
        Prints ms (root.remaining (Edit.latestFirst (root.removal :: edits)) m) := by
    intro r hr m hm hk hne
    have hstands : s.tree.Stands m := ⟨r, hr, hm⟩
    obtain ⟨hsigns, hprint⟩ := ht.remaining_eq hroot hstands.mem_nodes hne
      (Edit.latestFirst (root.removal :: edits)) s.settings.prettyWidth
    rw [hsigns, hprint]
    exact hs.prints hstands (hlist r hr m hm hk hne) htexts' _
  -- The root itself gives way to nothing.
  have hgone : ∀ m, m = root → m ∈ s.tree.roots ∧
      root.remnant (Edit.latestFirst (root.removal :: edits)) s.settings.prettyWidth m = "" ∧
      root.remaining (Edit.latestFirst (root.removal :: edits)) m = [] ∧
      ∀ a covered b, around s.text m.range = .ok (a, covered, b) → ¬ Joins a b := by
    rintro m rfl
    exact ⟨hroot, if_pos rfl, if_pos rfl, hjoins⟩
  obtain ⟨marks, hmarks, hranges, happly⟩ := ht.placed.writeOver ht.clear hdoc hstep hlist hprint hgone
    fun m l hm hl => hm.trans hl.symm
  have hmarksApart := ht.pairwise_not_within hmarks hranges
  obtain ⟨after, hafter, htokens, reread, hreread⟩ := happly changes
    (hprinted.trans ((htops.perm hmarks hapart hmarksApart).map _))
  obtain ⟨committed, s', hperform, hs'⟩ := perform_of_changes (List.cons_ne_nil _ _) hchanges hafter hreread
  exact ⟨committed, s', hperform, hs' ▸ htokens⟩

/-- A root taken away and its text put in outside of it. -/
theorem perform_root_move {s : Session String} (hs : s.InStep) {doc : List Lexeme} (ht : s.tree.Orderly doc)
    (hdoc : Lexeme.text doc = s.text.toList) {m : Node} {text : String} {insertion : Edit}
    (hputs : insertion.Puts s.tree text m) (hfragment : Fragment text) {root : Node} (hroot : root ∈ s.tree.roots)
    (houtside : m.id ∉ root.ids)
    (hjoins : ∀ before covered after, around s.text root.range = .ok (before, covered, after) → ¬ Joins before after)
    (hsigns : signsOf text = root.flatten) :
    ∃ committed s', s.perform [root.removal, insertion] = (.ok committed, s') ∧
      ∃ ts, tokenize s'.text = .ok ts ∧ (ts.filterMap Token.sign?).Perm (s.tree.roots.flatMap Node.flatten) := by
  have hall : ∀ e ∈ [insertion], ∃ m ∈ s.tree.nodes, e.Fits m ∧ m.id ∉ root.ids := by
    simpa using ⟨m, hputs.mem, hputs.fits, houtside⟩
  have htexts : ∀ e ∈ [insertion], ∀ text ∈ e.text?, Fragment text := by
    simpa [hputs.text_eq] using hfragment
  obtain ⟨committed, s', hperform, ts, hts, hremaining⟩ :=
    perform_batch_removal hs ht hdoc hroot hjoins hall htexts (List.pairwise_singleton _ _)
  refine ⟨committed, s', hperform, ts, hts, List.perm_iff_count.2 fun x => ?_⟩
  have hself : root.edited [insertion] = root := by
    refine Node.edited_eq_self fun id hid => List.filter_eq_nil_iff.2 fun e he hparent => houtside ?_
    rw [List.mem_singleton.1 he, hputs.fits.parent?_eq] at hparent
    rwa [Option.some.inj (of_decide_eq_true hparent)]
  have hparent : ∀ e ∈ [insertion], (∃ r ∈ s.tree.roots, m ∈ r.walk) ∧ e.Fits m :=
    fun e he => ⟨List.mem_flatMap.1 hputs.mem, List.mem_singleton.1 he ▸ hputs.fits⟩
  have hcount := ht.distinct.count_edited (List.pairwise_singleton _ _) (List.pairwise_singleton _ _)
    (fun r hr => Tree.root_mem_nodes hr) ht.distinct.roots_ids_nodup hparent x
  have hrest := ht.distinct.count_remaining hroot (Edit.latestFirst [root.removal, insertion]) x
  obtain ⟨htaken, hgiven⟩ := hputs.taken_and_given
  simp only [List.map_cons, List.map_nil, List.sum_cons, List.sum_nil, htaken, hgiven, hsigns, List.count_nil] at hcount
  have hwording : Node.wording (Edit.latestFirst [root.removal, insertion]) =
      fun r => (r.edited [insertion]).flatten :=
    funext fun n => congrArg Node.flatten (n.edited_removal root insertion)
  simp only [hwording, hself] at hrest
  -- What the root said is gone from its place, and it is what has been put in.
  rw [hremaining]
  omega

end Session

/-! ## A child of a root dropped into a later root -/

theorem Tree.mem_roots_of_at? {t : Tree} {n : Node} {i : Nat} (h : t.at? [i] = some n) : n ∈ t.roots := by
  obtain ⟨root, hroot, hn⟩ := Option.bind_eq_some_iff.1 h
  cases hn
  exact List.mem_of_getElem? hroot

theorem Tree.mem_children_of_at? {t : Tree} {n c : Node} {i j : Nat} (hn : t.at? [i] = some n)
    (hc : t.at? [i, j] = some c) : c ∈ n.children := by
  rw [at?, show [i, j] = [i] ++ [j] from rfl, Forest.at?_append _ (List.cons_ne_nil i []),
    show Forest.at? t.roots [i] = some n from hn, Option.bind_some] at hc
  obtain ⟨d, hd, hc⟩ := Option.bind_eq_some_iff.1 hc
  cases hc
  exact List.mem_of_getElem? hd

theorem Edit.latestFirst_pair {d i : Edit} (h : d.start < i.start) : latestFirst [d, i] = [i, d] := by
  have hlater : rangeLe i.span d.span = false := by
    rw [Bool.eq_false_iff]
    exact fun hle => absurd (start_le_of_rangeLe hle) (not_le.2 h)
  simp [latestFirst, List.mergeSort, hlater]

theorem Edit.move_of_child {t : Tree} {text field : String} {c : Node} {parent : NodeId} {pos : Pos}
    {deletion insertion : Edit} (hc : t.find c.id = .ok c) (hdeletion : delete t c.id = .ok deletion)
    (houtside : c.containsId parent = false) (hinsertion : insert t text (some parent) field pos = .ok insertion) :
    move t text c.id (.child parent field pos) = .ok [deletion, insertion] := by
  refine bind_eq_ok.2 ⟨c, hc, ?_⟩
  simp only [houtside]
  exact bind_eq_ok.2 ⟨insertion, hinsertion, bind_eq_ok.2 ⟨deletion, hdeletion, rfl⟩⟩

theorem Tree.Distinct.reprintedNode_of_root {t : Tree} (ht : t.Distinct) {root : Node} (hroot : root ∈ t.roots) :
    reprintedNode t root.id = .ok root := by
  simp only [reprintedNode, ht.get?_eq (Tree.root_mem_nodes hroot), ht.parent?_of_root hroot]

/-- A node that one edit of a batch is made in is printed with that edit. -/
theorem toTextChange_of_one {t : Tree} (ht : t.Distinct) {n m : Node} (hn : n ∈ t.nodes) (hm : m ∈ n.walk) {e : Edit}
    (he : e.Fits m) {edits : List Edit} {k : Nat} (hk : edits[k]? = some e) (width : Nat) :
    (EditGroup.toTextChange ⟨n.id, n.range, [k], none⟩ t edits width).1 =
      .ok (n.printOver (n.reprinted [e] width)) := by
  have hturn : Turn n [e] := turn_of_compatible (List.pairwise_singleton _ _) (List.pairwise_singleton _ _) ht hn
    (by simpa using ⟨m, hm, he⟩)
  have hsorted : Edit.latestFirst [e] = [e] := List.mergeSort_singleton _
  simp only [EditGroup.toTextChange, EditGroup.reprint, ht.get?_eq hn, List.filterMap_cons, List.filterMap_nil, hk,
    hsorted, hturn.graftAll_eq]
  rfl

/-- One edit in a place of a root and one in a place of a later root: both roots are printed. -/
theorem textChanges_of_two_roots {t : Tree} (ht : t.Distinct) {a b : Node} (ha : a ∈ t.roots) (hb : b ∈ t.roots)
    (hstarts : a.range.start < b.range.start) (hstops : a.range.stop < b.range.stop) {d i : Edit} (hd : d.Fits a)
    (hi : i.Fits b) (hlater : d.start < i.start) (width : Nat) :
    textChanges t [d, i] width =
      .ok [b.printOver (b.reprinted [i] width), a.printOver (a.reprinted [d] width)] := by
  have hba : b.range.contains a.range = false := by
    rw [Bool.eq_false_iff]
    exact fun hcontains => absurd (Span.contains_iff.1 hcontains).1 (not_le.2 hstarts)
  have hab : a.range.contains b.range = false := by
    rw [Bool.eq_false_iff]
    exact fun hcontains => absurd (Span.contains_iff.1 hcontains).2 (not_le.2 hstops)
  -- Neither range contains the other, so each root is printed for itself.
  have hgroups : groupEdits t [i, d] = .ok [⟨b.id, b.range, [0], none⟩, ⟨a.id, a.range, [1], none⟩] := by
    have hfirst : joinGroups [] b 0 = [⟨b.id, b.range, [0], none⟩] := rfl
    have hsecond : joinGroups [⟨b.id, b.range, [0], none⟩] a 1 =
        [⟨b.id, b.range, [0], none⟩, ⟨a.id, a.range, [1], none⟩] := by
      simp [joinGroups, hba, hab]
    simp only [groupEdits, List.zipIdx_cons, List.zipIdx_nil, List.foldlM_cons, List.foldlM_nil, hi.parent?_eq,
      hd.parent?_eq, ht.reprintedNode_of_root ha, ht.reprintedNode_of_root hb]
    exact congrArg Except.ok (hfirst ▸ hsecond)
  have hprint : ∀ {n : Node} {e : Edit} {k : Nat}, n ∈ t.roots → e.Fits n → [i, d][k]? = some e →
      (EditGroup.toTextChange ⟨n.id, n.range, [k], none⟩ t [i, d] width).1 =
        .ok (n.printOver (n.reprinted [e] width)) := fun hn he hk =>
    toTextChange_of_one ht (Tree.root_mem_nodes hn) (Node.mem_walk_self _) he hk width
  have hrootless : [i, d].filterMap Edit.rootChange? = [] := by simp [hi.rootChange?_eq, hd.rootChange?_eq]
  have hsorted : TreeEdit.latestFirst [b.printOver (b.reprinted [i] width), a.printOver (a.reprinted [d] width)] =
      [b.printOver (b.reprinted [i] width), a.printOver (a.reprinted [d] width)] := by
    refine List.mergeSort_of_pairwise (List.pairwise_pair.2 ?_)
    simp [rangeLe, TextChange.span, Node.printOver, hstarts]
  have hmapM : [(⟨b.id, b.range, [0], none⟩ : EditGroup), ⟨a.id, a.range, [1], none⟩].mapM
      (fun g => (g.toTextChange t [i, d] width).1) =
        .ok [b.printOver (b.reprinted [i] width), a.printOver (a.reprinted [d] width)] :=
    mapM_cons_eq_ok.2 ⟨_, _, hprint hb hi rfl, mapM_cons_eq_ok.2 ⟨_, _, hprint ha hd rfl, rfl, rfl⟩, rfl⟩
  rw [textChanges, latestFirst_pair hlater]
  refine bind_eq_ok.2 ⟨_, hgroups, bind_eq_ok.2 ⟨_, hmapM, ?_⟩⟩
  rw [hrootless, List.nil_append, hsorted]
  rfl

namespace Session

/-- A child of a root is dropped into a place of a later root: both roots are printed. -/
theorem drop_into_later_root {s : Session String} (ht : s.tree.Distinct) {a b c : Node} (ha : a ∈ s.tree.roots)
    (hb : b ∈ s.tree.roots) (hstarts : a.range.start < b.range.start) (hstops : a.range.stop < b.range.stop)
    (hc : c ∈ a.children) {field : String} {index : Nat} (hlocate : a.locate c.id = .ok (field, index))
    {field' : String} {slot : Slot Node} (hslot : b.kind.slot? field' = some slot) {pos : Pos} {i : Nat}
    (hindex : slotIndex slot pos = .ok i) (hlater : c.range.start < pos) (houtside : c.containsId b.id = false)
    {text : String} (htext : rangeText s.text c.range = .ok text) {deletion insertion : Edit}
    (hdeletion : deletion = ⟨c.range.start, c.range.stop, .deleteChild c.id a.id field index⟩)
    (hinsertion : insertion = ⟨pos, pos, .insertChild b.id slot.field i text⟩) {after : String}
    (happly : applyChanges s.text [b.printOver (b.reprinted [insertion] s.settings.prettyWidth),
      a.printOver (a.reprinted [deletion] s.settings.prettyWidth)] = .ok after)
    {reread : List Node} (hread : readDocument after = .ok reread) :
    ∃ committed s', s.drop c.id (.child b.id field' pos) = (.ok committed, s') ∧ s'.text = after := by
  have hanode := Tree.root_mem_nodes ha
  have hbnode := Tree.root_mem_nodes hb
  have hfind := find_eq ht (Tree.mem_nodes_of_mem_walk hanode (Node.mem_walk_of_child hc))
  have hdelete := delete_of_child ht hanode hc hlocate
  have hinsert := insert_of_slot ht hbnode hslot hindex text
  rw [← hdeletion] at hdelete
  rw [← hinsertion] at hinsert
  have hmove := move_of_child hfind hdelete houtside hinsert
  obtain ⟨-, -, place, hplace, hchild⟩ := located ht hfind (ht.parent?_of_child hanode hc) hlocate
  have hfits : deletion.Fits a := hdeletion ▸ .delete hplace hchild
  obtain ⟨-, m, hm, hid, hfits'⟩ := insert_eq_ok hinsert
  obtain rfl := ht.eq_of_id_eq hm hbnode hid
  have hlater : deletion.start < insertion.start := by rwa [hdeletion, hinsertion]
  have hchanges := textChanges_of_two_roots ht ha hb hstarts hstops hfits hfits' hlater s.settings.prettyWidth
  have hnode : s.nodeText c.id = .ok text := bind_eq_ok.2 ⟨c, hfind, htext⟩
  obtain ⟨committed, s', hperform, hs'⟩ := perform_of_changes (List.cons_ne_nil _ _) hchanges happly hread
  refine ⟨committed, s', ?_, hs'⟩
  rw [drop, hnode]
  simp only [hmove]
  exact hperform

/-- A node is dropped into a place of another. If no range covers foreign code, no comment ends where the
node does, and, should the node be a root, the texts around it do not join, then the code of the new text is
that of the old one in some order, and a blank more if the node stood in a place that may not be empty. -/
theorem drop_conserves_code {s : Session String} (hs : s.InStep) (hids : s.tree.Identified) {ts : List Token}
    (hts : tokenize s.text = .ok ts) (hclear : ∀ n ∈ s.tree.nodes, n.Clear ts) {source : Node}
    (hsource : source ∈ s.tree.nodes) (hstop : Uncommented ts source.range.stop)
    (hjoins : source ∈ s.tree.roots → ∀ before covered after,
      around s.text source.range = .ok (before, covered, after) → ¬ Joins before after)
    {parent : NodeId} {field : String} {pos : Pos} {committed : Committed} {s' : Session String}
    (h : s.drop source.id (.child parent field pos) = (.ok committed, s')) :
    ∃ ts', tokenize s'.text = .ok ts' ∧ (ts'.filterMap Token.sign?).Perm
      ((if s.tree.requires source.id then [.word blankText] else []) ++ ts.filterMap Token.sign?) := by
  obtain ⟨doc, hdoc, hplaced, htokens⟩ := hs.placed
  cases hts.symm.trans htokens
  have ht : s.tree.Orderly doc := ⟨hids.distinct, hplaced, hclear⟩
  have hsaid : (tokens .zero doc).filterMap Token.sign? = s.tree.roots.flatMap Node.flatten := by
    rw [filterMap_sign?_tokens, hplaced.fills.signs_eq, fill_parts, List.flatMap_def]
  rcases s.drop_cases source.id (.child parent field pos) with ⟨e, herror⟩ | ⟨text, edits, htext, hmove, hdrop⟩
  · cases herror.symm.trans h
  have hfind := find_eq ht.distinct hsource
  have hrange : rangeText s.text source.range = .ok text := by
    obtain ⟨n, hn, hrange⟩ := bind_eq_ok.1 htext
    cases hfind.symm.trans hn
    exact hrange
  obtain ⟨n, deletion, insertion, hn, hdeletion, rfl, hcontains, hinsertion⟩ := move_eq_ok hmove
  cases hfind.symm.trans hn
  obtain ⟨m, rfl, hputs⟩ := puts_of_insert hinsertion
  have houtside : m.id ∉ source.ids := fun hmem => by simp [Node.containsId_iff.2 hmem] at hcontains
  rw [hsaid]
  -- A root is cut out of the text; a child is left out when its parent is printed again.
  rcases Tree.Distinct.root_or_child hsource with hroot | ⟨p, hp, hchild⟩
  · cases (delete_of_root ht.distinct hroot).symm.trans hdeletion
    have hstretch := ht.stretch_of_stands ⟨source, hroot, .self source⟩ hstop
    obtain ⟨hfragment, hsigns⟩ := hstretch.fragment hdoc hrange
    obtain ⟨committed', s'', hperform, hcode⟩ :=
      perform_root_move hs ht hdoc hputs hfragment hroot houtside (hjoins hroot) hsigns
    cases (hdrop.trans hperform).symm.trans h
    simpa [ht.distinct.not_requires_of_root hroot] using hcode
  · obtain ⟨c, hc, hdeletion⟩ := bind_eq_ok.1 hdeletion
    cases hfind.symm.trans hc
    have hparent := ht.distinct.parent?_of_child hp hchild
    simp only [hparent] at hdeletion
    obtain ⟨⟨field', index⟩, hlocate, hdeletion⟩ := bind_eq_ok.1 hdeletion
    cases hdeletion
    obtain ⟨-, -, place, hplace, hindex⟩ := located ht.distinct hfind hparent hlocate
    obtain ⟨hslot, rfl⟩ := Kind.slot?_eq_some_iff.1 hplace
    have hmem := List.mem_of_getElem? hindex
    obtain ⟨hfragment, hsigns⟩ := (ht.stretch_of_child hp hslot hmem hstop).fragment hdoc hrange
    obtain ⟨committed', s'', hperform, hcode⟩ :=
      perform_child_move hs ht hdoc hputs hfragment hp hplace hindex houtside hsigns rfl
    cases (hdrop.trans hperform).symm.trans h
    rwa [ht.distinct.leftIn_eq hp hslot hmem] at hcode

/-- A test is dropped into a call together with the comment before it, and leaves a blank. -/
theorem drop_conserves_code_commented_test :
    ∃ (s : Session String) (source : Node), start "(if\n ; c\n a b) (g)" .default = .ok s ∧
      s.tree.at? [0, 0] = some source ∧ s.tree.requires source.id ∧
      ∃ committed s', s.drop source.id (.child ⟨5⟩ "args" ⟨2, 8⟩) = (.ok committed, s') ∧
        ∃ ts, tokenize s'.text = .ok ts ∧ (ts.filterMap Token.sign?).Perm
          [.word blankText, .opening, .word "if", .word "a", .word "b", .closing, .opening, .word "g", .closing] := by
  obtain ⟨ts, hts, hsigns, s, hstart, hbuffer, hids, hclear, a, ha, b, hb, hstarts, hstops, hbid, c, hc, hrequires,
      hlocate, hrange, hout, hstop, slot, hslot, hfield, hindex, hprint, hprint'⟩ :
      ∃ ts, tokenize "(if\n ; c\n a b) (g)" = .ok ts ∧ ts.filterMap Token.sign? =
          [.opening, .word "if", .word "a", .word "b", .closing, .opening, .word "g", .closing] ∧
        ∃ s ∈ (start "(if\n ; c\n a b) (g)" .default).toOption, s.text = "(if\n ; c\n a b) (g)" ∧
        s.tree.Identified ∧
        (∀ n ∈ s.tree.nodes, n.Clear ts) ∧
        ∃ a ∈ s.tree.at? [0], ∃ b ∈ s.tree.at? [1],
          a.range.start < b.range.start ∧ a.range.stop < b.range.stop ∧ b.id = ⟨5⟩ ∧
          ∃ c ∈ s.tree.at? [0, 0], s.tree.requires c.id ∧ a.locate c.id = .ok ("test", 0) ∧
            c.range = ⟨⟨1, 1⟩, ⟨2, 2⟩⟩ ∧ c.containsId b.id = false ∧
            (∀ t ∈ ts, t.span.stop = c.range.stop → t.kind ≠ .comment) ∧
            ∃ slot ∈ b.kind.slot? "args", slot.field = "args" ∧ slotIndex slot ⟨2, 8⟩ = .ok 0 ∧
              b.printOver (b.reprinted [⟨⟨2, 8⟩, ⟨2, 8⟩, .insertChild b.id "args" 0 "; c\n a"⟩]
                s.settings.prettyWidth) = ⟨⟨2, 6⟩, ⟨2, 9⟩, "(g\n        ; c\n       a)"⟩ ∧
              a.printOver (a.reprinted [⟨⟨1, 1⟩, ⟨2, 2⟩, .deleteChild c.id a.id "test" 0⟩]
                s.settings.prettyWidth) = ⟨⟨0, 0⟩, ⟨2, 5⟩, "(if ... b)"⟩ :=
    Except.exists_ok (by decide +kernel)
  have htext : rangeText s.text c.range = .ok "; c\n a" := by
    rw [hbuffer, hrange]
    cbv
  have happly : applyChanges s.text [⟨⟨2, 6⟩, ⟨2, 9⟩, "(g\n        ; c\n       a)"⟩,
      ⟨⟨0, 0⟩, ⟨2, 5⟩, "(if ... b)"⟩] = .ok "(if ... b) (g\n        ; c\n       a)" := by
    rw [hbuffer]
    cbv
  rw [← hprint, ← hprint'] at happly
  obtain ⟨reread, hread⟩ : ∃ reread, readDocument "(if ... b) (g\n        ; c\n       a)" = .ok reread :=
    Except.exists_eq_ok (by decide +kernel)
  have hstart := Except.toOption_eq_some.1 hstart
  have ht := hids.distinct
  have hroot := Tree.mem_roots_of_at? ha
  have hin := Tree.mem_children_of_at? ha hc
  obtain ⟨committed, s', hdrop, hs'⟩ := drop_into_later_root ht hroot (Tree.mem_roots_of_at? hb) hstarts hstops hin
    hlocate hslot hindex (by rw [hrange]; decide) hout htext (by rw [hrange]) (by rw [hfield]) happly hread
  have hchild : c ∉ s.tree.roots := fun hmem => ht.root_not_child hmem (Tree.root_mem_nodes hroot) hin
  obtain ⟨ts', hts', hperm⟩ := drop_conserves_code (start_inStep hstart) hids (hbuffer.symm ▸ hts) hclear
    (Tree.mem_nodes_iff.2 ⟨_, hc⟩) hstop (fun hmem => absurd hmem hchild) hdrop
  rw [hbid] at hdrop
  refine ⟨s, c, hstart, hc, hrequires, committed, s', hdrop, ts', hts', ?_⟩
  rwa [if_pos hrequires, hsigns] at hperm

/-- A test whose range covers the keyword before it is dropped into a call. The keyword is there twice. -/
theorem dropped_test_doubles_keyword :
    ∃ (s : Session String) (source : Node), start "(; c\nif a b) (g)" .default = .ok s ∧
      s.tree.at? [0, 0] = some source ∧ s.tree.requires source.id ∧
      ∃ committed s', s.drop source.id (.child ⟨5⟩ "args" ⟨1, 10⟩) = (.ok committed, s') ∧
        s'.text = "(if ... b) (g\n          ; c\n        if a)" ∧
        ∃ ts ts', tokenize s.text = .ok ts ∧ tokenize s'.text = .ok ts' ∧
          ¬ (ts'.filterMap Token.sign?).Perm (.word blankText :: ts.filterMap Token.sign?) := by
  obtain ⟨s, hstart, hbuffer, hids, a, ha, b, hb, hstarts, hstops, hbid, c, hc, hrequires, hlocate, hrange, hout,
      slot, hslot, hfield, hindex, hprint, hprint'⟩ :
      ∃ s, start "(; c\nif a b) (g)" .default = .ok s ∧ s.text = "(; c\nif a b) (g)" ∧
        s.tree.Identified ∧
        ∃ a ∈ s.tree.at? [0], ∃ b ∈ s.tree.at? [1],
          a.range.start < b.range.start ∧ a.range.stop < b.range.stop ∧ b.id = ⟨5⟩ ∧
          ∃ c ∈ s.tree.at? [0, 0], s.tree.requires c.id ∧ a.locate c.id = .ok ("test", 0) ∧
            c.range = ⟨⟨0, 1⟩, ⟨1, 4⟩⟩ ∧ c.containsId b.id = false ∧
            ∃ slot ∈ b.kind.slot? "args", slot.field = "args" ∧ slotIndex slot ⟨1, 10⟩ = .ok 0 ∧
              b.printOver (b.reprinted [⟨⟨1, 10⟩, ⟨1, 10⟩, .insertChild b.id "args" 0 "; c\nif a"⟩]
                s.settings.prettyWidth) = ⟨⟨1, 8⟩, ⟨1, 11⟩, "(g\n          ; c\n        if a)"⟩ ∧
              a.printOver (a.reprinted [⟨⟨0, 1⟩, ⟨1, 4⟩, .deleteChild c.id a.id "test" 0⟩]
                s.settings.prettyWidth) = ⟨⟨0, 0⟩, ⟨1, 7⟩, "(if ... b)"⟩ :=
    Except.exists_ok (by decide +kernel)
  have htext : rangeText s.text c.range = .ok "; c\nif a" := by
    rw [hbuffer, hrange]
    cbv
  have happly : applyChanges s.text [⟨⟨1, 8⟩, ⟨1, 11⟩, "(g\n          ; c\n        if a)"⟩,
      ⟨⟨0, 0⟩, ⟨1, 7⟩, "(if ... b)"⟩] = .ok "(if ... b) (g\n          ; c\n        if a)" := by
    rw [hbuffer]
    cbv
  rw [← hprint, ← hprint'] at happly
  obtain ⟨reread, hread⟩ : ∃ reread, readDocument "(if ... b) (g\n          ; c\n        if a)" = .ok reread :=
    Except.exists_eq_ok (by decide +kernel)
  obtain ⟨committed, s', hdrop, hs'⟩ := drop_into_later_root hids.distinct
    (Tree.mem_roots_of_at? ha) (Tree.mem_roots_of_at? hb) hstarts hstops (Tree.mem_children_of_at? ha hc) hlocate
    hslot hindex (by rw [hrange]; decide) hout htext (by rw [hrange]) (by rw [hfield]) happly hread
  rw [hbid] at hdrop
  refine ⟨s, c, hstart, hc, hrequires, committed, s', hdrop, hs', ?_⟩
  obtain ⟨ts, hts, ts', hts', hcount⟩ : ∃ ts, tokenize "(; c\nif a b) (g)" = .ok ts ∧
      ∃ ts' ∈ (tokenize "(if ... b) (g\n          ; c\n        if a)").toOption,
        (ts'.filterMap Token.sign?).count (.word "if") ≠
          (.word blankText :: ts.filterMap Token.sign?).count (.word "if") :=
    Except.exists_ok (by decide +kernel)
  rw [hbuffer, hs']
  exact ⟨ts, ts', hts, Except.toOption_eq_some.1 hts', fun hperm => hcount (hperm.count_eq _)⟩

end Session

end TreeEdit
