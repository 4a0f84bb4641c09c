import TreeEdit.Proofs.RootEdits

/-!
# A root exchanged for another list

Where one list stands in a row, another list can be put that starts at the same place. Comments are hung by
the lines on which expressions end and comments start, and these do not change against each other behind the
list. So every other expression of the row stays what it was, and the new list gets the comments of the old
one: `Element.attach_exchange` for a row, `Framed.reads_exchanged` for a document.
-/

namespace TreeEdit

open Reader Lexeme

/-! ## What a comment is made of -/

theorem joinLines_joinLines_cons {ss : List String} (h : ss ≠ []) (ts : List String) :
    joinLines (joinLines ss :: ts) = joinLines (ss ++ ts) := by
  induction ss with
  | nil => exact absurd rfl h
  | cons s ss ih =>
      cases ss with
      | nil => rw [joinLines_singleton]; rfl
      | cons s' ss =>
          have hrest := ih (List.cons_ne_nil s' ss)
          rw [← String.toList_inj] at hrest ⊢
          simp only [toList_joinLines, List.map_cons, List.cons_append, List.intercalate_cons_cons] at hrest ⊢
          rw [intercalate_append_head, hrest]

theorem Comment.start_ofNotes {t : Note} {ts : List Note} (h : ∀ u ∈ ts, t.span.start ≤ u.span.start) :
    (Comment.ofNotes t ts).span.start = t.span.start :=
  le_antisymm (ofNotes_covers t ts t List.mem_cons_self).1 (Note.le_start_foldl_union (le_refl _) h)

/-- The notes stand one behind the other. -/
def Note.Rising (notes : List Note) : Prop := notes.Pairwise fun a b => a.span.start < b.span.start

theorem Note.Rising.ordered {notes : List Note} (h : Note.Rising notes) : Note.Ordered notes := h.imp le_of_lt

/-- A note that stands before the others comes first. -/
theorem Note.sorted_concat {t : Note} {notes : List Note} (h : Note.Rising (t :: notes)) :
    Note.sorted (notes ++ [t]) = t :: notes := by
  have hperm : (Note.sorted (notes ++ [t])).Perm (t :: notes) :=
    (List.mergeSort_perm _ _).trans List.perm_append_comm
  have hsorted : (Note.sorted (notes ++ [t])).Pairwise fun a b => decide (a.span.start ≤ b.span.start) = true := by
    refine List.pairwise_mergeSort ?_ ?_ _
    · intro a b c hab hbc
      exact decide_eq_true ((of_decide_eq_true hab).trans (of_decide_eq_true hbc))
    · intro a b
      simpa using le_total a.span.start b.span.start
  have hnodup : ((t :: notes).map fun a => a.span.start).Nodup := List.pairwise_map.2 (h.imp ne_of_lt)
  refine hperm.eq_of_pairwise ?_ (hsorted.imp of_decide_eq_true) h.ordered
  intro a b ha hb hab hba
  exact List.inj_on_of_nodup_map hnodup (hperm.subset ha) hb (le_antisymm hab hba)

namespace Node

/-- The comment of the node is made of these notes. -/
def Bears (n : Node) (notes : List Note) : Prop :=
  n.comment.map (fun c => (c.text, c.span.start)) =
    notes.head?.map fun t => (joinLines (notes.map Note.text), t.span.start)

theorem bears_nil {n : Node} (h : n.comment = none) : n.Bears [] := by
  rw [Bears, h]
  rfl

theorem Bears.text_eq {n : Node} {notes : List Note} (h : n.Bears notes) :
    n.comment.map Comment.text = (bareComment (notes.map Note.text)).map Comment.text := by
  have htext := congrArg (Option.map Prod.fst) h
  rw [Option.map_map, Option.map_map] at htext
  refine htext.trans ?_
  cases notes <;> rfl

/-- More notes behind those that a comment is made of become part of it. -/
theorem Bears.add {n : Node} {notes more : List Note} (h : n.Bears notes) (hrising : Note.Rising (notes ++ more)) :
    (n.addNotes more).Bears (notes ++ more) := by
  cases more with
  | nil => rwa [addNotes_nil, List.append_nil]
  | cons u us =>
      cases notes with
      | nil =>
          have hnone : n.comment = none := by simpa [Bears] using h
          have hfirst := (List.pairwise_cons.1 hrising).1
          rw [List.nil_append, addNotes_of_ordered hnone hrising.ordered, Bears]
          simp [withComment, Comment.start_ofNotes fun v hv => (hfirst v hv).le]
          rfl
      | cons t ts =>
          obtain ⟨c, hc, hpair⟩ := Option.map_eq_some_iff.1 h
          obtain ⟨htext, hstart⟩ := Prod.mk.inj hpair
          have hbehind : ∀ v ∈ u :: us, c.span.start < v.span.start := by
            intro v hv
            rw [hstart]
            exact (List.pairwise_cons.1 hrising).1 v (List.mem_append_right _ hv)
          have hmore : Note.Rising (c.note :: u :: us) :=
            List.pairwise_cons.2 ⟨hbehind, (List.pairwise_append.1 hrising).2.1⟩
          have hadd : n.addNotes (u :: us) = n.withComment (some (.ofNotes c.note (u :: us))) := by
            rw [addNotes, hc, Option.map_some, Option.toList_some, Note.sorted_concat hmore]
            rfl
          have hjoined : joinLines (c.note.text :: (u :: us).map Note.text) =
              joinLines ((t :: ts ++ u :: us).map Note.text) := by
            rw [List.map_append, ← joinLines_joinLines_cons (by simp), ← htext]
            rfl
          have hfirst : (Comment.ofNotes c.note (u :: us)).span.start = t.span.start :=
            (Comment.start_ofNotes fun v hv => (hbehind v hv).le).trans hstart
          rw [hadd]
          show some ((Comment.ofNotes c.note (u :: us)).text, (Comment.ofNotes c.note (u :: us)).span.start) = _
          rw [hfirst]
          exact congrArg (fun text => some (text, t.span.start)) hjoined

/-- Notes behind a comment that are hung one by one. -/
theorem Bears.foldl {n : Node} {notes more : List Note} (h : n.Bears notes) (hrising : Note.Rising (notes ++ more)) :
    (more.foldl (fun n t => n.addNotes [t]) n).Bears (notes ++ more) := by
  induction more generalizing n notes with
  | nil => rwa [List.append_nil]
  | cons t more ih =>
      have hsplit : notes ++ t :: more = (notes ++ [t]) ++ more := by simp
      rw [hsplit] at hrising ⊢
      exact ih (h.add (List.pairwise_append.1 hrising).1) hrising

end Node

/-! ## Rows -/

namespace Element

theorem Rowed.rising {p q : Pos} {es : List Element} (h : Rowed p es q) {notes : List Note}
    (hsub : (notes.map note).Sublist es) : Note.Rising notes := by
  have hstarts : es.Pairwise fun a b => a.span.start < b.span.start :=
    h.ordered.imp_of_mem fun ha _ hab => (h.proper _ ha).trans_le hab
  have hnotes := hstarts.sublist hsub
  rwa [List.pairwise_map] at hnotes

/-- The notes on the first line of a text that comes right behind an expression, and what follows them. -/
theorem exists_line (gs : List Element) :
    ∃ (ts : List Note) (hs : List Element),
      gs = ts.map note ++ hs ∧ (∀ t ∈ ts, t.span.start.line = 0) ∧ Afresh 0 hs := by
  induction gs with
  | nil => exact ⟨[], [], rfl, by simp, by simp [Afresh]⟩
  | cons g gs ih =>
      cases g with
      | expr n => exact ⟨[], expr n :: gs, rfl, by simp, by simp [Afresh]⟩
      | note t =>
          by_cases hline : t.span.start.line = 0
          · obtain ⟨ts, hs, rfl, hts, hhs⟩ := ih
            exact ⟨t :: ts, hs, rfl, List.forall_mem_cons.2 ⟨hline, hts⟩, hhs⟩
          · refine ⟨[], note t :: gs, rfl, by simp, ?_⟩
            rintro u ⟨⟩
            omega

theorem foldl_step_line {n : Node} {done : List Node} {ts : List Note}
    (h : ∀ t ∈ ts, t.span.start.line = n.span.stop.line) :
    (ts.map note).foldl Walk.step ⟨n :: done, []⟩ = ⟨ts.foldl (fun n t => n.addNotes [t]) n :: done, []⟩ := by
  induction ts generalizing n with
  | nil => rfl
  | cons t ts ih =>
      obtain ⟨ht, hts⟩ := List.forall_mem_cons.1 h
      have hstep : Walk.step ⟨n :: done, []⟩ (note t) = ⟨n.addNotes [t] :: done, []⟩ := by
        simp [Walk.step, ht]
      rw [List.map_cons, List.foldl_cons, hstep, ih (by simpa using hts), List.foldl_cons]

theorem span_foldl_addNotes (n : Node) (ts : List Note) :
    (ts.foldl (fun n t => n.addNotes [t]) n).span = n.span := by
  induction ts generalizing n with
  | nil => rfl
  | cons t ts ih => rw [List.foldl_cons, ih, Node.span_addNotes]

/-- The notes that are left for the last expression before some elements: all of them, if there is no
expression among the elements, and else none. -/
def leftOver (es : List Element) : List Note :=
  if nodes es = [] then (es.foldl Walk.step ⟨[], []⟩).waiting else []

theorem length_done (es : List Element) : (es.foldl Walk.step ⟨[], []⟩).done.length = (nodes es).length := by
  rw [← length_attach, attach, Walk.finish]
  cases (es.foldl Walk.step ⟨[], []⟩).done <;> simp

theorem notes_of_nodes_eq_nil {es : List Element} (h : nodes es = []) :
    es.foldl Walk.step ⟨[], []⟩ = ⟨[], leftOver es⟩ ∧ es = (leftOver es).map note := by
  obtain ⟨blocks, hes, hblocks⟩ := walk_blocks es
  have hdone : (es.foldl Walk.step ⟨[], []⟩).done = [] := List.length_eq_zero_iff.1 (by rw [length_done, h]; rfl)
  rw [hdone] at hblocks
  cases hblocks
  rw [leftOver, if_pos h]
  generalize es.foldl Walk.step ⟨[], []⟩ = w at hdone hes
  exact ⟨congrArg (Walk.mk · w.waiting) hdone, by simpa using hes⟩

theorem leftOver_sublist_row (es : List Element) : ((leftOver es).map note).Sublist es := by
  by_cases hnodes : nodes es = []
  · exact (notes_of_nodes_eq_nil hnodes).2 ▸ List.Sublist.refl _
  · rw [leftOver, if_neg hnodes]
    exact List.nil_sublist _

/-- Behind an expression whose last line has no more notes the rest of a row is dealt out on its own, and the
expression gets what is left over there. -/
theorem finish_behind {m : Node} (done : List Node) {es : List Element} (h : Afresh m.span.stop.line es) :
    (es.foldl Walk.step ⟨m :: done, []⟩).finish = done.reverse ++ m.addNotes (leftOver es) :: attach es := by
  have hbeyond := foldl_step_append (m :: done) es ⟨[], []⟩ (.inr (.inr (by
    rintro prev ⟨⟩
    exact h)))
  rw [List.nil_append] at hbeyond
  rw [hbeyond, attach]
  by_cases hnodes : nodes es = []
  · rw [(notes_of_nodes_eq_nil hnodes).1]
    simp [Walk.finish]
  · have hlength := length_done es
    rw [leftOver, if_neg hnodes, addNotes_nil]
    generalize es.foldl Walk.step ⟨[], []⟩ = w at hlength
    obtain ⟨done', waiting⟩ := w
    cases done' with
    | nil => exact absurd (List.length_eq_zero_iff.1 hlength.symm) hnodes
    | cons prev before => simp [Walk.finish]

/-- An expression in a row. What stands before it does not get the notes behind it. It gets the notes that
wait for it, those on its last line, and those that are left over at the end of the row. -/
theorem attach_around {p q : Pos} {fore hs : List Element} {n : Node} {ts : List Note} (hn : n.comment = none)
    (hrow : Rowed p (fore ++ expr n :: (ts.map note ++ hs)) q) (hts : ∀ t ∈ ts, t.span.start.line = n.span.stop.line)
    (hhs : Afresh n.span.stop.line hs) :
    ∃ m, attach (fore ++ expr n :: (ts.map note ++ hs)) =
        (fore.foldl Walk.step ⟨[], []⟩).done.reverse ++ m :: attach hs ∧
      m.Bears ((fore.foldl Walk.step ⟨[], []⟩).waiting ++ ts ++ leftOver hs) := by
  obtain ⟨blocks, hfore, -⟩ := walk_blocks fore
  have hfold : (fore ++ expr n :: (ts.map note ++ hs)).foldl Walk.step ⟨[], []⟩ =
      hs.foldl Walk.step ((ts.map note).foldl Walk.step ((fore.foldl Walk.step ⟨[], []⟩).step (expr n))) := by
    rw [List.foldl_append, List.foldl_cons, List.foldl_append]
  generalize fore.foldl Walk.step ⟨[], []⟩ = w at hfore hfold
  -- The notes come from the row in this order, so each of them is added behind those before it.
  have hrising : Note.Rising (w.waiting ++ ts ++ leftOver hs) := by
    refine hrow.rising ?_
    rw [hfore, List.map_append, List.map_append, List.append_assoc, List.append_assoc]
    refine List.Sublist.trans ?_ (List.sublist_append_right _ _)
    exact (List.Sublist.refl _).append (((List.Sublist.refl _).append (leftOver_sublist_row hs)).cons _)
  have hstop : (n.addNotes w.waiting).span.stop = n.span.stop := by rw [Node.span_addNotes]
  have hline : (ts.map note).foldl Walk.step (w.step (expr n)) =
      ⟨ts.foldl (fun n t => n.addNotes [t]) (n.addNotes w.waiting) :: w.done, []⟩ :=
    foldl_step_line (by rwa [hstop])
  have hbears : (ts.foldl (fun n t => n.addNotes [t]) (n.addNotes w.waiting)).Bears (w.waiting ++ ts) :=
    ((Node.bears_nil hn).add (List.pairwise_append.1 (List.pairwise_append.1 hrising).1).1).foldl
      (List.pairwise_append.1 hrising).1
  refine ⟨_, ?_, hbears.add hrising⟩
  rw [attach, hfold, hline]
  exact finish_behind w.done (by rwa [span_foldl_addNotes, hstop])

end Element

/-- All roots but one are the same in both forests, with their comments, and the comments of that one have
the same text. -/
structure Forest.SameBeside (k : Nat) (old new : List Node) : Prop where
  beside : ∀ j, j ≠ k → new[j]?.map Node.bare = old[j]?.map Node.bare
  comment : new[k]?.map (fun n => n.comment.map Comment.text) = old[k]?.map fun n => n.comment.map Comment.text

theorem Node.comment_text_anonymous (n : Node) :
    n.anonymous.comment.map Comment.text = n.comment.map Comment.text := by
  rw [anonymous_eq, Option.map_map]
  rfl

/-- Identities do not matter to it. -/
theorem Forest.sameBeside_congr {k : Nat} {old old' new new' : List Node}
    (hold : old.map Node.anonymous = old'.map Node.anonymous)
    (hnew : new.map Node.anonymous = new'.map Node.anonymous) :
    SameBeside k old new ↔ SameBeside k old' new' := by
  have hbare : ∀ {ns ms : List Node}, ns.map Node.anonymous = ms.map Node.anonymous → ∀ j : Nat,
      ns[j]?.map Node.bare = ms[j]?.map Node.bare := by
    intro ns ms h j
    rw [← List.getElem?_map, ← List.getElem?_map, map_eq_of_anonymous Node.bare_anonymous h]
  have htext : ∀ {ns ms : List Node}, ns.map Node.anonymous = ms.map Node.anonymous →
      ns[k]?.map (fun n => n.comment.map Comment.text) = ms[k]?.map fun n => n.comment.map Comment.text := by
    intro ns ms h
    rw [← List.getElem?_map, ← List.getElem?_map, map_eq_of_anonymous Node.comment_text_anonymous h]
  constructor
  · intro h
    refine ⟨fun j hj => ?_, ?_⟩
    · rw [← hbare hnew, h.beside j hj, hbare hold]
    · rw [← htext hnew, h.comment, htext hold]
  · intro h
    refine ⟨fun j hj => ?_, ?_⟩
    · rw [hbare hnew, h.beside j hj, hbare hold]
    · rw [htext hnew, h.comment, htext hold]

namespace Element

theorem leftOver_beyond (p : Pos) (es : List Element) :
    leftOver (es.map (beyond p)) = (leftOver es).map (Note.beyond p) := by
  by_cases h : nodes es = []
  · rw [leftOver, leftOver, if_pos h, if_pos (by rw [nodes_beyond, h]; rfl), walk_beyond]
    rfl
  · rw [leftOver, leftOver, if_neg h, if_neg (by rwa [nodes_beyond, List.map_eq_nil_iff])]
    rfl

/-- Where another list has been put in place of one, everything behind it is as far from its end as before.
So the expressions of the row stay what they were, and the new list gets the comments of the old one. -/
theorem attach_exchange {p q q' : Pos} {fore gs : List Element} {n n' : Node} (hn : n.comment = none)
    (hn' : n'.comment = none) (hrow : Rowed p (fore ++ expr n :: gs.map (beyond n.span.stop)) q)
    (hrow' : Rowed p (fore ++ expr n' :: gs.map (beyond n'.span.stop)) q') :
    Forest.SameBeside (nodes fore).length (attach (fore ++ expr n :: gs.map (beyond n.span.stop)))
      (attach (fore ++ expr n' :: gs.map (beyond n'.span.stop))) := by
  obtain ⟨ts, hs, rfl, hts, hhs⟩ := exists_line gs
  have hmoved : ∀ r : Pos,
      (ts.map note ++ hs).map (beyond r) = (ts.map (Note.beyond r)).map note ++ hs.map (beyond r) := by
    intro r
    rw [List.map_append, List.map_map, List.map_map]
    rfl
  have hline : ∀ r : Pos, ∀ t ∈ ts.map (Note.beyond r), t.span.start.line = r.line := by
    intro r t ht
    obtain ⟨u, hu, rfl⟩ := List.mem_map.1 ht
    show r.line + u.span.start.line = r.line
    rw [hts u hu, Nat.add_zero]
  rw [hmoved] at hrow hrow' ⊢
  rw [hmoved]
  obtain ⟨m, hattach, hbears⟩ := attach_around hn hrow (hline _) ((afresh_beyond_iff _ _).2 hhs)
  obtain ⟨m', hattach', hbears'⟩ := attach_around hn' hrow' (hline _) ((afresh_beyond_iff _ _).2 hhs)
  rw [hattach, hattach']
  have hlength : (fore.foldl Walk.step ⟨[], []⟩).done.reverse.length = (nodes fore).length := by
    rw [List.length_reverse, length_done]
  have htexts : ∀ r : Pos, ((fore.foldl Walk.step ⟨[], []⟩).waiting ++ ts.map (Note.beyond r) ++
      leftOver (hs.map (beyond r))).map Note.text =
        ((fore.foldl Walk.step ⟨[], []⟩).waiting ++ ts ++ leftOver hs).map Note.text := by
    intro r
    simp only [leftOver_beyond, List.map_append, List.map_map]
    rfl
  have htext : m'.comment.map Comment.text = m.comment.map Comment.text := by
    rw [hbears.text_eq, hbears'.text_eq, htexts, htexts]
  have hbare : ∀ r : Pos, (attach (hs.map (beyond r))).map Node.bare = (attach hs).map Node.bare := by
    intro r
    rw [attach_beyond, List.map_map]
    exact congrArg (List.map · _) (funext (Node.bare_beyond r))
  rw [← hlength]
  generalize (fore.foldl Walk.step ⟨[], []⟩).done.reverse = front
  constructor
  · intro j hj
    rcases Nat.lt_or_gt_of_ne hj with hlt | hgt
    · rw [List.getElem?_append_left hlt, List.getElem?_append_left hlt]
    · obtain ⟨i, hi⟩ : ∃ i, j - front.length = i + 1 := ⟨j - front.length - 1, by omega⟩
      rw [List.getElem?_append_right hgt.le, List.getElem?_append_right hgt.le, hi, List.getElem?_cons_succ,
        List.getElem?_cons_succ, ← List.getElem?_map, ← List.getElem?_map, hbare, hbare]
  · simpa using htext

theorem exists_split {es : List Element} {k : Nat} {n : Node} (h : (nodes es)[k]? = some n) :
    ∃ fore aft, es = fore ++ expr n :: aft ∧ (nodes fore).length = k := by
  induction es generalizing k with
  | nil => cases h
  | cons e es ih =>
      cases e with
      | note t =>
          obtain ⟨fore, aft, rfl, hcount⟩ := ih h
          exact ⟨note t :: fore, aft, rfl, hcount⟩
      | expr m =>
          cases k with
          | zero =>
              obtain rfl : m = n := Option.some.inj h
              exact ⟨[], es, rfl, rfl⟩
          | succ k =>
              obtain ⟨fore, aft, rfl, hcount⟩ := ih h
              exact ⟨expr m :: fore, aft, rfl, congrArg Nat.succ hcount⟩

end Element

/-! ## Documents -/

theorem Lexeme.Balanced.exists_parses {ls : List Lexeme} (h : Balanced ls) (p : Pos) : ∃ es, Parses p ls es := by
  obtain ⟨es, hes⟩ := (exists_elements_iff [] p []).2 (h [])
  exact ⟨es, parses_of_ok hes⟩

/-- A text taken apart at a root that is a list: what stands before the list, what stands in its brackets, and
what stands behind it can be read. -/
structure Framed (ls : List Lexeme) (es : List Element) (k : Nat) (x : List Lexeme) (b : Bracket)
    (core y : List Lexeme) (fore items aft : List Element) : Prop where
  split : ls = x ++ .opening b :: (core ++ .closing b :: y)
  left : Parses .zero x fore
  inside : Parses ((Pos.zero.advanceOver (text x)).advance b.opener) core items
  right : Parses ((Pos.zero.advanceOver (text x)).advanceOver (text (.opening b :: (core ++ [.closing b])))) y aft
  elements : es = fore ++ .expr (.make (recognise (Element.attach items)) ⟨Pos.zero.advanceOver (text x),
    (Pos.zero.advanceOver (text x)).advanceOver (text (.opening b :: (core ++ [.closing b])))⟩) :: aft
  count : (Element.nodes fore).length = k

theorem exists_framed {ls : List Lexeme} {es : List Element} (h : Parses .zero ls es) {k : Nat} {m : Node}
    (hm : (Element.attach es)[k]? = some m) (hlist : m.kind.isList) :
    ∃ x b core y fore items aft, Framed ls es k x b core y fore items aft := by
  obtain ⟨n, hn, hspan, hshape⟩ := forall₂_getElem? (Element.attach_sameShape es).flip hm
  obtain ⟨fore, aft, rfl, hcount⟩ := Element.exists_split hn
  obtain ⟨x, own, rfl, hleft, hown, hhead⟩ := h.divide rfl
  obtain ⟨inner, hinner⟩ := Kind.shape_of_isList hlist
  generalize hp : Pos.zero.advanceOver (text x) = p at hown
  cases hown with
  | blank c _ => exact absurd rfl (hhead _ rfl c)
  | @word _ l t ls es hkind htoken hrest =>
      rw [hinner, shape_leaf] at hshape
      simp [inBrackets] at hshape
  | @list _ q b core y items _ hq hitems hrest =>
      subst hp hq
      exact ⟨x, b, core, y, fore, items, aft, rfl, hleft, hitems, hrest, rfl, hcount⟩

/-- A list put in place of a root that is a list: the other roots stay what they are. -/
theorem Framed.reads_exchanged {ls x core y : List Lexeme} {es fore items aft : List Element} {k : Nat} {b : Bracket}
    (h : Framed ls es k x b core y fore items aft) (hrun : Run ls) {b' : Bracket} {core' : List Lexeme}
    (hcore : Balanced core') (hrun' : Run (x ++ .opening b' :: (core' ++ .closing b' :: y))) :
    ∃ es', Parses .zero (x ++ .opening b' :: (core' ++ .closing b' :: y)) es' ∧
      Forest.SameBeside k (Element.attach es) (Element.attach es') := by
  obtain ⟨items', hitems'⟩ := hcore.exists_parses ((Pos.zero.advanceOver (text x)).advance b'.opener)
  obtain ⟨gs, hgs, rfl⟩ := h.right.of_beyond (Pos.beyond_zero _).symm
  obtain ⟨hsplit, hleft, hinside, hright, helements, hcount⟩ := h
  have hold : Parses .zero ls es := by
    rw [hsplit, helements]
    exact hleft.append (.list b rfl hinside hright)
  have hnew := hleft.append (.list b' rfl hitems' (hgs.beyond _))
  refine ⟨_, hnew, ?_⟩
  rw [← hcount, helements]
  have hrow := hold.rowed hrun.ok
  rw [helements] at hrow
  exact Element.attach_exchange rfl rfl hrow (hnew.rowed hrun'.ok)

end TreeEdit
