import TreeEdit.Proofs.TreeComments
import TreeEdit.Proofs.Exchange

/-!
# Text written over a stretch inside a root

The range of a node can cover brackets that are not its own, because the comment of a list of bindings
belongs to the first of them. So what is written over a range need not leave the brackets around it closed.
But if the text can still be read as a whole, then the root around the range is still a list between the same
brackets: `Framed.reads_inside`. As many brackets are open behind the range as were before.
-/

namespace TreeEdit

open Reader Lexeme

/-! ## Brackets that are open -/

namespace Lexeme

/-- How many brackets a text opens or closes does not depend on those that are open before it. -/
theorem length_openAfter {ls : List Lexeme} {s s' r r' : List Bracket} (h : openAfter ls s = some r)
    (h' : openAfter ls s' = some r') : r.length + s'.length = r'.length + s.length := by
  induction ls generalizing s s' with
  | nil =>
      cases h
      cases h'
      exact Nat.add_comm _ _
  | cons l ls ih =>
      cases l with
      | opening b =>
          have hlength : r.length + (b :: s').length = r'.length + (b :: s).length := ih h h'
          simp only [List.length_cons] at hlength
          omega
      -- The two runs close a bracket each, so both had one open.
      | closing b =>
          cases s with
          | nil => cases h
          | cons c s =>
              cases s' with
              | nil => cases h'
              | cons c' s' =>
                  rw [openAfter] at h h'
                  split at h
                  · split at h'
                    · have hlength := ih h h'
                      simp only [List.length_cons]
                      omega
                    · cases h'
                  · cases h
      | _ => exact ih h h'

/-- A text that leaves brackets further out alone with some brackets open leaves them alone with as many
others open, if these match. -/
theorem openAfter_of_length {ls : List Lexeme} {s s' outer w r' : List Bracket} (h' : openAfter ls s' = some r')
    (hlength : s.length = s'.length) (h : openAfter ls (s ++ outer) = some w) : ∃ r, openAfter ls s = some r := by
  induction ls generalizing s s' with
  | nil => exact ⟨s, rfl⟩
  | cons l ls ih =>
      cases l with
      | opening b =>
          have hmore : (b :: s).length = (b :: s').length := congrArg Nat.succ hlength
          exact ih h' hmore h
      | closing b =>
          cases s' with
          | nil => cases h'
          | cons c' s' =>
              cases s with
              | nil => cases hlength
              | cons c s =>
                  rw [List.cons_append, openAfter] at h
                  rw [openAfter] at h' ⊢
                  split at h
                  · rename_i hc
                    split at h'
                    · rw [if_pos hc]
                      exact ih h' (Nat.succ.inj hlength) h
                    · cases h'
                  · cases h
      | _ => exact ih h' hlength h

/-- A stretch of a list in brackets is written over by text that closes its brackets. If the whole text closes
its brackets, then so does what now stands in the list. -/
theorem balanced_inside {x y u ms v w z w' : List Lexeme} {b : Bracket} (hx : Balanced x) (hy : Balanced y)
    (hstart : Balanced (u ++ w)) (hstop : Balanced (z ++ w')) (hms : Balanced ms)
    (hsame : ∀ opened, openAfter v opened = openAfter w' opened)
    (hwhole : Balanced (x ++ .opening b :: ((u ++ (ms ++ v)) ++ .closing b :: y))) : Balanced (u ++ (ms ++ v)) := by
  obtain ⟨s, hs, -⟩ := Option.bind_eq_some_iff.1 (openAfter_append u w [] ▸ hstart [])
  obtain ⟨s', -, hs'⟩ := Option.bind_eq_some_iff.1 (openAfter_append z w' [] ▸ hstop [])
  have hu : openAfter u [b] = some (s ++ [b]) := openAfter_append_right hs [b]
  have hinner : openAfter (u ++ (ms ++ v)) [b] = openAfter v (s ++ [b]) := by
    rw [openAfter_append, hu, Option.bind_some, openAfter_append, hms, Option.bind_some]
  have hopened : openAfter ((u ++ (ms ++ v)) ++ .closing b :: y) [b] = some [] := by
    have hall := hwhole []
    rwa [openAfter_append, hx, Option.bind_some] at hall
  rw [openAfter_append, hinner] at hopened
  obtain ⟨open', hv, hclose⟩ := Option.bind_eq_some_iff.1 hopened
  -- Behind the stretch only the bracket of the list is open, so as many are open there as were before.
  obtain rfl : open' = [b] := by
    cases open' with
    | nil => cases hclose
    | cons c rest =>
        rw [openAfter] at hclose
        split at hclose
        · rename_i hc
          rw [hy] at hclose
          cases hclose
          rw [hc]
        · cases hclose
  -- The end of the stretch was read before with as many brackets open, and it left none.
  rw [hsame] at hv
  have hdepth := length_openAfter hv hs'
  have hlength : s.length = s'.length := by simpa [Nat.add_comm] using hdepth.symm
  obtain ⟨r, hr⟩ := openAfter_of_length hs' hlength hv
  have hr0 := length_openAfter hr hs'
  obtain rfl : r = [] := List.length_eq_zero_iff.1 (by simp only [List.length_nil] at hr0; omega)
  rw [balanced_iff, openAfter_append, hs, Option.bind_some, openAfter_append, hms, Option.bind_some, hsame, hr]

end Lexeme

/-! ## Where a range starts and stops -/

section Range

variable {p : Pos} {ls x own y : List Lexeme} {n : Node} (hls : ls = x ++ (own ++ y))
  (hown : Spans (p.advanceOver (text x)) own n) (hends : ∀ c ∈ n.comment, c.span.EndsIn (tokens p ls))

include hls hown hends

/-- The range of a node starts between two lexemes, and not behind a comment. -/
theorem exists_range_start (hrun : Run ls) :
    ∃ u w, ls = u ++ w ∧ n.range.start = p.advanceOver (text u) ∧ Closed u := by
  have hclosed : ∀ {u w : List Lexeme} {l : Lexeme}, ls = u ++ l :: w → (∀ c, l ≠ .blank c) → Closed u := by
    rintro u w l rfl hl m hm body rfl
    have hmeets : Meets (.comment body) l := (List.isChain_append.1 hrun.meets).2.2 _ hm l rfl
    exact hl _ hmeets
  rcases n.range_start_eq_or with hstart | ⟨c, hc, hstart⟩
  · cases hown with
    | intro hspan _ htight _ =>
        obtain ⟨⟨l, hl, hsign⟩, -⟩ := htight
        obtain ⟨rest, rfl⟩ := List.head?_eq_some_iff.1 hl
        refine ⟨x, _, hls, by rw [hstart, hspan], hclosed (hls.trans rfl) ?_⟩
        rintro c rfl
        exact hsign rfl
  · obtain ⟨⟨t, ht, hkind, heq⟩, -⟩ := hends c hc
    obtain ⟨u, l, w, hsplit, htoken⟩ := mem_tokens_iff.1 ht
    refine ⟨u, l :: w, hsplit, ?_, hclosed hsplit ?_⟩
    · rw [hstart, ← heq]
      exact (token?_span (hrun.ok l (by simp [hsplit])) htoken).1
    · rintro c rfl
      cases htoken

/-- The range of a node stops behind a lexeme or before the blanks at the end of a comment. -/
theorem exists_range_stop {tail : List Lexeme} (hrun : Run (ls ++ tail)) :
    ∃ z w covered v, ls = z ++ w ∧ text ls = covered ++ text v ∧ n.range.stop = p.advanceOver covered ∧
      Run (v ++ tail) ∧ ∀ opened, openAfter v opened = openAfter w opened := by
  rcases n.range_stop_eq_or with hstop | ⟨c, hc, hstop⟩
  · cases hown with
    | intro hspan _ _ _ =>
        refine ⟨x ++ own, y, text (x ++ own), y, by rw [hls, List.append_assoc], ?_, ?_, ?_, fun _ => rfl⟩
        · rw [hls, ← List.append_assoc, text_append]
        · rw [hstop, hspan, text_append, Pos.advanceOver_append]
        · rw [hls, ← List.append_assoc, List.append_assoc (x ++ own)] at hrun
          exact hrun.right
  · obtain ⟨-, t, ht, hkind, heq⟩ := hends c hc
    obtain ⟨z, l, w, hsplit, htoken⟩ := mem_tokens_iff.1 ht
    obtain ⟨body, rfl, hbody⟩ := eq_comment htoken hkind
    obtain ⟨cs, hcs, hblank⟩ := comment_eq_append body
    refine ⟨z ++ [.comment body], w, text z ++ dropBlanksEnd (';' :: body), blanks cs ++ w, by simp [hsplit], ?_, ?_,
      ?_, fun opened => openAfter_silent_append sign?_of_mem_blanks w opened⟩
    · rw [hsplit, text_append, text_cons, text_append, text_blanks, chars]
      nth_rewrite 1 [hcs]
      simp
    · rw [hstop, ← heq, hbody, noteAt, Pos.advanceOver_append]
    · rw [hsplit, List.append_assoc, List.cons_append] at hrun
      rw [List.append_assoc]
      exact (hrun.right.tail).blanks_append hblank

end Range

/-- What stands within a list stands between its brackets. -/
theorem Spans.between {p : Pos} {b : Bracket} {core : List Lexeme} {n m : Node}
    (h : Spans p (.opening b :: (core ++ [.closing b])) n) (hlist : n.Bracketed) (hm : n.Within m) (hne : m ≠ n) :
    ∃ x own y, core = x ++ (own ++ y) ∧ Spans ((p.advance b.opener).advanceOver (text x)) own m := by
  obtain ⟨b', b'', core', inner, hcore, hshape, hfills⟩ := h.brackets hlist
  obtain ⟨rfl, -⟩ := List.append_inj' (List.cons.inj hcore).2 rfl
  cases hm with
  | self => exact absurd rfl hne
  | @part _ l _ hl hwithin =>
      have hpart : .inr l ∈ inner := by
        have hmem := Kind.mem_shape.2 hl
        rw [hshape] at hmem
        simpa [inBrackets] using hmem
      obtain ⟨x, own, y, rfl, hown⟩ := hfills.locate hpart
      obtain ⟨x', own', y', rfl, hown'⟩ := hown.within hwithin
      refine ⟨x ++ x', own', y' ++ y, by simp, ?_⟩
      rwa [Pos.advance_opener, text_append, Pos.advanceOver_append]

namespace Framed

variable {ls x core y : List Lexeme} {es fore items aft : List Element} {k : Nat} {b : Bracket}
  (h : Framed ls es k x b core y fore items aft)

include h

theorem nodes_eq : (Element.nodes es)[k]? = some (.make (recognise (Element.attach items))
    ⟨Pos.zero.advanceOver (text x),
      (Pos.zero.advanceOver (text x)).advanceOver (text (.opening b :: (core ++ [.closing b])))⟩) := by
  rw [h.elements, Element.nodes_append, ← h.count, List.getElem?_append_right (le_refl _), Nat.sub_self]
  rfl

variable {m : Node} (hm : (Element.attach es)[k]? = some m)

include hm

/-- The root stands in the text from bracket to bracket. -/
theorem spans : Spans (Pos.zero.advanceOver (text x)) (.opening b :: (core ++ [.closing b])) m := by
  obtain ⟨n, hn, hshape⟩ := forall₂_getElem? (Element.attach_sameShape es).flip hm
  cases h.nodes_eq.symm.trans hn
  cases spans_list rfl h.inside.balanced h.inside.fills with
  | intro hspan hfills htight hbalanced =>
      exact .intro (hshape.1.trans hspan) (hshape.2 ▸ hfills) htight hbalanced

/-- The comments of the nodes in the root stand between its brackets. -/
theorem comments_between (hrun : Run ls) : ∀ l ∈ m.children, ∀ n ∈ l.walk, ∀ c ∈ n.comment,
    c.span.EndsIn (tokens ((Pos.zero.advanceOver (text x)).advance b.opener) core) := by
  have hkind : m.kind = recognise (Element.attach items) := by
    have hkinds := congrArg (·[k]?) (Element.map_kind_attach es)
    simp only [List.getElem?_map, hm, h.nodes_eq] at hkinds
    exact Option.some.inj hkinds
  have hok : ∀ l ∈ core, l.Ok := fun l hl => hrun.ok l (by simp [h.split, hl])
  obtain ⟨hexpr, hnote⟩ := h.inside.tidy hok fun _ ht => ht
  intro l hl n hn
  rw [Node.children, hkind] at hl
  exact ((inherited_tidy _).children (attach_tidy hexpr hnote) l hl n hn).ends

end Framed

/-- The two parts of a text at a position. -/
theorem append_inj_of_advanceOver {a b c d : List Char} (h : a ++ b = c ++ d)
    (hpos : Pos.zero.advanceOver a = Pos.zero.advanceOver c) : a = c ∧ b = d := by
  have hcut := cut?_of_append a b
  rw [h, hpos, cut?_of_append] at hcut
  cases hcut
  exact ⟨rfl, rfl⟩

/-- Text is written over the range of a node inside a root. If the new text can be read, the other roots stay
what they are, and so does the comment of the root around the node. -/
theorem Framed.reads_inside {ls x core y : List Lexeme} {es fore items aft : List Element} {k : Nat} {b : Bracket}
    (h : Framed ls es k x b core y fore items aft) (hrun : Run ls) {n : Node} {x' own y' : List Lexeme}
    (hcore : core = x' ++ (own ++ y'))
    (hown : Spans (((Pos.zero.advanceOver (text x)).advance b.opener).advanceOver (text x')) own n)
    (hends : ∀ c ∈ n.comment, c.span.EndsIn (tokens ((Pos.zero.advanceOver (text x)).advance b.opener) core))
    {source : String} (hsource : text ls = source.toList) {before covered after : List Char}
    (haround : around source n.range = .ok (before, covered, after)) {ms : List Lexeme} {ss : List Sign}
    (hms : Prints ms ss) {reread : List Node}
    (hread : readDocument (String.ofList (before ++ (text ms ++ after))) = .ok reread) :
    Forest.SameBeside k (Element.attach es) reread := by
  have hrunls := hrun
  rw [h.split] at hrunls hsource
  have hruncore : Run (core ++ .closing b :: y) := hrunls.right.tail
  obtain ⟨u, w, hu, hstart, hclosed⟩ := exists_range_start hcore hown hends hruncore.left
  obtain ⟨z, w', covered', v, hz, htext, hstop, hrunv, hopen⟩ := exists_range_stop hcore hown hends hruncore
  obtain ⟨hsplit, hbefore, hbehind⟩ := around_eq_ok_iff.1 haround
  -- The ends of the range fall on ends of lexemes, or on the end of a comment without its blanks.
  obtain ⟨rfl, -⟩ : before = text (x ++ .opening b :: u) ∧ covered ++ after = text (w ++ .closing b :: y) := by
    refine append_inj_of_advanceOver ?_ ?_
    · rw [← List.append_assoc, hsplit, ← hsource, hu]
      simp
    · rw [hbefore, hstart, text_append, text_cons, Pos.advanceOver_append, Pos.advanceOver_append]
      rfl
  obtain ⟨-, rfl⟩ : text (x ++ .opening b :: u) ++ covered = text (x ++ [.opening b]) ++ covered' ∧
      after = text (v ++ .closing b :: y) := by
    refine append_inj_of_advanceOver ?_ ?_
    · rw [hsplit, ← hsource, text_append, text_cons, text_append, htext]
      simp
    · rw [hbehind, hstop, Pos.advanceOver_append, text_append, Pos.advanceOver_append]
      rfl
  have hfront : Run (x ++ .opening b :: u) := by
    have hsplit : x ++ .opening b :: (core ++ .closing b :: y) =
        (x ++ .opening b :: u) ++ (w ++ .closing b :: y) := by simp [hu]
    rw [hsplit] at hrunls
    exact hrunls.left
  have hopening : Closed (.opening b :: u) := (closed_singleton (by simp)).append hclosed
  have hrun' : Run ((x ++ .opening b :: u) ++ (ms ++ (v ++ .closing b :: y))) := by
    refine hfront.append (hms.run.append hrunv fun l hl m _ => hms.meets_right m l hl) ?_
    intro l hl m hm
    rw [List.getLast?_append_cons] at hl
    rw [List.head?_append_of_ne_nil _ hms.ne_nil] at hm
    exact hms.meets_left (hopening l hl) m hm
  have hwhole : (x ++ .opening b :: u) ++ (ms ++ (v ++ .closing b :: y)) =
      x ++ .opening b :: ((u ++ (ms ++ v)) ++ .closing b :: y) := by simp
  rw [← text_append, ← text_append, hwhole] at hread
  rw [hwhole] at hrun'
  -- The new text is read, so it closes its brackets, and so does what stands in the root.
  obtain ⟨ls', es', hrun'', htext', helements, -⟩ := readDocument_eq_ok_iff.1 hread
  have htokens : tokens .zero ls' = tokens .zero (x ++ .opening b :: ((u ++ (ms ++ v)) ++ .closing b :: y)) := by
    have hscan := tokensFrom_run hrun'' .zero
    rw [htext', String.toList_ofList, tokensFrom_run hrun'] at hscan
    exact (Except.ok.inj hscan).symm
  rw [htokens] at helements
  have hbalanced := balanced_inside h.left.balanced h.right.balanced (hu ▸ h.inside.balanced) (hz ▸ h.inside.balanced)
    hms.balanced hopen (balanced_iff.2 ((exists_elements_iff [] .zero []).1 ⟨es', helements⟩))
  obtain ⟨es'', hparses, hsame⟩ := h.reads_exchanged hrun hbalanced hrun'
  rw [readDocument_of_parses hrun' hparses] at hread
  cases hread
  exact hsame

end TreeEdit
