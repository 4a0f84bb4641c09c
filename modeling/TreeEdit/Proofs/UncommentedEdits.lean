import TreeEdit.Proofs.Descent
import TreeEdit.Proofs.Neighbours

/-!
# No comment comes from nowhere

The ink of a text is the number of its characters that are not blank. However a document is broken into lines
and wherever the lines are shifted to, only blanks are added, so a layout has one ink at every width. The signs
of a text have an ink of their own, and it is that of the text exactly if there is no comment in it
(`Lexeme.ink_text`): the ink of a comment belongs to no sign.

So it can be counted that an edit which puts a text without comments into a document without comments leaves a
document without comments (`Session.perform_uncommented`).
-/

namespace TreeEdit

open Edit Reader Lexeme

/-! ## Ink of texts and of signs -/

/-- The number of characters that are not blank. -/
def ink (cs : List Char) : Nat := cs.countP fun c => !isBlank c

@[simp] theorem ink_nil : ink [] = 0 := rfl

@[simp] theorem ink_append (a b : List Char) : ink (a ++ b) = ink a + ink b := List.countP_append

theorem ink_cons (c : Char) (cs : List Char) : ink (c :: cs) = ink [c] + ink cs := ink_append [c] cs

theorem ink_blanks {cs : List Char} (h : ∀ c ∈ cs, isBlank c = true) : ink cs = 0 :=
  List.countP_eq_zero.2 fun c hc => by simp [h c hc]

/-- The ink that a sign takes. -/
def Sign.ink : Sign → Nat
  | .opening | .closing => 1
  | .word w => TreeEdit.ink w.toList

/-- The ink that signs take. -/
def inkOf (ss : List Sign) : Nat := (ss.map Sign.ink).sum

@[simp] theorem inkOf_nil : inkOf [] = 0 := rfl

@[simp] theorem inkOf_cons (s : Sign) (ss : List Sign) : inkOf (s :: ss) = s.ink + inkOf ss := by
  simp [inkOf]

@[simp] theorem inkOf_append (a b : List Sign) : inkOf (a ++ b) = inkOf a + inkOf b := by
  simp [inkOf]

theorem inkOf_flatMap {β : Type} (f : β → List Sign) (xs : List β) :
    inkOf (xs.flatMap f) = (xs.map fun x => inkOf (f x)).sum := by
  induction xs with
  | nil => rfl
  | cons x xs ih => rw [List.flatMap_cons, inkOf_append, ih, List.map_cons, List.sum_cons]

namespace Lexeme

theorem ink_chars {l : Lexeme} (hl : l.Ok) :
    inkOf l.sign?.toList ≤ ink l.chars ∧ (ink l.chars = inkOf l.sign?.toList ↔ ∀ body, l ≠ comment body) := by
  cases l with
  | blank c =>
      have hc : ink [c] = 0 := ink_blanks (List.forall_mem_singleton.2 hl)
      simp [sign?, chars, hc]
  | opening b => cases b <;> simp [sign?, chars, Sign.ink, ink, Bracket.opener, isBlank]
  | closing b => cases b <;> simp [sign?, chars, Sign.ink, ink, Bracket.closer, isBlank]
  | atom cs => simp [sign?, chars, Sign.ink]
  | string body => simp [sign?, chars, Sign.ink]
  | comment body =>
      have hsemi : ink [';'] = 1 := by decide
      rw [chars, ink_cons, hsemi]
      simp [sign?]

/-- The ink of a text is that of its signs exactly if there is no comment in it. -/
theorem ink_text {ls : List Lexeme} (hok : ∀ l ∈ ls, l.Ok) :
    inkOf (signs ls) ≤ ink (text ls) ∧ (ink (text ls) = inkOf (signs ls) ↔ ∀ l ∈ ls, ∀ body, l ≠ comment body) := by
  induction ls with
  | nil => simp
  | cons l ls ih =>
      obtain ⟨hl, hls⟩ := List.forall_mem_cons.1 hok
      obtain ⟨hle, heq⟩ := ink_chars hl
      obtain ⟨hle', heq'⟩ := ih hls
      -- Neither part can make up for the ink that a comment takes in the other.
      rw [signs_cons, text_cons, inkOf_append, ink_append, List.forall_mem_cons, ← heq, ← heq']
      omega

theorem comment_token_iff {p : Pos} {ls : List Lexeme} :
    (∀ t ∈ tokens p ls, t.kind ≠ .comment) ↔ ∀ l ∈ ls, ∀ body, l ≠ comment body := by
  constructor
  · rintro h _ hl body rfl
    obtain ⟨x, y, rfl⟩ := List.append_of_mem hl
    exact h _ (mem_tokens_of_token? rfl) rfl
  · intro h t ht hkind
    obtain ⟨l, hl, q, hq⟩ := mem_tokens ht
    obtain ⟨body, rfl, -⟩ := eq_comment hq hkind
    exact h _ hl body rfl

end Lexeme

/-- A text that can be scanned, and without comments. -/
def Plain (text : String) : Prop := ∃ ts, tokenize text = .ok ts ∧ ∀ t ∈ ts, t.kind ≠ .comment

theorem plain_iff {text : String} {ts : List Token} (h : tokenize text = .ok ts) :
    Plain text ↔ ink text.toList = inkOf (ts.filterMap Token.sign?) := by
  obtain ⟨ls, hrun, htext, rfl⟩ := exists_run h
  rw [filterMap_sign?_tokens, ← htext, (ink_text hrun.ok).2, ← comment_token_iff (p := .zero)]
  constructor
  · rintro ⟨ts, hts, hplain⟩
    cases h.symm.trans hts
    exact hplain
  · exact fun hplain => ⟨_, h, hplain⟩

/-! ## Ink of layouts -/

namespace Doc

/-- The ink of a document, however it is set. -/
def ink : Doc → Nat
  | nil | line | hardLine => 0
  | text s => TreeEdit.ink s.toList
  | append a b => a.ink + b.ink
  | nest _ d => d.ink
  | group d => d.ink

theorem Sets.ink_eq {flat : Bool} {d : Doc} {cs : List Char} (h : Sets flat d cs) : TreeEdit.ink cs = d.ink := by
  induction h with
  | nil => rfl
  | text s => rfl
  | flatLine => rfl
  | brokenLine indent => exact ink_blanks (isBlank_freshLine indent)
  | hardLine indent => exact ink_blanks (isBlank_freshLine indent)
  | append _ _ iha ihb => rw [ink_append, iha, ihb, ink]
  | nest indent _ ih => exact ih
  | flatGroup _ ih => exact ih
  | brokenGroup _ ih => exact ih

theorem ink_concat (docs : List Doc) : (concat docs).ink = (docs.map ink).sum := by
  induction docs with
  | nil => rfl
  | cons d docs ih => rw [List.map_cons, List.sum_cons, ← ih]; rfl

theorem ink_broken (docs : List Doc) : (Layout.broken docs).ink = (docs.map ink).sum := by
  rw [Layout.broken, ink_concat]
  induction docs with
  | nil => rfl
  | cons d docs ih => simp [ih, ink]

theorem ink_join (docs : List Doc) : (join docs line).ink = (docs.map ink).sum := by
  cases docs with
  | nil => rfl
  | cons d docs =>
      rw [join_cons, ink]
      exact congrArg (d.ink + ·) (ink_broken docs)

theorem ink_application (head : Doc) (items : List Doc) :
    (Layout.application head items).ink = 2 + (head.ink + (items.map ink).sum) := by
  have hopener : TreeEdit.ink "(".toList = 1 := by decide
  have hcloser : TreeEdit.ink ")".toList = 1 := by decide
  simp only [Layout.application, ink, ink_concat, ink_broken, List.map_cons, List.map_nil, List.sum_cons, List.sum_nil,
    hopener, hcloser]
  omega

theorem ink_form (keyword : String) (items : List Doc) :
    (Layout.form keyword items).ink = 2 + (TreeEdit.ink keyword.toList + (items.map ink).sum) := by
  have hopener : TreeEdit.ink "(".toList = 1 := by decide
  have hcloser : TreeEdit.ink ")".toList = 1 := by decide
  have hspace : TreeEdit.ink " ".toList = 0 := by decide
  cases items with
  | nil => exact ink_application (text keyword) []
  | cons first rest =>
      simp only [Layout.form, ink, ink_concat, ink_broken, List.map_cons, List.map_nil, List.sum_cons, List.sum_nil,
        hopener, hcloser, hspace]
      omega

theorem ink_bracketed {opener closer : String} (hopener : TreeEdit.ink opener.toList = 1)
    (hcloser : TreeEdit.ink closer.toList = 1) (items : List Doc) :
    (Layout.bracketed opener closer items).ink = 2 + (items.map ink).sum := by
  simp only [Layout.bracketed, ink, ink_concat, ink_join, List.map_cons, List.map_nil, List.sum_cons, List.sum_nil,
    hopener, hcloser]
  omega

theorem ink_round (items : List Doc) : (Layout.round items).ink = 2 + (items.map ink).sum :=
  ink_bracketed (by decide) (by decide) items

theorem ink_square (items : List Doc) : (Layout.square items).ink = 2 + (items.map ink).sum :=
  ink_bracketed (by decide) (by decide) items

end Doc

/-- Shifting lines adds blanks only. -/
theorem ink_shift (column : Nat) (ends : List Char → Bool) (cs : List Char) : ink (shift column ends cs) = ink cs := by
  induction cs generalizing ends with
  | nil => rw [shift_nil]
  | cons c cs ih =>
      by_cases hc : c = '\n'
      · subst hc
        have hmargin : ink (margin column (ends []) cs) = 0 := ink_blanks isBlank_of_mem_margin
        rw [shift_newline, ink_cons, ink_append, hmargin, ih, ink_cons '\n' cs, Nat.zero_add]
      · rw [shift_cons hc, ink_cons, ih, ink_cons c cs]

theorem ink_hangingIndent (s : String) (column : Nat) : ink (hangingIndent s column).toList = ink s.toList := by
  by_cases h : column = 0
  · rw [hangingIndent, if_pos h]
  · rw [toList_hangingIndent s h, ink_shift]

/-! ## Ink of nodes -/

/-- A text that was put in has no comments. -/
def Kind.PlainText {α : Type} : Kind α → Prop
  | .pasted text => Plain text
  | _ => True

section Patterns

variable {β : Type} (f : β → Nat)

/-- The ink of a pattern, from the ink of its parts. -/
def patternInk (pattern : List (Sign ⊕ β)) : Nat := (pattern.map (Sum.elim Sign.ink f)).sum

@[simp] theorem patternInk_nil : patternInk f [] = 0 := rfl

@[simp] theorem patternInk_inl (s : Sign) (pattern : List (Sign ⊕ β)) :
    patternInk f (.inl s :: pattern) = s.ink + patternInk f pattern := by
  simp [patternInk]

@[simp] theorem patternInk_inr (x : β) (pattern : List (Sign ⊕ β)) :
    patternInk f (.inr x :: pattern) = f x + patternInk f pattern := by
  simp [patternInk]

@[simp] theorem patternInk_append (a b : List (Sign ⊕ β)) :
    patternInk f (a ++ b) = patternInk f a + patternInk f b := by
  simp [patternInk]

@[simp] theorem patternInk_signs (ss : List Sign) : patternInk f (ss.map .inl) = inkOf ss := by
  rw [patternInk, List.map_map]
  rfl

@[simp] theorem patternInk_parts (xs : List β) : patternInk f (xs.map .inr) = (xs.map f).sum := by
  rw [patternInk, List.map_map]
  rfl

@[simp] theorem patternInk_inBrackets (inner : List (Sign ⊕ β)) :
    patternInk f (inBrackets inner) = 2 + patternInk f inner := by
  simp only [inBrackets, patternInk_inl, patternInk_append, patternInk_nil, Sign.ink]
  omega

@[simp] theorem patternInk_inForm (keyword : String) (inner : List (Sign ⊕ β)) :
    patternInk f (inForm keyword inner) = 2 + (ink keyword.toList + patternInk f inner) := by
  rw [inForm, patternInk_inBrackets, patternInk_inl, Sign.ink]

theorem inkOf_fill (signs : β → List Sign) (pattern : List (Sign ⊕ β)) :
    inkOf (fill signs pattern) = patternInk (fun x => inkOf (signs x)) pattern := by
  rw [fill, inkOf_flatMap, patternInk]
  congr 2
  funext part
  cases part <;> simp

end Patterns

/-- What is printed of a kind takes the ink of its own signs and of its parts. -/
theorem Kind.ink_layout {k : Kind Node} (hplain : k.PlainText) :
    (Layout.kind (k.map Node.printed)).ink = patternInk (fun m => m.doc.ink) k.shape := by
  have hwhole : ∀ m : Node, m.printed.whole = m.doc := fun _ => rfl
  cases k with
  | pasted text =>
      obtain ⟨ts, hts, hcomment⟩ := hplain
      have hink := (plain_iff hts).1 ⟨ts, hts, hcomment⟩
      simp [Layout.kind, Kind.map, Doc.ink, hink, shape, pattern, signsOf, hts]
  | conditional test yes no =>
      cases no <;> simp [Layout.kind, Kind.map, hwhole, Doc.ink_form, shape, pattern]
  | blank | vacated => rfl
  | _ =>
      simp [Layout.kind, Kind.map, hwhole, Doc.ink, Doc.ink_application, Doc.ink_form, Doc.ink_round, Doc.ink_square,
        Node.printed_header, shape, pattern, Sign.ink, Function.comp_def]

namespace Node

/-- Without comments a node takes the ink of its signs, however it is set. -/
theorem ink_doc {n : Node} (h : ∀ m ∈ n.walk, m.comment = none ∧ m.kind.PlainText) :
    ∀ m ∈ n.walk, m.doc.ink = inkOf m.flatten := by
  induction n using induct with
  | step n ih =>
      have hbelow : ∀ c ∈ n.children, ∀ m ∈ c.walk, m.doc.ink = inkOf m.flatten := by
        intro c hc
        exact ih c hc fun m hm => h m (mem_walk_trans (mem_walk_of_child hc) hm)
      obtain ⟨hcomment, hplain⟩ := h n n.mem_walk_self
      rw [walk_eq, List.forall_mem_cons, List.forall_mem_flatMap]
      refine ⟨?_, hbelow⟩
      rw [doc_eq, hcomment, flatten_eq, inkOf_fill]
      refine (Kind.ink_layout hplain).trans (congrArg List.sum (List.map_congr_left fun part hpart => ?_))
      cases part with
      | inl s => rfl
      | inr m =>
          obtain ⟨c, hc, hmc⟩ := part_below (Kind.mem_shape.1 hpart)
          exact hbelow c hc m hmc

variable {e : Edit} {n : Node}

/-- With a text without comments put in, a node still has no comments. -/
theorem AsRead.plain_edited (hread : n.AsRead) (hplain : n.Uncommented) (htext : ∀ text ∈ e.text?, Plain text) :
    ∀ m ∈ (n.edited [e]).walk, m.comment = none ∧ m.kind.PlainText := by
  intro m hm
  constructor
  · rcases mem_walk_edited hm with (⟨_, _, _, _, _, rfl⟩ | ⟨_, rfl⟩) | ⟨l, hl, rfl⟩
    · rfl
    · rfl
    · rw [edited_eq]
      exact hplain l hl
  · cases hk : m.kind with
    | pasted text => exact htext text (hread.text_of_pasted hm hk)
    | _ => trivial

/-- What is printed of a node with the text put in takes the ink of what it says. -/
theorem AsRead.ink_reprinted (hread : n.AsRead) (hplain : n.Uncommented) (htext : ∀ text ∈ e.text?, Plain text)
    (width : Nat) : ink (n.reprinted [e] width).toList = inkOf (n.wording [e]) := by
  rw [reprinted, ink_hangingIndent, ((n.edited [e]).pretty_sets _).ink_eq, wording]
  exact ink_doc (hread.plain_edited hplain htext) _ (mem_walk_self _)

end Node

/-! ## Documents without comments -/

/-- An edit in a place of a node cuts the document at the node that is printed again; what the roots say with the
edit made is said around it as it was. -/
theorem Tree.Orderly.cut_at_anchor {t : Tree} {doc : List Lexeme} (ht : t.Orderly doc)
    (hcomments : ∀ n ∈ t.nodes, n.comment = none) {e : Edit} {a : Node} (hanchor : e.Anchor t (some a))
    (ha : t.Stands a) (htouches : e.Touches a) :
    ∃ x own y, doc = x ++ (own ++ y) ∧ Spans (Pos.zero.advanceOver (Lexeme.text x)) own a ∧
      t.roots.flatMap (Node.wording [e]) = signs x ++ (a.wording [e] ++ signs y) := by
  have hstep : ∀ root ∈ t.roots, ∀ m, root.Within m → ¬ Touched [e] m →
      m.wording [e] = fill (Node.wording [e]) m.kind.shape := by
    intro root hroot m hm huntouched
    exact Node.wording_of_untouched fun e' he' htouches' => huntouched ⟨e', he', htouches'⟩
  obtain ⟨marks, hmarked, hmarks⟩ := ht.placed.marked hstep
  have hranges : marks.Pairwise fun m l => m.range.stop ≤ l.range.start := by
    refine hmarked.ordered.2.imp_of_mem fun {m l} hm hl hle => ?_
    rwa [Node.range_of_uncommented (hcomments m (Tree.Stands.mem_nodes (hmarks.chosen m hm).2)),
      Node.range_of_uncommented (hcomments l (Tree.Stands.mem_nodes (hmarks.chosen l hl).2))]
  -- Whatever the edit touches stands within the node that is printed again.
  have htop : Outermost (Touched [e]) t.roots [a] := by
    refine ⟨List.forall_mem_singleton.2 ⟨⟨e, List.mem_singleton_self e, htouches⟩, ha⟩,
      fun root hroot m hm htouched => ?_⟩
    obtain ⟨e', he', htouches'⟩ := htouched
    obtain rfl := List.mem_singleton.1 he'
    obtain ⟨b, hb, hbm, -⟩ := htouches'.anchor ht.distinct ⟨root, hroot, hm⟩
    cases hb.unique hanchor
    exact ⟨a, List.mem_singleton_self a, hbm⟩
  have hperm := htop.perm hmarks (List.pairwise_singleton _ a) (ht.pairwise_not_within hmarks hranges)
  rw [← List.singleton_perm.1 hperm] at hmarked
  obtain ⟨x, own, y, ts, hsplit, hspans, hsigns, hrest⟩ := hmarked.first_mark
  exact ⟨x, own, y, hsplit, hspans, by rw [hsigns, hrest.signs_of_nil]⟩

namespace Session

/-- In a document without comments no comment hangs on a node. -/
theorem InStep.uncommented {s : Session String} (hs : s.InStep) (hplain : Plain s.text) :
    ∀ n ∈ s.tree.nodes, n.comment = none := by
  obtain ⟨doc, -, hplaced, htokens⟩ := hs.placed
  obtain ⟨ts, hts, hcomment⟩ := hplain
  cases htokens.symm.trans hts
  intro n hn
  by_contra hne
  obtain ⟨c, hc⟩ := Option.ne_none_iff_exists'.1 hne
  obtain ⟨-, t, ht, hkind, -⟩ := hplaced.ends n hn c hc
  exact hcomment t ht hkind

/-- An edit in a place of a node writes what is printed again over the span of its node. -/
theorem text_of_perform {s s' : Session String} (ht : s.tree.Distinct) {e : Edit} {parent a : Node}
    (hfits : e.Fits parent) (hanchor : e.Anchor s.tree (some a)) (ha : a ∈ s.tree.nodes) (hinside : parent ∈ a.walk)
    (hcomment : a.comment = none) {x own y : List Lexeme} (htext : Lexeme.text (x ++ (own ++ y)) = s.text.toList)
    (hspans : Spans (Pos.zero.advanceOver (Lexeme.text x)) own a) {committed : Committed}
    (hperform : s.perform [e] = (.ok committed, s')) :
    s'.text.toList = Lexeme.text x ++ ((a.reprinted [e] s.settings.prettyWidth).toList ++ Lexeme.text y) := by
  obtain ⟨changes, after, reread, hchanges, happly, -, rfl⟩ := changes_of_perform (List.cons_ne_nil e []) hperform
  rw [textChanges_of_child ht hfits hanchor ha hinside] at hchanges
  cases hchanges
  obtain ⟨before, covered, behind, haround, hafter⟩ := exists_around happly
  have hcut : around s.text a.range = .ok (Lexeme.text x, Lexeme.text own, Lexeme.text y) := by
    obtain ⟨hspan, -, -, -⟩ := hspans
    rw [Node.range_of_uncommented hcomment, hspan]
    refine around_eq_ok_iff.2 ⟨?_, rfl, Pos.advanceOver_append _ _ _⟩
    rw [← htext, text_append, text_append, List.append_assoc]
  cases haround.symm.trans hcut
  rw [hafter, String.toList_ofList]
  rfl

/-- An edit that puts a text without comments into a document without comments leaves one without comments. -/
theorem perform_uncommented {s s' : Session String} (hs : s.InStep) {doc : List Lexeme} (ht : s.tree.Orderly doc)
    (hdoc : Lexeme.text doc = s.text.toList) (hplain : Plain s.text) {e : Edit} {parent : Node}
    (hparent : parent ∈ s.tree.nodes) (hfits : e.Fits parent)
    (htext : ∀ text ∈ e.text?, Fragment text ∧ Plain text) {committed : Committed}
    (hperform : s.perform [e] = (.ok committed, s')) : Plain s'.text := by
  have hcomments := hs.uncommented hplain
  obtain ⟨a, hanchor, hstands, -, htouches, hinside⟩ := hfits.anchor ht.distinct hparent
  have ha := hstands.mem_nodes
  obtain ⟨x, own, y, rfl, hspans, hsaid⟩ := ht.cut_at_anchor hcomments hanchor hstands htouches
  have hafter := text_of_perform ht.distinct hfits hanchor ha hinside (hcomments a ha) hdoc hspans hperform
  have hink : ∀ ls ⊆ x ++ (own ++ y), ink (Lexeme.text ls) = inkOf (signs ls) := by
    obtain ⟨ts, hts, hcomment⟩ := hplain
    have htokens : tokenize s.text = .ok (tokens .zero (x ++ (own ++ y))) := by
      rw [tokenize, ← hdoc]
      exact tokensFrom_run ht.placed.run .zero
    cases htokens.symm.trans hts
    intro ls hsub
    exact (ink_text fun l hl => ht.placed.run.ok l (hsub hl)).2.2 fun l hl => comment_token_iff.1 hcomment l (hsub hl)
  have hprinted : ink (a.reprinted [e] s.settings.prettyWidth).toList = inkOf (a.wording [e]) := by
    obtain ⟨root, hroot, hwithin⟩ := hstands
    refine ((hs.roots_read.1 root hroot).1.of_mem_walk hwithin.mem_walk).ink_reprinted ?_ ?_ _
    · exact fun m hm => hcomments m (Tree.mem_nodes_of_mem_walk ha hm)
    · exact fun text hmem => (htext text hmem).2
  obtain ⟨committed', s'', hperform', ts, hts, hsigns⟩ :=
    perform_batch hs ht hdoc (List.forall_mem_singleton.2 ⟨parent, hparent, hfits⟩)
      (List.forall_mem_singleton.2 fun text hmem => (htext text hmem).1) (List.pairwise_singleton _ e)
  cases hperform.symm.trans hperform'
  rw [show Edit.latestFirst [e] = [e] from List.mergeSort_singleton e, List.flatMap_map] at hsigns
  -- Before the node, in it and behind it the new text takes the ink of what is said there.
  rw [plain_iff hts, hafter, hsigns, ink_append, ink_append, hink x (by simp), hink y (by simp), hprinted]
  rw [← inkOf_append, ← inkOf_append, ← hsaid]
  rfl

end Session

end TreeEdit
