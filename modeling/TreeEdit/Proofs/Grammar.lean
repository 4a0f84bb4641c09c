import TreeEdit.Proofs.Inheritance
import TreeEdit.Proofs.Signs

/-!
# Where nodes stand in the text

`Parses` is the grammar that the reader works off with its stack: blanks, comments, words, and lists
of all of these. `Spans p ls n` says that the node `n` stands in the text as the lexemes `ls` from the
place `p` on: its own signs and its parts stand there one behind the other in the order of its shape,
with blanks and comments anywhere between them. Everything about places in a document that was read
follows from this (`readDocument_fills`).

What is said of every node that was read is proved by one induction over the grammar, `Parses.throughout`: it holds of
leaves, recognition hands it on, and a list has it where it stands in the text. `Parses.everywhere` is the case of a
property of all nodes in a node, and `Parses.places` that of a property of their kinds and spans.
-/

namespace TreeEdit

open Reader Lexeme

/-! ## The grammar -/

namespace Reader

/-- The note of a comment that starts at a place. -/
def noteAt (p : Pos) (body : List Char) : Note :=
  ⟨⟨p, p.advanceOver (dropBlanksEnd (';' :: body))⟩, String.ofList (dropBlanksEnd (';' :: body))⟩

/-- The lexemes from a place on are these elements. -/
inductive Parses : Pos → List Lexeme → List Element → Prop
  | nil (p : Pos) : Parses p [] []
  | blank {p : Pos} (c : Char) {ls : List Lexeme} {es : List Element} :
      Parses (p.advance c) ls es → Parses p (.blank c :: ls) es
  | comment {p : Pos} (body : List Char) {ls : List Lexeme} {es : List Element} :
      Parses (p.advanceOver (';' :: body)) ls es →
        Parses p (.comment body :: ls) (.note (noteAt p body) :: es)
  | word {p : Pos} {l : Lexeme} {t : Token} {ls : List Lexeme} {es : List Element}
      (kind : t.kind = .atom ∨ t.kind = .string) (token : l.token? p = some t) :
      Parses (p.advanceOver l.chars) ls es → Parses p (l :: ls) (.expr (leaf t) :: es)
  | list {p q : Pos} (b : Bracket) {inner ls : List Lexeme} {es fs : List Element}
      (stop : q = p.advanceOver (text (.opening b :: (inner ++ [.closing b])))) :
      Parses (p.advance b.opener) inner es → Parses q ls fs →
        Parses p (.opening b :: (inner ++ .closing b :: ls))
          (.expr (.make (recognise (Element.attach es)) ⟨p, q⟩) :: fs)

/-- What is left to read once the elements `es` of the innermost list have been read from `here`: the
rest behind its closing bracket, or nothing if no list is open. -/
def Leaves (ls : List Lexeme) (p : Pos) (elements result : List Element) (here : List Lexeme)
    (es : List Element) : List Frame → Prop
  | [] => ls = here ∧ result = elements.reverse ++ es
  | f :: stack => ∃ rest q, ls = here ++ .closing f.bracket :: rest ∧
      q = p.advanceOver (text (here ++ [.closing f.bracket])) ∧
      elementsFrom (tokens q rest) stack
        (.expr (list (es.reverse ++ elements) ⟨f.start, q⟩) :: f.before) = .ok result

theorem Leaves.append (before : List Lexeme) {ls : List Lexeme} {p : Pos} {elements result : List Element}
    {here : List Lexeme} {es : List Element} {stack : List Frame}
    (h : Leaves ls (p.advanceOver (text before)) elements result here es stack) :
    Leaves (before ++ ls) p elements result (before ++ here) es stack := by
  cases stack with
  | nil => exact ⟨congrArg (before ++ ·) h.1, h.2⟩
  | cons f stack =>
      obtain ⟨rest, q, rfl, rfl, hrest⟩ := h
      refine ⟨rest, _, by rw [List.append_assoc], ?_, hrest⟩
      rw [List.append_assoc, text_append before, Pos.advanceOver_append]

theorem Leaves.cons {l : Lexeme} {ls : List Lexeme} {p : Pos} {elements result : List Element}
    {here : List Lexeme} {es : List Element} {stack : List Frame}
    (h : Leaves ls (p.advanceOver l.chars) elements result here es stack) :
    Leaves (l :: ls) p elements result (l :: here) es stack := by
  refine Leaves.append [l] ?_
  rwa [text_cons, text_nil, List.append_nil]

theorem Leaves.element {ls : List Lexeme} {p : Pos} {elements result : List Element}
    {here : List Lexeme} {e : Element} {es : List Element} {stack : List Frame}
    (h : Leaves ls p (e :: elements) result here es stack) :
    Leaves ls p elements result here (e :: es) stack := by
  cases stack with
  | nil => exact ⟨h.1, by simpa using h.2⟩
  | cons f stack =>
      obtain ⟨rest, q, rfl, rfl, hrest⟩ := h
      exact ⟨rest, _, rfl, rfl, by simpa using hrest⟩

/-- What the reader makes of a run, up to the bracket that closes the innermost list. -/
theorem parses_of_elementsFrom {ls : List Lexeme} {p : Pos} {stack : List Frame}
    {elements result : List Element}
    (h : elementsFrom (tokens p ls) stack elements = .ok result) :
    ∃ here es, Parses p here es ∧ Leaves ls p elements result here es stack := by
  -- The induction is on the length, since behind a list the rest is read from where the list ends.
  induction hn : ls.length using Nat.strong_induction_on generalizing ls p stack elements with
  | _ n ih =>
      subst hn
      cases ls with
      | nil =>
          cases stack with
          | nil =>
              cases h
              exact ⟨[], [], .nil p, rfl, by simp⟩
          | cons f stack => cases h
      | cons l ls =>
          have hlt : ls.length < (l :: ls).length := Nat.lt_succ_self _
          cases l with
          | blank c =>
              have hmore : elementsFrom (tokens (p.advance c) ls) stack elements = .ok result := h
              obtain ⟨here, es, hparse, hleaves⟩ := ih _ hlt hmore rfl
              exact ⟨_, es, hparse.blank c, hleaves.cons⟩
          | comment body =>
              have hmore : elementsFrom (tokens (p.advanceOver (';' :: body)) ls) stack
                  (.note (noteAt p body) :: elements) = .ok result := h
              obtain ⟨here, es, hparse, hleaves⟩ := ih _ hlt hmore rfl
              exact ⟨_, _, hparse.comment body, hleaves.element.cons⟩
          | atom cs =>
              have hmore : elementsFrom (tokens (p.advanceOver cs) ls) stack
                  (.expr (leaf (.ofChars .atom p cs)) :: elements) = .ok result := h
              obtain ⟨here, es, hparse, hleaves⟩ := ih _ hlt hmore rfl
              exact ⟨_, _, hparse.word (l := .atom cs) (.inl rfl) rfl, hleaves.element.cons⟩
          | string body =>
              have hmore : elementsFrom (tokens (p.advanceOver ('"' :: body)) ls) stack
                  (.expr (leaf (.ofChars .string p ('"' :: body))) :: elements) = .ok result := h
              obtain ⟨here, es, hparse, hleaves⟩ := ih _ hlt hmore rfl
              exact ⟨_, _, hparse.word (l := .string body) (.inr rfl) rfl, hleaves.element.cons⟩
          | opening b =>
              have hmore : elementsFrom (tokens (p.advance b.opener) ls) (⟨b, p, elements⟩ :: stack) [] =
                  .ok result := h
              -- First the inside up to the bracket that closes this list, then what stands behind it.
              obtain ⟨inner, es, hinner, rest, q, rfl, rfl, hrest⟩ := ih _ hlt hmore rfl
              rw [List.append_nil, list, List.reverse_reverse] at hrest
              have hrestlt : rest.length < (opening b :: (inner ++ closing b :: rest)).length := by
                simp only [List.length_cons, List.length_append]
                omega
              obtain ⟨here, fs, hparse, hleaves⟩ := ih _ hrestlt hrest rfl
              refine ⟨_, _, Parses.list b rfl hinner hparse, ?_⟩
              have hwhole := Leaves.append (opening b :: (inner ++ [closing b])) hleaves.element
              simp only [List.cons_append, List.append_assoc, List.nil_append] at hwhole
              exact hwhole
          | closing b =>
              cases stack with
              | nil => cases h
              | cons f stack =>
                  have hmore : (if f.bracket = b then
                        elementsFrom (tokens (p.advance b.closer) ls) stack
                          (.expr (list elements ⟨f.start, p.advance b.closer⟩) :: f.before)
                      else .error ⟨.mismatched f.bracket b, p⟩) = .ok result := h
                  split at hmore
                  · rename_i hb
                    subst hb
                    exact ⟨[], [], .nil p, ls, _, rfl, rfl, hmore⟩
                  · cases hmore

/-- What the reader takes is what the grammar derives. -/
theorem parses_of_ok {ls : List Lexeme} {p : Pos} {es : List Element}
    (h : elementsFrom (tokens p ls) [] [] = .ok es) : Parses p ls es := by
  obtain ⟨here, fs, hparse, rfl, rfl⟩ := parses_of_elementsFrom h
  exact hparse

end Reader

/-! ## Nodes in the text -/

/-- The lexemes from a place on stand for a pattern: its signs and its parts one behind the other, with
blanks and comments anywhere; `R` says how a part stands. -/
inductive Fills (R : Pos → List Lexeme → Node → Prop) :
    Pos → List Lexeme → List (Sign ⊕ Node) → Prop
  | nil (p : Pos) : Fills R p [] []
  | silent {p : Pos} {l : Lexeme} {ls : List Lexeme} {pattern : List (Sign ⊕ Node)}
      (sign : l.sign? = none) :
      Fills R (p.advanceOver l.chars) ls pattern → Fills R p (l :: ls) pattern
  | sign {p : Pos} {l : Lexeme} {s : Sign} {ls : List Lexeme} {pattern : List (Sign ⊕ Node)}
      (sign : l.sign? = some s) :
      Fills R (p.advanceOver l.chars) ls pattern → Fills R p (l :: ls) (.inl s :: pattern)
  | part {p : Pos} {own ls : List Lexeme} {n : Node} {pattern : List (Sign ⊕ Node)} (stands : R p own n) :
      Fills R (p.advanceOver (text own)) ls pattern → Fills R p (own ++ ls) (.inr n :: pattern)

/-- The first and the last lexeme of a run have signs. -/
def Lexeme.Tight (ls : List Lexeme) : Prop :=
  (∃ l ∈ ls.head?, l.sign? ≠ none) ∧ ∃ l ∈ ls.getLast?, l.sign? ≠ none

/-- The node stands in the text as these lexemes from a place on. -/
inductive Spans : Pos → List Lexeme → Node → Prop
  | intro {p : Pos} {ls : List Lexeme} {n : Node} (span : n.span = ⟨p, p.advanceOver (text ls)⟩)
      (fills : Fills Spans p ls n.kind.shape) (tight : Tight ls) (balanced : Balanced ls) : Spans p ls n

namespace Fills

variable {R : Pos → List Lexeme → Node → Prop}

theorem append {p : Pos} {a b : List Lexeme} {s t : List (Sign ⊕ Node)} (ha : Fills R p a s)
    (hb : Fills R (p.advanceOver (text a)) b t) : Fills R p (a ++ b) (s ++ t) := by
  induction ha with
  | nil p => exact hb
  | silent hl _ ih =>
      refine .silent hl (ih ?_)
      rwa [text_cons, Pos.advanceOver_append] at hb
  | sign hl _ ih =>
      refine .sign hl (ih ?_)
      rwa [text_cons, Pos.advanceOver_append] at hb
  | part hn _ ih =>
      rw [List.append_assoc]
      refine .part hn (ih ?_)
      rwa [text_append, Pos.advanceOver_append] at hb

/-- What stands for two patterns one behind the other can be divided between them. -/
theorem divide {p : Pos} {ls : List Lexeme} {s t : List (Sign ⊕ Node)} (h : Fills R p ls (s ++ t)) :
    ∃ a b, ls = a ++ b ∧ Fills R p a s ∧ Fills R (p.advanceOver (text a)) b t := by
  generalize hst : s ++ t = st at h
  induction h generalizing s with
  | nil p =>
      obtain ⟨rfl, rfl⟩ := List.append_eq_nil_iff.1 hst
      exact ⟨[], [], rfl, .nil p, .nil _⟩
  | @silent p l ls st hl _ ih =>
      obtain ⟨a, b, rfl, ha, hb⟩ := ih hst
      refine ⟨l :: a, b, rfl, .silent hl ha, ?_⟩
      rwa [text_cons, Pos.advanceOver_append]
  | @sign p l x ls st hl hrest ih =>
      rcases List.append_eq_cons_iff.1 hst with ⟨rfl, rfl⟩ | ⟨s, rfl, rfl⟩
      · exact ⟨[], l :: ls, rfl, .nil p, .sign hl hrest⟩
      · obtain ⟨a, b, rfl, ha, hb⟩ := ih rfl
        refine ⟨l :: a, b, rfl, .sign hl ha, ?_⟩
        rwa [text_cons, Pos.advanceOver_append]
  | @part p own ls n st hn hrest ih =>
      rcases List.append_eq_cons_iff.1 hst with ⟨rfl, rfl⟩ | ⟨s, rfl, rfl⟩
      · exact ⟨[], own ++ ls, rfl, .nil p, .part hn hrest⟩
      · obtain ⟨a, b, rfl, ha, hb⟩ := ih rfl
        refine ⟨own ++ a, b, by rw [List.append_assoc], .part hn ha, ?_⟩
        rwa [text_append, Pos.advanceOver_append]

end Fills

/-- Whatever stands for the first pattern stands for the second. -/
def Refines (s t : List (Sign ⊕ Node)) : Prop := ∀ p ls, Fills Spans p ls s → Fills Spans p ls t

namespace Refines

theorem refl (s : List (Sign ⊕ Node)) : Refines s s := fun _ _ h => h

theorem trans {s t u : List (Sign ⊕ Node)} (h : Refines s t) (h' : Refines t u) : Refines s u :=
  fun p ls hs => h' p ls (h p ls hs)

theorem append {s s' t t' : List (Sign ⊕ Node)} (h : Refines s s') (h' : Refines t t') :
    Refines (s ++ t) (s' ++ t') := by
  intro p ls hst
  obtain ⟨a, b, rfl, ha, hb⟩ := hst.divide
  exact (h p a ha).append (h' _ b hb)

theorem cons {x y : Sign ⊕ Node} {s t : List (Sign ⊕ Node)} (h : Refines [x] [y]) (h' : Refines s t) :
    Refines (x :: s) (y :: t) := by
  have happend : Refines ([x] ++ s) ([y] ++ t) := h.append h'
  exact happend

/-- A part may be replaced by its shape. -/
theorem expand (n : Node) : Refines [.inr n] n.kind.shape := by
  intro p ls h
  generalize hpattern : [Sum.inr n] = pattern at h
  induction h with
  | nil p => cases hpattern
  | silent hl _ ih => exact .silent hl (ih hpattern)
  | sign hl _ _ => cases hpattern
  | part hn hrest _ =>
      cases hpattern
      obtain ⟨-, hfills, -, -⟩ := hn
      rw [← List.append_nil n.kind.shape]
      exact hfills.append hrest

/-- A part may be replaced by one with the same span and shape. -/
theorem part {n m : Node} (hspan : m.span = n.span) (hshape : m.kind.shape = n.kind.shape) :
    Refines [.inr n] [.inr m] := by
  intro p ls h
  generalize hpattern : [Sum.inr n] = pattern at h
  induction h with
  | nil p => cases hpattern
  | silent hl _ ih => exact .silent hl (ih hpattern)
  | sign hl _ _ => cases hpattern
  | part hn hrest _ =>
      cases hpattern
      obtain ⟨hspan', hfills, htight, hbalanced⟩ := hn
      exact .part (.intro (hspan.trans hspan') (hshape ▸ hfills) htight hbalanced) hrest

theorem parts {ns ms : List Node}
    (h : List.Forall₂ (fun n m : Node => m.span = n.span ∧ m.kind.shape = n.kind.shape) ns ms) :
    Refines (ns.map .inr) (ms.map .inr) := by
  induction h with
  | nil => exact .refl _
  | cons h _ ih => exact .cons (.part h.1 h.2) ih

end Refines

/-! ## Lists in the text -/

/-- The second node stands wherever the first does. -/
def Node.SameShape (n m : Node) : Prop := m.span = n.span ∧ m.kind.shape = n.kind.shape

/-- The kind stands in brackets around whatever stands for the items. -/
def ShapedBy (items : List Node) (k : Kind Node) : Prop :=
  ∃ inner, k.shape = inBrackets inner ∧ Refines (items.map .inr) inner

namespace Reader

theorem sameShape_addNotes (n : Node) (notes : List Note) : n.SameShape (n.addNotes notes) :=
  ⟨Node.span_addNotes n notes, by rw [Node.kind_addNotes]⟩

theorem shape_applicationOf (items : List Node) :
    (applicationOf items).shape = inBrackets (items.map .inr) := by
  cases items <;> rfl

theorem refines_keyword {n : Node} {keyword : String} (h : n.symbol? = some keyword) :
    Refines [.inr n] [.inl (.word keyword)] := by
  have hshape : n.kind.shape = [.inl (.word keyword)] := by
    rw [Node.kind_of_symbol? h]
    rfl
  rw [← hshape]
  exact .expand n

theorem sameShape_identifiers {n : Node} {ids : List Node} (h : symbols? n = some ids) :
    n.SameShape (rekind n (.identifiers ids)) :=
  ⟨rfl, by rw [(symbols?_eq_some h).1, shape_applicationOf]; rfl⟩

theorem sameShape_clause {n c : Node} (h : clause? n = some c) : n.SameShape c := by
  obtain ⟨test, body, hkind, rfl⟩ := clause?_eq_some h
  exact ⟨rfl, by rw [hkind]; rfl⟩

theorem sameShape_binding {n b : Node} (h : binding? n = some b) : n.SameShape b := by
  obtain ⟨name, value, hkind, -, rfl⟩ := binding?_eq_some h
  exact ⟨rfl, by rw [hkind]; rfl⟩

/-- A form stands in brackets behind its keyword. -/
theorem shapedBy_form {head : Node} {keyword : String} (hhead : head.symbol? = some keyword)
    {items : List Node} {k : Kind Node} {pattern : List (Sign ⊕ Node)}
    (hshape : k.shape = inForm keyword pattern) (h : Refines (items.map .inr) pattern) :
    ShapedBy (head :: items) k :=
  ⟨_, hshape, .cons (refines_keyword hhead) h⟩

theorem refines_bindings {list : Node} {bs : List Node} (h : bindings? list = some bs) :
    Refines [.inr list] (inBrackets (bs.map .inr)) := by
  obtain ⟨elements, hkind, hmap⟩ := bindings?_eq_some h
  have hlist := Refines.expand list
  rw [hkind, shape_applicationOf] at hlist
  refine hlist.trans (.cons (.refl _) (.append ?_ (.refl _)))
  exact .parts ((forall₂_of_mapM hmap).imp fun _ _ => sameShape_binding)

theorem Formed.shapedBy {keyword : String} {items : List Node} {k : Kind Node} (h : Formed keyword items k)
    (hhead : items.head?.bind Node.symbol? = some keyword) : ShapedBy items k := by
  cases h with
  | variableDef symbol => exact shapedBy_form hhead rfl (.refl _)
  | @functionDef head target name body params header =>
      refine shapedBy_form hhead rfl ?_
      have htarget := Refines.expand target
      rw [(symbols?_eq_some header).1, shape_applicationOf] at htarget
      refine (htarget.append (.refl [.inr body])).trans (.append ?_ (.refl _))
      refine .cons (.refl _) (.append (.cons ?_ (.refl _)) (.refl _))
      exact .part (sameShape_addNotes name _).1 (sameShape_addNotes name _).2
  | structDef symbol list =>
      refine shapedBy_form hhead rfl (.cons (.refl _) ?_)
      exact .part (sameShape_identifiers list).1 (sameShape_identifiers list).2
  | lambda list =>
      refine shapedBy_form hhead rfl (.cons ?_ (.refl _))
      exact .part (sameShape_identifiers list).1 (sameShape_identifiers list).2
  | oneArm => exact shapedBy_form hhead rfl (.refl _)
  | twoArms => exact shapedBy_form hhead rfl (.refl _)
  | cond all =>
      cases items with
      | nil => cases hhead
      | cons head items =>
          refine shapedBy_form hhead rfl ?_
          exact .parts ((forall₂_of_mapM all).imp fun _ _ => sameShape_clause)
  | @letNothing form head list body empty =>
      refine shapedBy_form hhead rfl (.append (s := [.inr list]) (refines_bindings empty) ?_)
      exact .part (sameShape_addNotes body _).1 (sameShape_addNotes body _).2
  | @letIn form head list body first rest bound =>
      refine shapedBy_form hhead rfl (.append (s := [.inr list]) ?_ (.refl _))
      refine (refines_bindings bound).trans (.cons (.refl _) (.append (.cons ?_ (.refl _)) (.refl _)))
      exact .part (sameShape_addNotes first _).1 (sameShape_addNotes first _).2
  | guarded form => exact shapedBy_form hhead rfl (.refl _)
  | sequence =>
      cases items with
      | nil => cases hhead
      | cons head items => exact shapedBy_form hhead rfl (.refl _)

theorem passKeywordComment_sameShape (items : List Node) :
    List.Forall₂ Node.SameShape items (passKeywordComment items) := by
  have hrefl : ∀ ns : List Node, List.Forall₂ Node.SameShape ns ns :=
    fun ns => List.forall₂_same.2 fun _ _ => ⟨rfl, rfl⟩
  rcases passKeywordComment_cases items with hpass | ⟨keyword, next, rest, c, rfl, -, hpass⟩
  · rw [hpass]
    exact hrefl items
  · rw [hpass]
    exact .cons ⟨rfl, rfl⟩ (.cons (sameShape_addNotes next _) (hrefl rest))

theorem symbol?_head?_passKeywordComment (items : List Node) :
    (passKeywordComment items).head?.bind Node.symbol? = items.head?.bind Node.symbol? := by
  rcases passKeywordComment_cases items with hpass | ⟨keyword, next, rest, c, rfl, -, hpass⟩
  · rw [hpass]
  · rw [hpass]
    rfl

/-- A list stands in brackets around its items, whatever it is recognised as. -/
theorem recognise_shapedBy (items : List Node) : ShapedBy items (recognise items) := by
  have hpass := Refines.parts (passKeywordComment_sameShape items)
  rcases recognise_cases items with ⟨-, hrec⟩ | ⟨keyword, hhead, -, hformed | hrec⟩
  · rw [hrec]
    exact ⟨_, shape_applicationOf items, .refl _⟩
  · obtain ⟨inner, hinner, hrefines⟩ := hformed.shapedBy ((symbol?_head?_passKeywordComment items).trans hhead)
    exact ⟨inner, hinner, hpass.trans hrefines⟩
  · rw [hrec]
    exact ⟨_, rfl, hpass⟩

end Reader

/-! ## Comments hung on expressions -/

/-- The second node is the first with these notes hung on it. -/
inductive Node.Hung (n : Node) : List Note → Node → Prop
  | bare : Hung n [] n
  | add {m : Node} {notes : List Note} (more : List Note) :
      Hung n notes m → Hung n (notes ++ more) (m.addNotes more)

namespace Element

/-- An expression among notes, and the node it becomes when they are hung on it. -/
def Block (es : List Element) (m : Node) : Prop :=
  ∃ n before after, es = before.map note ++ expr n :: after.map note ∧ n.Hung (before ++ after) m

theorem Block.add {es : List Element} {m : Node} (h : Block es m) (notes : List Note) :
    Block (es ++ notes.map note) (m.addNotes notes) := by
  obtain ⟨n, before, after, rfl, hhung⟩ := h
  refine ⟨n, before, after ++ notes, by simp, ?_⟩
  rw [← List.append_assoc]
  exact hhung.add notes

theorem step_note (w : Walk) (t : Note) :
    (∃ prev before, w.waiting = [] ∧ w.done = prev :: before ∧
      w.step (note t) = ⟨prev.addNotes [t] :: before, []⟩) ∨
    w.step (note t) = ⟨w.done, w.waiting ++ [t]⟩ := by
  obtain ⟨done, waiting⟩ := w
  unfold Walk.step
  cases waiting with
  | cons u waiting => exact .inr rfl
  | nil =>
      cases done with
      | nil => exact .inr rfl
      | cons prev before =>
          by_cases hline : prev.span.stop.line = t.span.start.line
          · exact .inl ⟨prev, before, rfl, rfl, by simp [hline]⟩
          · exact .inr (by simp [hline])

/-- The elements seen so far are the blocks of the expressions seen and the waiting notes. -/
theorem walk_blocks (es : List Element) :
    ∃ blocks, es = blocks.reverse.flatten ++ (es.foldl Walk.step ⟨[], []⟩).waiting.map note ∧
      List.Forall₂ Block blocks (es.foldl Walk.step ⟨[], []⟩).done := by
  induction es using List.reverseRecOn with
  | nil => exact ⟨[], rfl, .nil⟩
  | append_singleton es e ih =>
      obtain ⟨blocks, hes, hblocks⟩ := ih
      rw [List.foldl_append, List.foldl_cons, List.foldl_nil]
      generalize es.foldl Walk.step ⟨[], []⟩ = w at hes hblocks
      cases e with
      | expr n =>
          have hblock : Block (w.waiting.map note ++ [expr n]) (n.addNotes w.waiting) := by
            refine ⟨n, w.waiting, [], rfl, ?_⟩
            rw [List.append_nil]
            exact Node.Hung.bare.add w.waiting
          refine ⟨(w.waiting.map note ++ [expr n]) :: blocks, ?_, .cons hblock hblocks⟩
          simp [Walk.step, hes]
      | note t =>
          rcases step_note w t with ⟨prev, before, hwaiting, hdone, hstep⟩ | hstep
          · -- On the line of the expression before, the note joins the block of that one.
            rw [hdone] at hblocks
            cases hblocks with
            | @cons block _ blocks _ hblock hblocks =>
                refine ⟨(block ++ [note t]) :: blocks, ?_, ?_⟩
                · simp [hstep, hes, hwaiting]
                · rw [hstep]
                  exact .cons (hblock.add [t]) hblocks
          · refine ⟨blocks, ?_, ?_⟩
            · simp [hstep, hes]
            · rw [hstep]
              exact hblocks

/-- The elements are the blocks of the expressions; notes are left out only where there is no expression. -/
theorem attach_blocks (es : List Element) :
    ∃ (blocks : List (List Element)) (left : List Note), es = blocks.flatten ++ left.map note ∧
      List.Forall₂ Block blocks (attach es) ∧ (attach es = [] ∨ left = []) := by
  obtain ⟨blocks, hes, hblocks⟩ := walk_blocks es
  rw [attach]
  generalize es.foldl Walk.step ⟨[], []⟩ = w at hes hblocks
  obtain ⟨done, waiting⟩ := w
  cases hblocks with
  | nil => exact ⟨[], waiting, hes, .nil, .inl rfl⟩
  | @cons block prev blocks before hblock hblocks =>
      refine ⟨((block ++ waiting.map note) :: blocks).reverse, [], by simpa using hes, ?_, .inr rfl⟩
      exact List.rel_reverse (.cons (hblock.add waiting) hblocks)

/-- The expressions among some elements. -/
def nodes (es : List Element) : List Node :=
  es.filterMap fun
    | expr n => some n
    | note _ => none

end Element

theorem Node.Hung.span_kind_eq {n m : Node} {notes : List Note} (h : n.Hung notes m) :
    m.span = n.span ∧ m.kind = n.kind := by
  induction h with
  | bare => exact ⟨rfl, rfl⟩
  | add more _ ih => exact ⟨(Node.span_addNotes _ more).trans ih.1, (Node.kind_addNotes _ more).trans ih.2⟩

theorem Node.Hung.sameShape {n m : Node} {notes : List Note} (h : n.Hung notes m) : n.SameShape m :=
  ⟨h.span_kind_eq.1, by rw [h.span_kind_eq.2]⟩

namespace Element

theorem nodes_append (a b : List Element) : nodes (a ++ b) = nodes a ++ nodes b :=
  List.filterMap_append

theorem nodes_notes (notes : List Note) : nodes (notes.map note) = [] := by
  induction notes with
  | nil => rfl
  | cons t notes ih => exact ih

theorem Block.nodes_eq {es : List Element} {m : Node} (h : Block es m) :
    ∃ n notes, nodes es = [n] ∧ n.Hung notes m := by
  obtain ⟨n, before, after, rfl, hhung⟩ := h
  refine ⟨n, before ++ after, ?_, hhung⟩
  rw [nodes_append, nodes_notes, List.nil_append]
  exact congrArg (n :: ·) (nodes_notes after)

/-- Each expression becomes a node of its own. -/
theorem attach_hung (es : List Element) :
    List.Forall₂ (fun n m => ∃ notes, n.Hung notes m) (nodes es) (attach es) := by
  obtain ⟨blocks, left, hes, hblocks, -⟩ := attach_blocks es
  have hnodes : nodes es = nodes blocks.flatten := by
    rw [hes, nodes_append, nodes_notes, List.append_nil]
  rw [hnodes]
  generalize attach es = items at hblocks
  clear hes hnodes
  induction hblocks with
  | nil => exact .nil
  | cons hblock _ ih =>
      obtain ⟨n, notes, hn, hhung⟩ := hblock.nodes_eq
      rw [List.flatten_cons, nodes_append, hn]
      exact .cons ⟨notes, hhung⟩ ih

/-- Hanging comments on expressions moves none of them. -/
theorem attach_sameShape (es : List Element) : List.Forall₂ Node.SameShape (nodes es) (attach es) :=
  (attach_hung es).imp fun _ _ ⟨_, h⟩ => h.sameShape

/-- Hanging comments on expressions leaves their kinds alone. -/
theorem map_kind_attach (es : List Element) : (attach es).map Node.kind = (nodes es).map Node.kind := by
  have hkinds := (attach_hung es).imp (S := fun n m => n.kind = m.kind) fun _ _ ⟨_, h⟩ => h.span_kind_eq.2.symm
  rw [← List.forall₂_map_right_iff, ← List.forall₂_map_left_iff, List.forall₂_eq_eq_eq] at hkinds
  exact hkinds.symm

end Element

/-! ## What was read stands in the text -/

/-- The lexeme of a word. -/
theorem Lexeme.eq_word {l : Lexeme} {p : Pos} {t : Token} (hkind : t.kind = .atom ∨ t.kind = .string)
    (htoken : l.token? p = some t) : (∃ cs, l = .atom cs) ∨ ∃ body, l = .string body := by
  cases l with
  | atom cs => exact .inl ⟨cs, rfl⟩
  | string body => exact .inr ⟨body, rfl⟩
  | blank c => cases htoken
  | _ => cases htoken; simp [Token.ofChars] at hkind

namespace Reader

theorem Parses.balanced {p : Pos} {ls : List Lexeme} {es : List Element} (h : Parses p ls es) :
    Balanced ls := by
  induction h with
  | nil p => exact .nil
  | blank c _ ih => exact ih
  | comment body _ ih => exact ih
  | word hkind htoken _ ih =>
      obtain ⟨cs, rfl⟩ | ⟨body, rfl⟩ := eq_word hkind htoken
      · exact ih
      · exact ih
  | list b _ _ _ hinner hrest =>
      have hwhole := (hinner.list b).append hrest
      simpa using hwhole

theorem shape_ofAtom (text : String) : (Kind.ofAtom text).shape = [.inl (.word text)] := by
  unfold Kind.ofAtom
  split
  · rename_i hblank
    rw [beq_iff_eq.1 hblank]
    rfl
  · repeat' split
    all_goals rfl

theorem shape_leaf (t : Token) : (leaf t).kind.shape = [.inl (.word t.text)] := by
  have hkind : (leaf t).kind = if t.kind = .string then .literal t.text .string else .ofAtom t.text := rfl
  rw [hkind]
  split
  · rfl
  · exact shape_ofAtom t.text

theorem spans_leaf {p : Pos} {l : Lexeme} {t : Token} (hkind : t.kind = .atom ∨ t.kind = .string)
    (htoken : l.token? p = some t) : Spans p [l] (leaf t) := by
  have hsign : l.sign? = some (.word t.text) ∧ t.span = ⟨p, p.advanceOver l.chars⟩ ∧ Balanced [l] := by
    obtain ⟨cs, rfl⟩ | ⟨body, rfl⟩ := eq_word hkind htoken
    · cases htoken
      exact ⟨rfl, rfl, fun _ => rfl⟩
    · cases htoken
      exact ⟨rfl, rfl, fun _ => rfl⟩
  obtain ⟨hword, hspan, hbalanced⟩ := hsign
  refine .intro ?_ ?_ ?_ hbalanced
  · rw [text_cons, text_nil, List.append_nil]
    exact hspan
  · rw [shape_leaf]
    exact .sign hword (.nil _)
  · exact ⟨⟨l, rfl, by simp [hword]⟩, ⟨l, rfl, by simp [hword]⟩⟩

/-- A list stands in the text from bracket to bracket. -/
theorem spans_list {p q : Pos} {b : Bracket} {inner : List Lexeme} {es : List Element}
    (hstop : q = p.advanceOver (text (.opening b :: (inner ++ [.closing b])))) (hbalanced : Balanced inner)
    (hfills : Fills Spans (p.advance b.opener) inner ((Element.nodes es).map .inr)) :
    Spans p (.opening b :: (inner ++ [.closing b])) (.make (recognise (Element.attach es)) ⟨p, q⟩) := by
  obtain ⟨pattern, hshape, hrefines⟩ := recognise_shapedBy (Element.attach es)
  have hitems := (Refines.parts (Element.attach_sameShape es)).trans hrefines _ _ hfills
  refine .intro (congrArg (Span.mk p) hstop) ?_ ?_ (hbalanced.list b)
  · rw [show (Node.make (recognise (Element.attach es)) ⟨p, q⟩).kind.shape = _ from hshape]
    exact .sign rfl (hitems.append (.sign rfl (.nil _)))
  · refine ⟨⟨.opening b, rfl, by simp [sign?]⟩, ⟨.closing b, ?_, by simp [sign?]⟩⟩
    rw [← List.cons_append]
    exact List.getLast?_concat

/-- What the grammar derives stands in the text. -/
theorem Parses.fills {p : Pos} {ls : List Lexeme} {es : List Element} (h : Parses p ls es) :
    Fills Spans p ls ((Element.nodes es).map .inr) := by
  induction h with
  | nil p => exact .nil p
  | blank c _ ih => exact .silent rfl ih
  | comment body _ ih => exact .silent rfl ih
  | word hkind htoken _ ih =>
      refine .part (spans_leaf hkind htoken) ?_
      rw [text_cons, text_nil, List.append_nil]
      exact ih
  | @list p q b inner ls es fs hstop hinner hrest ihinner ihrest =>
      have hwhole := Fills.part (spans_list hstop hinner.balanced ihinner) (hstop ▸ ihrest)
      simp only [List.cons_append, List.append_assoc, List.nil_append] at hwhole
      exact hwhole

end Reader

/-- The roots of a document that was read stand in its text one behind the other. -/
theorem readDocument_fills {source : String} {roots : List Node} (h : readDocument source = .ok roots) :
    ∃ ls es, Run ls ∧ text ls = source.toList ∧ Parses .zero ls es ∧ Element.attach es = roots ∧
      Fills Spans .zero ls (roots.map .inr) := by
  obtain ⟨ls, es, hrun, htext, hes, hroots⟩ := readDocument_eq_ok_iff.1 h
  have hparse := parses_of_ok hes
  refine ⟨ls, es, hrun, htext, hparse, hroots, ?_⟩
  rw [← hroots]
  exact Refines.parts (Element.attach_sameShape es) _ _ hparse.fills

/-! ## An induction over what was read -/

namespace Reader

/-- A property that recognition hands on holds of every expression of a text if leaves and lists have it where
they stand. -/
theorem Parses.throughout {P : Node → Prop} {N : Note → Prop} (hP : Inherited P N) {origin : Pos}
    {whole : List Lexeme}
    (hleaf : ∀ {x y l t}, whole = x ++ ([l] ++ y) → t.kind = .atom ∨ t.kind = .string →
      l.token? (origin.advanceOver (text x)) = some t → P (leaf t))
    (hnote : ∀ {x y body}, whole = x ++ ([.comment body] ++ y) → N (noteAt (origin.advanceOver (text x)) body))
    (hlist : ∀ {x y b inner es p q}, whole = x ++ (.opening b :: (inner ++ [.closing b]) ++ y) →
      p = origin.advanceOver (text x) → q = p.advanceOver (text (.opening b :: (inner ++ [.closing b]))) →
      Parses (p.advance b.opener) inner es → (∀ n ∈ Element.attach es, P n) →
      (∀ m ∈ (recognise (Element.attach es)).children, P m) → P (.make (recognise (Element.attach es)) ⟨p, q⟩))
    {p : Pos} {ls : List Lexeme} {es : List Element} (h : Parses p ls es) {x y : List Lexeme}
    (hwhole : whole = x ++ (ls ++ y)) (hp : p = origin.advanceOver (text x)) :
    (∀ n, .expr n ∈ es → P n) ∧ ∀ t, .note t ∈ es → N t := by
  induction h generalizing x y with
  | nil p => exact ⟨by simp, by simp⟩
  | @blank p c ls es _ ih =>
      refine ih (x := x ++ [.blank c]) (y := y) (by simp [hwhole]) ?_
      rw [text_append, Pos.advanceOver_append, ← hp]
      rfl
  | @comment p body ls es _ ih =>
      obtain ⟨hexprs, hnotes⟩ := ih (x := x ++ [.comment body]) (y := y) (by simp [hwhole]) (by
        rw [text_append, Pos.advanceOver_append, ← hp, text_cons, text_nil, List.append_nil]
        rfl)
      refine ⟨fun n hn => hexprs n (by simpa using hn), fun t ht => ?_⟩
      rcases List.mem_cons.1 ht with hnew | ht
      · cases hnew
        rw [hp]
        exact hnote (y := ls ++ y) (by simp [hwhole])
      · exact hnotes t ht
  | @word p l t ls es hkind htoken _ ih =>
      obtain ⟨hexprs, hnotes⟩ := ih (x := x ++ [l]) (y := y) (by simp [hwhole]) (by
        rw [text_append, Pos.advanceOver_append, ← hp, text_cons, text_nil, List.append_nil])
      refine ⟨fun n hn => ?_, fun t ht => hnotes t (by simpa using ht)⟩
      rcases List.mem_cons.1 hn with hnew | hn
      · cases hnew
        exact hleaf (y := ls ++ y) (by simp [hwhole]) hkind (hp ▸ htoken)
      · exact hexprs n hn
  | @list p q b inner ls es fs hstop hinner _ ihinner ihrest =>
      -- The list stands behind `x`; inside, the opening bracket is in front as well.
      obtain ⟨hexpr, hnote⟩ := ihinner (x := x ++ [.opening b]) (y := .closing b :: (ls ++ y)) (by simp [hwhole]) (by
        rw [text_append, Pos.advanceOver_append, ← hp]
        rfl)
      obtain ⟨hexprs, hnotes⟩ := ihrest (x := x ++ .opening b :: (inner ++ [.closing b])) (y := y)
        (by simp [hwhole]) (by rw [text_append, Pos.advanceOver_append, ← hp, hstop])
      have hitems : ∀ n ∈ Element.attach es, P n := Element.attach_all (fun _ _ hn ht => hP.hang hn ht) hexpr hnote
      refine ⟨fun n hn => ?_, fun t ht => hnotes t (by simpa using ht)⟩
      rcases List.mem_cons.1 hn with hnew | hn
      · cases hnew
        exact hlist (y := ls ++ y) (by simp [hwhole]) hp hstop hinner hitems (hP.children hitems)
      · exact hexprs n hn

/-- A property of all nodes in a node holds of every expression of a text if leaves and lists have it themselves
where they stand. -/
theorem Parses.everywhere {Q : Node → Prop} {N : Note → Prop} (hQ : Inherited (fun n => ∀ m ∈ n.walk, Q m) N)
    {origin : Pos} {whole : List Lexeme}
    (hleaf : ∀ {x y l t}, whole = x ++ ([l] ++ y) → t.kind = .atom ∨ t.kind = .string →
      l.token? (origin.advanceOver (text x)) = some t → Q (leaf t))
    (hnote : ∀ {x y body}, whole = x ++ ([.comment body] ++ y) → N (noteAt (origin.advanceOver (text x)) body))
    (hlist : ∀ {x y b inner es p q}, whole = x ++ (.opening b :: (inner ++ [.closing b]) ++ y) →
      p = origin.advanceOver (text x) → q = p.advanceOver (text (.opening b :: (inner ++ [.closing b]))) →
      Parses (p.advance b.opener) inner es → (∀ n ∈ Element.attach es, ∀ m ∈ n.walk, Q m) →
      Q (.make (recognise (Element.attach es)) ⟨p, q⟩))
    {p : Pos} {ls : List Lexeme} {es : List Element} (h : Parses p ls es) {x y : List Lexeme}
    (hwhole : whole = x ++ (ls ++ y)) (hp : p = origin.advanceOver (text x)) :
    (∀ n, .expr n ∈ es → ∀ m ∈ n.walk, Q m) ∧ ∀ t, .note t ∈ es → N t := by
  refine h.throughout hQ (fun hx hkind htoken => ?_) hnote (fun hx hp hq hinner hitems hchildren => ?_) hwhole hp
  · exact Node.forall_walk.2 ⟨hleaf hx hkind htoken, by simp [leaf_children]⟩
  · exact Node.forall_walk.2 ⟨hlist hx hp hq hinner hitems, hchildren⟩

/-- A property of kinds and spans that is handed on holds of every node of a document if leaves and lists have it
where they stand. -/
theorem Parses.places {Q : Span → Kind Node → Prop}
    (hQ : Inherited (fun n => ∀ m ∈ n.walk, Q m.span m.kind) fun _ => True) {whole : List Lexeme} {es : List Element}
    (hleaf : ∀ {x y l t}, whole = x ++ ([l] ++ y) → t.kind = .atom ∨ t.kind = .string →
      l.token? (Pos.zero.advanceOver (text x)) = some t → Q (leaf t).span (leaf t).kind)
    (hlist : ∀ {x y b inner es p q}, whole = x ++ (.opening b :: (inner ++ [.closing b]) ++ y) →
      p = Pos.zero.advanceOver (text x) → q = p.advanceOver (text (.opening b :: (inner ++ [.closing b]))) →
      Parses (p.advance b.opener) inner es → (∀ n ∈ Element.attach es, ∀ m ∈ n.walk, Q m.span m.kind) →
      Q ⟨p, q⟩ (recognise (Element.attach es)))
    (h : Parses .zero whole es) : ∀ n ∈ (Element.attach es).flatMap Node.walk, Q n.span n.kind := by
  have hexprs := (h.everywhere hQ hleaf (fun _ => trivial) hlist (show whole = [] ++ (whole ++ []) by simp) rfl).1
  intro n hn
  obtain ⟨root, hroot, hn⟩ := List.mem_flatMap.1 hn
  exact Element.attach_all (fun _ _ hn ht => hQ.hang hn ht) hexprs (fun _ _ => trivial) root hroot n hn

end Reader

end TreeEdit
