import TreeEdit.Proofs.ReadBack

/-!
# The signs of a text and of a node

A sign is a token without its place. Comments are not signs, and the two shapes of brackets are not
told apart, so the signs of a text are what it says, whatever its layout. `Kind.pattern` gives the
signs of a kind with its parts left open, and `Node.flatten` fills the parts in.

A run of lexemes is `Balanced` if every bracket in it is closed by one of its shape. The reader asks
for nothing else: `exists_elements_iff`.
-/

namespace TreeEdit

open Reader

/-- A bracket or a word. -/
inductive Sign where
  | opening
  | closing
  | word (text : String)
deriving DecidableEq, Repr

/-- The sign of a token; a comment has none. -/
def Token.sign? (t : Token) : Option Sign :=
  match t.kind with
  | .opening _ => some .opening
  | .closing _ => some .closing
  | .atom | .string => some (.word t.text)
  | .comment => none

/-- The signs of a text; none if it cannot be scanned. -/
def signsOf (text : String) : List Sign :=
  match tokenize text with
  | .ok tokens => tokens.filterMap Token.sign?
  | .error _ => []

namespace Lexeme

/-- The sign of a lexeme; blanks and comments have none. -/
def sign? : Lexeme → Option Sign
  | blank _ | comment _ => none
  | opening _ => some .opening
  | closing _ => some .closing
  | atom cs => some (.word (String.ofList cs))
  | string body => some (.word (String.ofList ('"' :: body)))

/-- The signs of a run of lexemes. -/
def signs (ls : List Lexeme) : List Sign := ls.filterMap sign?

@[simp] theorem signs_nil : signs [] = [] := rfl

theorem signs_cons (l : Lexeme) (ls : List Lexeme) : signs (l :: ls) = l.sign?.toList ++ signs ls := by
  rw [signs, List.filterMap_cons]
  cases l.sign? <;> rfl

@[simp] theorem signs_append (a b : List Lexeme) : signs (a ++ b) = signs a ++ signs b :=
  List.filterMap_append

@[simp] theorem signs_blanks (cs : List Char) : signs (blanks cs) = [] := by
  induction cs with
  | nil => rfl
  | cons c cs ih => exact ih

theorem filterMap_sign?_tokens (p : Pos) (ls : List Lexeme) :
    (tokens p ls).filterMap Token.sign? = signs ls := by
  induction ls generalizing p with
  | nil => rfl
  | cons l ls ih =>
      rw [tokens, List.filterMap_append, ih, signs_cons]
      cases l <;> rfl

theorem signsOf_text {ls : List Lexeme} (h : Run ls) : signsOf (String.ofList (text ls)) = signs ls := by
  have htokens : tokenize (String.ofList (text ls)) = .ok (tokens .zero ls) := by
    rw [tokenize, String.toList_ofList]
    exact tokensFrom_run h .zero
  rw [signsOf, htokens]
  exact filterMap_sign?_tokens .zero ls

/-! ## Brackets -/

/-- The brackets that are open after a run, innermost first, given those open before it; `none` if a
bracket in it does not close the innermost open one. -/
def openAfter : List Lexeme → List Bracket → Option (List Bracket)
  | [], opened => some opened
  | opening b :: ls, opened => openAfter ls (b :: opened)
  | closing b :: ls, c :: opened => if c = b then openAfter ls opened else none
  | closing _ :: _, [] => none
  | _ :: ls, opened => openAfter ls opened

/-- Every bracket is closed, and none from before is. -/
def Balanced (ls : List Lexeme) : Prop := ∀ opened, openAfter ls opened = some opened

theorem openAfter_append (a b : List Lexeme) (opened : List Bracket) :
    openAfter (a ++ b) opened = (openAfter a opened).bind (openAfter b) := by
  fun_induction openAfter a opened with
  | case1 opened => rfl
  | case2 opened c ls ih => exact ih
  | case3 ls c opened ih =>
      rw [List.cons_append, openAfter, if_pos rfl, ih]
  | case4 c ls d opened h => rw [List.cons_append, openAfter, if_neg h, Option.bind_none]
  | case5 c ls => rfl
  | case6 l ls opened h1 h2 h3 ih =>
      rw [← ih, List.cons_append]
      cases l with
      | opening c => exact absurd rfl (h1 c)
      | closing c =>
          cases opened with
          | nil => exact absurd rfl (h3 c rfl)
          | cons d opened => exact absurd rfl (h2 c d opened rfl)
      | _ => rfl

theorem Balanced.nil : Balanced [] := fun _ => rfl

theorem Balanced.append {a b : List Lexeme} (ha : Balanced a) (hb : Balanced b) : Balanced (a ++ b) := by
  intro opened
  rw [openAfter_append, ha, Option.bind_some, hb]

theorem Balanced.list {ls : List Lexeme} (h : Balanced ls) (b : Bracket) :
    Balanced (opening b :: (ls ++ [closing b])) := by
  intro opened
  rw [openAfter, openAfter_append, h, Option.bind_some, openAfter, if_pos rfl]
  rfl

theorem openAfter_of_sign?_eq_none {l : Lexeme} (h : l.sign? = none) (ls : List Lexeme)
    (opened : List Bracket) : openAfter (l :: ls) opened = openAfter ls opened := by
  cases l with
  | blank c => rfl
  | comment body => rfl
  | _ => cases h

theorem balanced_of_signs_eq_nil {ls : List Lexeme} (h : signs ls = []) : Balanced ls := by
  intro opened
  induction ls with
  | nil => rfl
  | cons l ls ih =>
      rw [signs_cons, List.append_eq_nil_iff, Option.toList_eq_nil_iff] at h
      rw [openAfter_of_sign?_eq_none h.1, ih h.2]

/-- Brackets open before a run do not matter to it. -/
theorem openAfter_append_right {ls : List Lexeme} {opened after : List Bracket}
    (h : openAfter ls opened = some after) (outer : List Bracket) :
    openAfter ls (opened ++ outer) = some (after ++ outer) := by
  fun_induction openAfter ls opened with
  | case1 opened => cases h; rfl
  | case2 opened c ls ih => exact ih h
  | case3 ls c opened ih =>
      rw [List.cons_append, openAfter, if_pos rfl]
      exact ih h
  | case4 c ls d opened hne => cases h
  | case5 c ls => cases h
  | case6 l ls opened h1 h2 h3 ih =>
      cases l with
      | opening c => exact absurd rfl (h1 c)
      | closing c =>
          cases opened with
          | nil => exact absurd rfl (h3 c rfl)
          | cons d opened => exact absurd rfl (h2 c d opened rfl)
      | _ => exact ih h

theorem balanced_iff {ls : List Lexeme} : Balanced ls ↔ openAfter ls [] = some [] := by
  constructor
  · intro h
    exact h []
  · intro h opened
    exact openAfter_append_right h opened

/-- The reader takes exactly the runs that close all their brackets. -/
theorem exists_elements_iff {ls : List Lexeme} (stack : List Frame) (p : Pos) (elements : List Element) :
    (∃ es, elementsFrom (tokens p ls) stack elements = .ok es) ↔
      openAfter ls (stack.map Frame.bracket) = some [] := by
  induction ls generalizing stack p elements with
  | nil =>
      cases stack with
      | nil => simp [tokens, elementsFrom, openAfter]
      | cons f stack => simp [tokens, elementsFrom, openAfter]
  | cons l ls ih =>
      cases l with
      | blank c => exact ih stack _ elements
      | opening b => exact ih (⟨b, p, elements⟩ :: stack) _ []
      | closing b =>
          cases stack with
          | nil => simp [tokens, token?, Token.ofChars, elementsFrom, openAfter]
          | cons f stack =>
              simp only [tokens, token?, Option.toList_some, List.singleton_append, elementsFrom,
                Token.ofChars, List.map_cons, openAfter]
              by_cases hb : f.bracket = b
              · simp only [hb, if_true]
                exact ih stack _ _
              · simp [hb]
      | atom cs => exact ih stack _ (.expr (leaf (.ofChars .atom p cs)) :: elements)
      | string body => exact ih stack _ (.expr (leaf (.ofChars .string p ('"' :: body))) :: elements)
      | comment body =>
          exact ih stack _ (.note ⟨⟨p, p.advanceOver (dropBlanksEnd (';' :: body))⟩,
            String.ofList (dropBlanksEnd (';' :: body))⟩ :: elements)

end Lexeme

/-! ## Nodes -/

section Patterns

variable {α β : Type}

/-- A pattern in brackets. -/
def inBrackets (pattern : List (Sign ⊕ β)) : List (Sign ⊕ β) :=
  .inl .opening :: (pattern ++ [.inl .closing])

/-- A pattern behind a keyword, in brackets. -/
def inForm (keyword : String) (pattern : List (Sign ⊕ β)) : List (Sign ⊕ β) :=
  inBrackets (.inl (.word keyword) :: pattern)

/-- The signs of a kind, with places for its parts. A part is taken as a whole, but the parameters of
a function as what they add to its header. -/
def Kind.pattern (whole : α → β) (header : α → List β) : Kind α → List (Sign ⊕ β)
  | .literal value _ => [.inl (.word value)]
  | .blank | .vacated => [.inl (.word blankText)]
  | .pasted text => (signsOf text).map .inl
  | .app func args => inBrackets (.inr (whole func) :: args.map (.inr ∘ whole))
  | .identifiers ids => inBrackets (ids.map (.inr ∘ whole))
  | .variableDef name body => inForm "define" [.inr (whole name), .inr (whole body)]
  | .functionDef name params body =>
    inForm "define" (inBrackets (.inr (whole name) :: (header params).map .inr) ++ [.inr (whole body)])
  | .lambda args body => inForm "lambda" [.inr (whole args), .inr (whole body)]
  | .structDef name fields => inForm "define-struct" [.inr (whole name), .inr (whole fields)]
  | .conditional test yes no =>
    inForm "if" (.inr (whole test) :: .inr (whole yes) :: no.toList.map (.inr ∘ whole))
  | .cond clauses => inForm "cond" (clauses.map (.inr ∘ whole))
  | .clause test body => inBrackets (.inr (whole test) :: body.map (.inr ∘ whole))
  | .letIn form bindings body =>
    inForm form.keyword (inBrackets (bindings.map (.inr ∘ whole)) ++ [.inr (whole body)])
  | .binding name value => inBrackets [.inr (whole name), .inr (whole value)]
  | .guarded form predicate exprs =>
    inForm form.keyword (.inr (whole predicate) :: exprs.map (.inr ∘ whole))
  | .sequence exprs => inForm "begin" (exprs.map (.inr ∘ whole))
  | .unknown elts => inBrackets (elts.map (.inr ∘ whole))

/-- The signs of a pattern, from the signs of its parts. -/
def fill (signs : β → List Sign) (pattern : List (Sign ⊕ β)) : List Sign :=
  pattern.flatMap (Sum.elim (fun s => [s]) signs)

end Patterns

/-- The signs of a node as a whole, and of each node it adds to the header of a function. -/
structure Flat where
  whole : List Sign
  header : List (List Sign)

/-- The signs of a node from those of its children. -/
def Flat.step (_ : Node) (below : Kind Flat) : Flat :=
  let whole := fill id (below.pattern Flat.whole Flat.header)
  match below with
  | .identifiers ids => ⟨whole, ids.map Flat.whole⟩
  | _ => ⟨whole, [whole]⟩

/-- The signs of a node. -/
def Node.flatten (n : Node) : List Sign := (n.fold Flat.step).whole

namespace Kind

/-- The signs of a kind, with places for the nodes that are its parts. -/
def shape (k : Kind Node) : List (Sign ⊕ Node) := k.pattern id Node.header

/-- Whether nodes of the kind stand in brackets. -/
def isList {α : Type} : Kind α → Bool
  | .literal .. | .blank | .pasted .. | .vacated => false
  | _ => true

theorem shape_of_isList {k : Kind Node} (h : k.isList) : ∃ inner, k.shape = inBrackets inner := by
  cases k with
  | literal value type => cases h
  | blank => cases h
  | pasted text => cases h
  | vacated => cases h
  | _ => exact ⟨_, rfl⟩

theorem pattern_map {α β γ : Type} (whole : β → γ) (header : β → List γ) (f : α → β) (k : Kind α) :
    (k.map f).pattern whole header = k.pattern (whole ∘ f) (header ∘ f) := by
  cases k with
  | conditional test yes no => cases no <;> rfl
  | _ => simp [map, pattern, Function.comp_assoc]

theorem map_pattern {α β γ : Type} (whole : α → β) (header : α → List β) (g : β → γ) (k : Kind α) :
    (k.pattern whole header).map (Sum.map id g) = k.pattern (g ∘ whole) (List.map g ∘ header) := by
  cases k <;> simp [pattern, inForm, inBrackets, Function.comp_def]

theorem parts_eq (k : Kind Node) : k.shape.filterMap Sum.getRight? = k.parts := by
  have hnodes : ∀ ns : List Node, (ns.map Sum.inr).filterMap (@Sum.getRight? Sign Node) = ns := by
    intro ns
    simp [List.filterMap_map, Function.comp_def]
  cases k with
  | pasted text => simp [shape, pattern, parts]
  | _ =>
      simp [shape, pattern, parts, inForm, inBrackets, List.filterMap_cons, List.filterMap_append,
        hnodes]

end Kind

section Patterns

variable {β : Type} (signs : β → List Sign)

@[simp] theorem fill_nil : fill signs [] = [] := rfl

@[simp] theorem fill_inl (s : Sign) (pattern : List (Sign ⊕ β)) :
    fill signs (.inl s :: pattern) = s :: fill signs pattern := rfl

@[simp] theorem fill_inr (part : β) (pattern : List (Sign ⊕ β)) :
    fill signs (.inr part :: pattern) = signs part ++ fill signs pattern := rfl

@[simp] theorem fill_append (a b : List (Sign ⊕ β)) :
    fill signs (a ++ b) = fill signs a ++ fill signs b :=
  List.flatMap_append

@[simp] theorem fill_parts (parts : List β) :
    fill signs (parts.map .inr) = (parts.map signs).flatten := by
  rw [fill, List.flatMap_map, ← List.flatMap_def]
  rfl

@[simp] theorem fill_signs (ss : List Sign) : fill signs (ss.map .inl) = ss := by
  rw [fill, List.flatMap_map]
  exact List.flatMap_singleton' ss

@[simp] theorem fill_inBrackets (pattern : List (Sign ⊕ β)) :
    fill signs (inBrackets pattern) = .opening :: (fill signs pattern ++ [.closing]) := by
  simp [inBrackets]

@[simp] theorem fill_inForm (keyword : String) (pattern : List (Sign ⊕ β)) :
    fill signs (inForm keyword pattern) =
      .opening :: ((.word keyword :: fill signs pattern) ++ [.closing]) := by
  simp [inForm]

end Patterns

theorem fill_map {β γ : Type} (signs : γ → List Sign) (g : β → γ) (pattern : List (Sign ⊕ β)) :
    fill signs (pattern.map (Sum.map id g)) = fill (signs ∘ g) pattern := by
  rw [fill, fill, List.flatMap_map]
  congr 1
  funext part
  cases part <;> rfl

theorem Flat.whole_step (n : Node) (below : Kind Flat) :
    (Flat.step n below).whole = fill id (below.pattern Flat.whole Flat.header) := by
  unfold Flat.step
  cases below <;> rfl

theorem Flat.header_step {n : Node} {below : Kind Flat} (h : ∀ ids, below ≠ .identifiers ids) :
    (Flat.step n below).header = [(Flat.step n below).whole] := by
  unfold Flat.step
  cases below with
  | identifiers ids => exact absurd rfl (h ids)
  | _ => rfl

theorem Node.flat_header (n : Node) : (n.fold Flat.step).header = n.header.map flatten := by
  have hother : (∀ ids, n.kind ≠ .identifiers ids) → (n.fold Flat.step).header = [n.flatten] := by
    intro hkind
    rw [flatten, fold_eq, Flat.header_step]
    intro ids
    cases hk : n.kind with
    | identifiers ids => exact absurd hk (hkind ids)
    | _ => simp [Kind.map]
  cases hk : n.kind with
  | identifiers ids =>
      rw [fold_eq, header, hk]
      simp only [Kind.map, Flat.step, List.map_map]
      rfl
  | _ =>
      rw [hother (by simp [hk]), header, hk]
      rfl

/-- The signs of a node are those of its kind, with the signs of its parts filled in. -/
theorem Node.flatten_eq (n : Node) : n.flatten = fill flatten n.kind.shape := by
  have hheader : Flat.header ∘ fold Flat.step = List.map flatten ∘ header := funext flat_header
  have hwhole : Flat.whole ∘ fold Flat.step = flatten := rfl
  have hmap : n.kind.pattern flatten (List.map flatten ∘ header) =
      n.kind.shape.map (Sum.map _ flatten) := (Kind.map_pattern _ header flatten n.kind).symm
  rw [flatten, fold_eq, Flat.whole_step, Kind.pattern_map, hheader, hwhole, hmap, fill_map]
  rfl

end TreeEdit
