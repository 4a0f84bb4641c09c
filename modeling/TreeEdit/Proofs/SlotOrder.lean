import TreeEdit.Proofs.RootEdits

/-!
# Signs in the order of the slots

Recognition takes lists apart and puts them together again: the keyword of a form loses its node, and so
do the header of a function and the list of bindings of a `let`. None of the code gets lost on the way, and
none changes its place: the signs of the roots, one after the other, are the signs of the text
(`roots_keep_signs_in_order`). The signs of a node are its brackets around those of its children, place by
place, with the keyword and the two lists without a node put back (`Node.signsBySlots`).
-/

namespace TreeEdit

open Reader Lexeme

/-! ## What the reader makes of a list -/

/-- The parameters of a function are a list of identifiers, and nothing is the work of an edit. -/
def Kind.Regular : Kind Node → Prop
  | .functionDef _ params _ => ∃ ids, params.kind = .identifiers ids
  | .pasted _ | .vacated => False
  | _ => True

theorem Kind.Regular.of_raw {k : Kind Node} (h : k.raw.Regular) : k.Regular := by
  cases k with
  | identifiers ids | clause test body | binding name value => trivial
  | _ => exact h

namespace Reader

theorem inherited_regular : Inherited (fun n => ∀ m ∈ n.walk, m.kind.Regular) fun _ => True :=
  .of_places (Q := fun _ k => k.Regular) (fun _ _ h => h.of_raw) fun _ _ _ _ _ => trivial

theorem Formed.regular {keyword : String} {items : List Node} {k : Kind Node} (h : Formed keyword items k) :
    k.Regular := by
  cases h with
  | functionDef header => exact ⟨_, rfl⟩
  | _ => trivial

theorem recognise_regular (items : List Node) : (recognise items).Regular := by
  rcases recognise_cases items with ⟨-, hrec⟩ | ⟨keyword, -, -, hformed | hrec⟩
  · rw [hrec]
    cases items <;> trivial
  · exact hformed.regular
  · rw [hrec]
    trivial

theorem leaf_regular (t : Token) : (leaf t).kind.Regular := by
  unfold leaf Kind.ofAtom
  repeat' split
  all_goals trivial

end Reader

theorem readDocument_regular {text : String} {roots : List Node} (h : readDocument text = .ok roots) :
    ∀ n ∈ Forest.nodes roots, n.kind.Regular := by
  refine List.forall_mem_flatMap.2 (inherited_regular.roots ?_ ?_ h)
  · intro t
    simp [Node.walk_eq, leaf_children, leaf_regular]
  · intro items span hchildren
    exact Node.forall_walk.2 ⟨recognise_regular items, hchildren⟩

/-! ## The signs of a node, place by place -/

/-- The keyword in front of the children of a form. -/
def Kind.keyword? {α : Type} : Kind α → Option String
  | .variableDef .. | .functionDef .. => some "define"
  | .lambda .. => some "lambda"
  | .structDef .. => some "define-struct"
  | .conditional .. => some "if"
  | .cond .. => some "cond"
  | .letIn form .. => some form.keyword
  | .guarded form .. => some form.keyword
  | .sequence .. => some "begin"
  | _ => none

/-- The signs of a list. -/
def bracketed (inside : List Sign) : List Sign := .opening :: (inside ++ [.closing])

/-- The signs that a node should have, from those of its children in the order of their places. The header
of a function and the bindings of a `let` stand in brackets of their own. -/
def Node.signsBySlots (n : Node) : List Sign :=
  match n.kind with
  | .literal value _ => [.word value]
  | .blank | .vacated => [.word blankText]
  | .pasted text => signsOf text
  | .functionDef name params body =>
    bracketed (.word "define" :: (bracketed ((name :: params.children).flatMap flatten) ++ body.flatten))
  | .letIn form bindings body =>
    bracketed (.word form.keyword :: (bracketed (bindings.flatMap flatten) ++ body.flatten))
  | kind => bracketed (kind.keyword?.toList.map .word ++ kind.children.flatMap flatten)

theorem Node.flatten_eq_signsBySlots {n : Node} (h : n.kind.Regular) : n.flatten = n.signsBySlots := by
  rw [flatten_eq, signsBySlots, Kind.shape]
  cases hk : n.kind with
  | functionDef name params body =>
      rw [hk] at h
      obtain ⟨ids, hids⟩ := h
      have hheader : params.header = params.children := by
        simp [header, children, hids, Kind.children, Kind.slots, Slot.nodes]
      simp [Kind.pattern, bracketed, hheader, List.flatMap_def]
  | pasted text =>
      rw [hk] at h
      exact h.elim
  | conditional test yes no =>
      cases no <;> simp [Kind.pattern, bracketed, Kind.children, Kind.slots, Slot.nodes, Kind.keyword?]
  | _ => simp [Kind.pattern, bracketed, List.flatMap_def, Kind.children, Kind.slots, Slot.nodes, Kind.keyword?]

/-- Reading keeps all code in order. The signs of the roots, one root after the other, are those of the
tokens that are no comments, each once; and the signs of a node at any depth are those of its children in
the order of their places, with the keyword and the brackets put back. -/
theorem roots_keep_signs_in_order {text : String} {roots : List Node} (h : readDocument text = .ok roots) :
    (∃ tokens, tokenize text = .ok tokens ∧
      roots.flatMap Node.flatten = tokens.filterMap Token.sign?) ∧
    ∀ n ∈ Forest.nodes roots, n.flatten = n.signsBySlots := by
  refine ⟨?_, fun n hn => Node.flatten_eq_signsBySlots (readDocument_regular h n hn)⟩
  obtain ⟨ls, es, hrun, htext, hes, rfl⟩ := readDocument_eq_ok_iff.1 h
  refine ⟨tokens .zero ls, ?_, ?_⟩
  · rw [tokenize, ← htext]
    exact tokensFrom_run hrun .zero
  · rw [filterMap_sign?_tokens, (parses_of_ok hes).signs_eq]

/-- A function whose header has a comment, with a `let` in square brackets for a body. -/
theorem roots_keep_signs_in_order_nested_forms :
    ∃ roots, readDocument "(define (f x) ; c\n [let ((y \"a\")) (if x ...)])" = .ok roots ∧
      roots.flatMap Node.flatten =
        [.opening, .word "define", .opening, .word "f", .word "x", .closing,
          .opening, .word "let", .opening, .opening, .word "y", .word "\"a\"", .closing, .closing,
            .opening, .word "if", .word "x", .word "...", .closing, .closing, .closing] ∧
      ∀ n ∈ Forest.nodes roots, n.flatten = n.signsBySlots := by
  suffices hlast : ∃ ts es, tokenize "(define (f x) ; c\n [let ((y \"a\")) (if x ...)])" = .ok ts ∧
      elementsFrom ts [] [] = .ok es ∧ ts.filterMap Token.sign? = _ by
    obtain ⟨ts, es, htokens, helements, hsigns⟩ := hlast
    have hread : readDocument "(define (f x) ; c\n [let ((y \"a\")) (if x ...)])" =
        .ok (Element.attach es) := by
      rw [readDocument, htokens]
      exact congrArg (Except.map Element.attach) helements
    obtain ⟨⟨tokens, htokens', hroots⟩, hslots⟩ := roots_keep_signs_in_order hread
    cases htokens'.symm.trans htokens
    exact ⟨_, hread, hroots.trans hsigns, hslots⟩
  refine ⟨?ts, ?es, ?tokens, ?elements, ?signs⟩
  case tokens =>
    cbv
    rfl
  case elements => rfl
  case signs => rfl

end TreeEdit
