import Mathlib.Data.List.Basic
import TreeEdit.Layout.Node
import TreeEdit.Reader.Document

/-!
# Nodes as they are written

`Node.bare` keeps of a node what is written: kinds, texts, slot contents and comment texts at every
level. Identities, spans and fingerprints are dropped. Two nodes with the same bare form are
structurally equal. Printing and the recognition of forms see no more than that, with one exception:
where a comment is moved to a node that has one already, the places of the two decide their order. A
list is `Calm` if no comment has to be moved in it, and then recognition depends on the bare form
alone (`recognise_bare`).
-/

namespace TreeEdit

/-- The text of a comment and nothing else. -/
def Comment.bare (c : Comment) : Comment := ⟨.unassigned, c.text, ⟨.zero, .zero⟩, 0⟩

/-- A node without identities, spans and fingerprints. -/
def Node.bare (n : Node) : Node :=
  n.fold fun n below => ⟨.unassigned, ⟨.zero, .zero⟩, 0, below, n.comment.map Comment.bare⟩

/-! ## The bare form -/

@[simp] theorem Comment.bare_text (c : Comment) : c.bare.text = c.text := rfl

@[simp] theorem Comment.bare_bare (c : Comment) : c.bare.bare = c.bare := rfl

theorem Comment.bare_eq_iff {c d : Comment} : c.bare = d.bare ↔ c.text = d.text := by
  simp [Comment.bare]

namespace Node

theorem bare_eq (n : Node) :
    n.bare = ⟨.unassigned, ⟨.zero, .zero⟩, 0, n.kind.map bare, n.comment.map Comment.bare⟩ := by
  rw [bare, fold_eq]
  rfl

@[simp] theorem bare_kind (n : Node) : n.bare.kind = n.kind.map bare := by rw [bare_eq]

@[simp] theorem bare_comment (n : Node) : n.bare.comment = n.comment.map Comment.bare := by
  rw [bare_eq]

theorem bare_eq_bare_iff {a b : Node} :
    a.bare = b.bare ↔ a.kind.map bare = b.kind.map bare ∧
      a.comment.map Comment.text = b.comment.map Comment.text := by
  rw [bare_eq a, bare_eq b, Node.mk.injEq]
  simp only [true_and]
  refine and_congr_right fun _ => ?_
  cases a.comment <;> cases b.comment <;> simp [Comment.bare_eq_iff]

theorem comment_eq_none_of_bare {a b : Node} (h : a.bare = b.bare) :
    a.comment = none ↔ b.comment = none := by
  have hcomment := (bare_eq_bare_iff.1 h).2
  cases ha : a.comment <;> cases hb : b.comment <;> simp_all

@[simp] theorem bare_bare (n : Node) : n.bare.bare = n.bare := by
  induction n using induct with
  | step n ih =>
      have hkind : (n.kind.map bare).map bare = n.kind.map bare := by
        rw [Kind.map_map]
        exact Kind.map_congr_left ih
      rw [bare_eq n.bare, bare_kind, bare_comment, hkind, bare_eq n, Option.map_map]
      rfl

@[simp] theorem bare_comp_bare : bare ∘ bare = bare := funext bare_bare

@[simp] theorem bare_make (k : Kind Node) (span : Span) :
    (make k span).bare = ⟨.unassigned, ⟨.zero, .zero⟩, 0, k.map bare, none⟩ := by
  rw [bare_eq]
  rfl

@[simp] theorem bare_withComment (n : Node) (c : Option Comment) :
    (n.withComment c).bare = { n.bare with comment := c.map Comment.bare } := by
  rw [bare_eq, bare_eq n]
  rfl

theorem bare_symbol? (n : Node) : n.bare.symbol? = n.symbol? := by
  unfold symbol?
  rw [bare_kind]
  cases n.kind <;> rfl

end Node

/-! ## Printing sees the bare form only -/

/-- A node as it is printed. -/
def Node.printed (n : Node) : Layout.Printed := n.fold Layout.step

theorem Node.printed_eq (n : Node) : n.printed = Layout.step n (n.kind.map printed) := by
  rw [printed, fold_eq]
  rfl

theorem Node.printed_bare (n : Node) : n.bare.printed = n.printed := by
  induction n using Node.induct with
  | step n ih =>
      have hkind : (n.kind.map bare).map printed = n.kind.map printed := by
        rw [Kind.map_map]
        exact Kind.map_congr_left ih
      have hcomment : ∀ d, Layout.underComment (n.comment.map Comment.bare) d =
          Layout.underComment n.comment d := by
        intro d
        cases n.comment <;> rfl
      rw [printed_eq, printed_eq n, bare_kind, hkind]
      unfold Layout.step
      rw [bare_comment, hcomment]

theorem Node.doc_eq_of_bare {a b : Node} (h : a.bare = b.bare) : a.doc = b.doc := by
  have hprinted : a.printed = b.printed := by rw [← printed_bare a, h, printed_bare b]
  exact congrArg Layout.Printed.whole hprinted

/-! ## Recognition sees the bare form only -/

namespace Reader

theorem symbols?_bare (n : Node) : symbols? n.bare = (symbols? n).map (List.map Node.bare) := by
  unfold symbols?
  rw [Node.bare_kind]
  cases n.kind with
  | app func args =>
      simp only [Kind.map, ← List.map_cons, List.all_map, Function.comp_def, Node.bare_symbol?]
      split <;> rfl
  | unknown elts => cases elts <;> rfl
  | _ => rfl

theorem rekind_bare (n : Node) (k : Kind Node) :
    (rekind n k).bare =
      ⟨.unassigned, ⟨.zero, .zero⟩, 0, k.map Node.bare, n.comment.map Comment.bare⟩ := by
  rw [rekind, Node.bare_withComment, Node.bare_make]

theorem rekind_bare_bare (n : Node) (k : Kind Node) :
    (rekind n.bare (k.map Node.bare)).bare = (rekind n k).bare := by
  rw [rekind_bare, rekind_bare, Kind.map_map, Node.bare_comp_bare, Node.bare_comment, Option.map_map]
  rfl

theorem clause?_bare (n : Node) :
    (clause? n.bare).map Node.bare = (clause? n).map Node.bare := by
  unfold clause?
  rw [Node.bare_kind]
  cases n.kind with
  | app test body =>
      exact congrArg some (rekind_bare_bare n (.clause test body))
  | _ => rfl

theorem binding?_bare (n : Node) :
    (binding? n.bare).map Node.bare = (binding? n).map Node.bare := by
  unfold binding?
  rw [Node.bare_kind]
  cases n.kind with
  | app name args =>
      rcases args with _ | ⟨value, _ | ⟨_, _⟩⟩
      · rfl
      · simp only [Kind.map, List.map_cons, List.map_nil, Node.bare_symbol?]
        split
        · exact congrArg some (rekind_bare_bare n (.binding name value))
        · rfl
      · rfl
  | _ => rfl

theorem mapM_bare {f : Node → Option Node}
    (hf : ∀ n, (f n.bare).map Node.bare = (f n).map Node.bare) (ns : List Node) :
    ((ns.map Node.bare).mapM f).map (List.map Node.bare) = (ns.mapM f).map (List.map Node.bare) := by
  induction ns with
  | nil => rfl
  | cons n ns ih =>
      have hn := hf n
      simp only [List.map_cons, List.mapM_cons]
      cases h : f n <;> cases h' : f n.bare <;> simp only [h, h'] at hn ⊢
      · rfl
      · cases hn
      · cases hn
      · cases hs : ns.mapM f <;> cases hs' : (ns.map Node.bare).mapM f <;> simp only [hs, hs'] at ih ⊢
        · rfl
        · cases ih
        · cases ih
        · have hhead := Option.some.inj hn
          have htail := Option.some.inj ih
          simp [hhead, htail]

theorem bindings?_bare (n : Node) :
    (bindings? n.bare).map (List.map Node.bare) = (bindings? n).map (List.map Node.bare) := by
  unfold bindings?
  rw [Node.bare_kind]
  cases n.kind with
  | app func args => exact mapM_bare binding?_bare (func :: args)
  | unknown elts => cases elts <;> rfl
  | _ => rfl

/-- The forms that hang the comment of their second element on another node. -/
def movesComment : Kind Node → Bool
  | .functionDef .. | .letIn .. => true
  | _ => false

/-- A shape that sees no more than the bare form of its elements, unless it moves the comment of the
second one; whether it does is seen from the bare form too. -/
structure SeesBare (shape : List Node → Option (Kind Node)) : Prop where
  moves : ∀ items : List Node,
    (shape (items.map Node.bare)).map movesComment = (shape items).map movesComment
  same : ∀ items : List Node,
    (∀ k ∈ shape items, movesComment k = true → ∀ n ∈ items[1]?, n.comment = none) →
    (shape (items.map Node.bare)).map (Kind.map Node.bare) = (shape items).map (Kind.map Node.bare)

theorem movesComment_map_bare (k : Kind Node) : movesComment (k.map Node.bare) = movesComment k := by
  cases k <;> rfl

/-- A shape that moves no comment and sees the bare form only. -/
theorem SeesBare.of_eq {shape : List Node → Option (Kind Node)}
    (h : ∀ items : List Node, (shape (items.map Node.bare)).map (Kind.map Node.bare) =
      (shape items).map (Kind.map Node.bare)) : SeesBare shape := by
  refine ⟨fun items => ?_, fun items _ => h items⟩
  have hmoves := congrArg (Option.map movesComment) (h items)
  simpa [Option.map_map, Function.comp_def, movesComment_map_bare] using hmoves

theorem addNotes_nil (n : Node) : n.addNotes [] = n := rfl

theorem define?_seesBare : SeesBare define? := by
  constructor
  · intro items
    match items with
    | [_, target, body] =>
        simp only [List.map_cons, List.map_nil, define?, Node.bare_symbol?, symbols?_bare]
        split
        · rfl
        · rcases symbols? target with _ | _ | ⟨name, params⟩ <;> rfl
    | [] | [_] | [_, _] | _ :: _ :: _ :: _ :: _ => rfl
  · intro items hmoves
    match items with
    | [_, target, body] =>
        simp only [List.map_cons, List.map_nil, define?, Node.bare_symbol?, symbols?_bare] at hmoves ⊢
        by_cases hsym : target.symbol?.isSome = true
        · simp [hsym, Kind.map]
        · simp only [hsym] at hmoves ⊢
          rcases hs : symbols? target with _ | _ | ⟨name, params⟩
          · rfl
          · rfl
          · have hcomment : target.comment = none := by simpa [hs, movesComment] using hmoves
            simp [hcomment, addNotes_nil, Kind.map]
    | [] | [_] | [_, _] | _ :: _ :: _ :: _ :: _ => rfl

theorem defineStruct?_seesBare : SeesBare defineStruct? := by
  refine .of_eq fun items => ?_
  match items with
  | [_, name, fields] =>
      simp only [List.map_cons, List.map_nil, defineStruct?, Node.bare_symbol?, symbols?_bare]
      split
      · cases symbols? fields with
        | none => rfl
        | some ids => simpa [Kind.map] using rekind_bare_bare fields (.identifiers ids)
      · rfl
  | [] | [_] | [_, _] | _ :: _ :: _ :: _ :: _ => rfl

theorem lambda?_seesBare : SeesBare lambda? := by
  refine .of_eq fun items => ?_
  match items with
  | [_, args, body] =>
      simp only [List.map_cons, List.map_nil, lambda?, symbols?_bare]
      cases symbols? args with
      | none => rfl
      | some ids => simpa [Kind.map] using rekind_bare_bare args (.identifiers ids)
  | [] | [_] | [_, _] | _ :: _ :: _ :: _ :: _ => rfl

theorem conditional?_seesBare : SeesBare conditional? := by
  refine .of_eq fun items => ?_
  match items with
  | [_, test, yes] => simp [conditional?, Kind.map]
  | [_, test, yes, no] => simp [conditional?, Kind.map]
  | [] | [_] | [_, _] | _ :: _ :: _ :: _ :: _ :: _ => rfl

theorem cond?_seesBare : SeesBare cond? := by
  refine .of_eq fun items => ?_
  have hclauses := mapM_bare clause?_bare (items.drop 1)
  have hcond : Kind.map Node.bare ∘ Kind.cond = Kind.cond ∘ List.map Node.bare := rfl
  simp only [cond?, ← List.map_drop, Option.map_map]
  rw [hcond, ← Option.map_map, hclauses, Option.map_map]

theorem letIn?_seesBare (form : LetForm) : SeesBare (letIn? form) := by
  constructor
  · intro items
    match items with
    | [_, list, body] =>
        have hmoves : ∀ x l b : Node, (letIn? form [x, l, b]).map movesComment =
            (bindings? l).map fun _ => true := by
          intro x l b
          simp only [letIn?]
          rcases bindings? l with _ | _ | ⟨first, rest⟩ <;> rfl
        have hlist := congrArg (Option.map fun _ => true) (bindings?_bare list)
        rw [Option.map_map, Option.map_map] at hlist
        rw [List.map_cons, List.map_cons, List.map_cons, List.map_nil, hmoves, hmoves]
        exact hlist
    | [] | [_] | [_, _] | _ :: _ :: _ :: _ :: _ => rfl
  · intro items hmoves
    match items with
    | [_, list, body] =>
        have hlist := bindings?_bare list
        simp only [List.map_cons, List.map_nil, letIn?] at hmoves ⊢
        cases h : bindings? list <;> cases h' : bindings? list.bare <;>
          simp only [h, h'] at hlist hmoves ⊢
        · cases hlist
        · cases hlist
        · rename_i bs bs'
          have hbs : bs'.map Node.bare = bs.map Node.bare := Option.some.inj hlist
          have hcomment : list.comment = none := by
            cases bs <;> simpa [movesComment] using hmoves
          match bs, bs', hbs with
          | [], [], _ => simp [hcomment, addNotes_nil, Kind.map]
          | b :: bs, b' :: bs', hbs =>
              obtain ⟨hb, hbs⟩ := List.cons.inj hbs
              simp [hcomment, addNotes_nil, Kind.map, hb, hbs]
    | [] | [_] | [_, _] | _ :: _ :: _ :: _ :: _ => rfl

theorem guarded?_seesBare (form : WhenForm) : SeesBare (guarded? form) := by
  refine .of_eq fun items => ?_
  match items with
  | _ :: predicate :: exprs => simp [guarded?, Kind.map]
  | [] | [_] => rfl

theorem form?_seesBare {keyword : String} {shape : List Node → Option (Kind Node)}
    (h : form? keyword = some shape) : SeesBare shape := by
  unfold form? at h
  split at h <;> cases h
  · exact define?_seesBare
  · exact defineStruct?_seesBare
  · exact lambda?_seesBare
  · exact conditional?_seesBare
  · exact cond?_seesBare
  · exact letIn?_seesBare .plain
  · exact letIn?_seesBare .sequential
  · exact letIn?_seesBare .recursive
  · exact guarded?_seesBare .whenTrue
  · exact guarded?_seesBare .unlessTrue
  · exact .of_eq fun items => by simp [Kind.map]

/-- The shape asked for by the first element, if it is a keyword. -/
def shapeOf? (items : List Node) : Option (List Node → Option (Kind Node)) :=
  (items.head?.bind Node.symbol?).bind form?

theorem shapeOf?_bare (items : List Node) : shapeOf? (items.map Node.bare) = shapeOf? items := by
  unfold shapeOf?
  cases items with
  | nil => rfl
  | cons keyword rest => simp [Node.bare_symbol?]

theorem shapeOf?_seesBare {items : List Node} {shape : List Node → Option (Kind Node)}
    (h : shapeOf? items = some shape) : SeesBare shape := by
  obtain ⟨keyword, _, hform⟩ := Option.bind_eq_some_iff.1 h
  exact form?_seesBare hform

theorem recognise_of_none {items : List Node} (h : shapeOf? items = none) :
    recognise items = applicationOf items := by
  unfold recognise
  rw [← shapeOf?, h]

theorem recognise_of_some {items : List Node} {shape : List Node → Option (Kind Node)}
    (h : shapeOf? items = some shape) :
    recognise items =
      (shape (passKeywordComment items)).getD (.unknown (passKeywordComment items)) := by
  unfold recognise
  rw [← shapeOf?, h]

/-- In a list that starts with a keyword and goes on, no comment has to be moved. -/
def Calm (items : List Node) : Prop :=
  ∀ keyword next rest, items = keyword :: next :: rest → (shapeOf? items).isSome →
    keyword.comment = none ∧ (movesComment (recognise items) = true → next.comment = none)

theorem calm_of_none {items : List Node} (h : shapeOf? items = none) : Calm items := by
  intro keyword next rest _ hshape
  simp [h] at hshape

theorem passKeywordComment_of_none {keyword next : Node} {rest : List Node}
    (h : keyword.comment = none) :
    passKeywordComment (keyword :: next :: rest) = keyword :: next :: rest := by
  rw [passKeywordComment, h]

theorem Calm.passKeywordComment {items : List Node} (h : Calm items)
    (hshape : (shapeOf? items).isSome) : passKeywordComment items = items := by
  match items with
  | [] | [_] => rfl
  | keyword :: next :: rest => exact passKeywordComment_of_none (h _ _ _ rfl hshape).1

theorem passKeywordComment_bare {items : List Node} (h : Reader.passKeywordComment items = items) :
    Reader.passKeywordComment (items.map Node.bare) = items.map Node.bare := by
  match items with
  | [] | [_] => rfl
  | keyword :: next :: rest =>
      refine passKeywordComment_of_none ?_
      cases hc : keyword.comment with
      | none => simp [hc]
      | some c =>
          simp only [Reader.passKeywordComment, hc, List.cons.injEq] at h
          rw [← h.1] at hc
          cases hc

theorem recognise_moves_bare {items : List Node} (h : Reader.passKeywordComment items = items) :
    movesComment (recognise (items.map Node.bare)) = movesComment (recognise items) := by
  cases hshape : shapeOf? items with
  | none =>
      rw [recognise_of_none hshape, recognise_of_none ((shapeOf?_bare items).trans hshape)]
      cases items <;> rfl
  | some shape =>
      have hmoves := (shapeOf?_seesBare hshape).moves items
      rw [recognise_of_some hshape, recognise_of_some ((shapeOf?_bare items).trans hshape), h,
        passKeywordComment_bare h]
      cases hk : shape items <;> cases hk' : shape (items.map Node.bare) <;>
        simp_all [movesComment]

theorem Calm.of_bare {items items' : List Node} (h : Calm items)
    (he : items'.map Node.bare = items.map Node.bare) : Calm items' := by
  rintro a' b' cs' rfl hshape
  match items, he with
  | [_], he => simp at he
  | a :: b :: cs, he =>
      have hshape' : (shapeOf? (a :: b :: cs)).isSome := by
        rwa [← shapeOf?_bare, he, shapeOf?_bare] at hshape
      obtain ⟨ha, hb⟩ := h a b cs rfl hshape'
      have hab : a'.bare = a.bare ∧ b'.bare = b.bare := by
        simp only [List.map_cons, List.cons.injEq] at he
        exact ⟨he.1, he.2.1⟩
      have ha' : a'.comment = none := (Node.comment_eq_none_of_bare hab.1).2 ha
      refine ⟨ha', fun hmoves => (Node.comment_eq_none_of_bare hab.2).2 (hb ?_)⟩
      rw [← recognise_moves_bare (passKeywordComment_of_none ha), ← he,
        recognise_moves_bare (passKeywordComment_of_none ha')]
      exact hmoves

/-- A calm list is recognised by its bare form. -/
theorem recognise_bare {items : List Node} (h : Calm items) :
    (recognise (items.map Node.bare)).map Node.bare = (recognise items).map Node.bare := by
  cases hshape : shapeOf? items with
  | none =>
      rw [recognise_of_none hshape, recognise_of_none ((shapeOf?_bare items).trans hshape)]
      cases items <;> simp [applicationOf, Kind.map]
  | some shape =>
      have hpass := h.passKeywordComment (by simp [hshape])
      have hitems := recognise_of_some hshape
      have hbare := recognise_of_some ((shapeOf?_bare items).trans hshape)
      rw [hpass] at hitems
      rw [passKeywordComment_bare hpass] at hbare
      have hsees := (shapeOf?_seesBare hshape).same items ?_
      · rw [hbare, hitems]
        cases hk : shape items <;> cases hk' : shape (items.map Node.bare) <;>
          simp only [hk, hk'] at hsees
        · simp [Kind.map]
        · cases hsees
        · cases hsees
        · exact Option.some.inj hsees
      · intro k hk hmoves n hn
        rcases items with _ | ⟨keyword, _ | ⟨next, rest⟩⟩
        · cases hn
        · cases hn
        · obtain rfl : next = n := Option.some.inj hn
          refine (h keyword next rest rfl (by simp [hshape])).2 ?_
          rw [hitems, Option.mem_def.1 hk]
          exact hmoves

/-- Lists of the same bare form are recognised as the same, if one of them is calm. -/
theorem recognise_congr {items items' : List Node} (h : Calm items)
    (he : items'.map Node.bare = items.map Node.bare) :
    (recognise items').map Node.bare = (recognise items).map Node.bare := by
  rw [← recognise_bare h, ← recognise_bare (h.of_bare he), he]

end Reader

end TreeEdit
