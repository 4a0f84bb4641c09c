import Mathlib.Data.List.Forall2
import TreeEdit.Proofs.BareForm

/-!
# What a list is recognised as

A list is an application, a form, or unknown (`recognise_cases`). `Formed` says of each form, by its keyword,
which expressions it is made of, what it asks of them and what becomes of them; it holds exactly of what the
readers of the forms yield (`Formed.of_form?`, `Formed.form?_eq_some`). What is proved of all forms later on is
proved by cases of `Formed`, without opening a reader again.
-/

namespace TreeEdit

theorem Node.kind_of_symbol? {n : Node} {name : String} (h : n.symbol? = some name) :
    n.kind = .literal name .symbol := by
  unfold symbol? at h
  split at h
  · rename_i hkind
    cases h
    exact hkind
  · cases h

namespace Reader

/-! ## Lists inside a form -/

theorem symbols?_eq_some {n : Node} {ids : List Node} (h : symbols? n = some ids) :
    n.kind = applicationOf ids ∧ ∀ i ∈ ids, i.symbol?.isSome := by
  unfold symbols? at h
  split at h
  · rename_i func args hkind
    split at h
    · cases h
      rename_i hall
      exact ⟨hkind, List.all_eq_true.1 hall⟩
    · cases h
  · cases h
    exact ⟨‹_›, by simp⟩
  · cases h

/-- A list of symbols is no symbol itself. -/
theorem symbol?_of_symbols? {n : Node} {ids : List Node} (h : symbols? n = some ids) : n.symbol? = none := by
  rw [Node.symbol?, (symbols?_eq_some h).1]
  cases ids <;> rfl

theorem clause?_eq_some {n c : Node} (h : clause? n = some c) :
    ∃ test body, n.kind = .app test body ∧ c = rekind n (.clause test body) := by
  unfold clause? at h
  split at h
  · cases h
    exact ⟨_, _, ‹_›, rfl⟩
  · cases h

theorem binding?_eq_some {n b : Node} (h : binding? n = some b) :
    ∃ name value, n.kind = .app name [value] ∧ name.symbol?.isSome ∧
      b = rekind n (.binding name value) := by
  unfold binding? at h
  split at h
  · split at h
    · cases h
      exact ⟨_, _, ‹_›, ‹_›, rfl⟩
    · cases h
  · cases h

theorem bindings?_eq_some {n : Node} {bs : List Node} (h : bindings? n = some bs) :
    ∃ items, n.kind = applicationOf items ∧ items.mapM binding? = some bs := by
  unfold bindings? at h
  split at h
  · exact ⟨_, ‹_›, h⟩
  · cases h
    exact ⟨[], ‹_›, rfl⟩
  · cases h

theorem forall₂_of_mapM {f : Node → Option Node} {ns ms : List Node} (h : ns.mapM f = some ms) :
    List.Forall₂ (fun n m => f n = some m) ns ms := by
  induction ns generalizing ms with
  | nil => cases h; exact .nil
  | cons n ns ih =>
      simp only [List.mapM_cons, Option.bind_eq_bind, Option.bind_eq_some_iff, Option.pure_def,
        Option.some.injEq] at h
      obtain ⟨m, hm, ms', hms, rfl⟩ := h
      exact .cons hm (ih hms)

theorem exists_of_mapM {f : Node → Option Node} {ns ms : List Node} (h : ns.mapM f = some ms) {m : Node}
    (hm : m ∈ ms) : ∃ n ∈ ns, f n = some m := by
  have hall := forall₂_of_mapM h
  clear h
  induction hall with
  | nil => cases hm
  | @cons n m' ns ms hn _ ih =>
      rcases List.mem_cons.1 hm with rfl | hm
      · exact ⟨n, List.mem_cons_self, hn⟩
      · obtain ⟨l, hl, hf⟩ := ih hm
        exact ⟨l, List.mem_cons_of_mem _ hl, hf⟩

/-! ## Forms -/

/-- What a form makes of the expressions of a list, by its keyword. The keyword is among the expressions; its
comment has been passed on. -/
inductive Formed : String → List Node → Kind Node → Prop
  | variableDef {head name body : Node} (symbol : name.symbol?.isSome) :
      Formed "define" [head, name, body] (.variableDef name body)
  | functionDef {head target name body : Node} {params : List Node}
      (header : symbols? target = some (name :: params)) :
      Formed "define" [head, target, body]
        (.functionDef (name.addNotes (target.comment.map Comment.note).toList)
          (.make (.identifiers params) (paramsSpan name params)) body)
  | structDef {head name fields : Node} {ids : List Node} (symbol : name.symbol?.isSome)
      (list : symbols? fields = some ids) :
      Formed "define-struct" [head, name, fields] (.structDef name (rekind fields (.identifiers ids)))
  | lambda {head args body : Node} {ids : List Node} (list : symbols? args = some ids) :
      Formed "lambda" [head, args, body] (.lambda (rekind args (.identifiers ids)) body)
  | oneArm {head test yes : Node} : Formed "if" [head, test, yes] (.conditional test yes none)
  | twoArms {head test yes no : Node} : Formed "if" [head, test, yes, no] (.conditional test yes (some no))
  | cond {items clauses : List Node} (all : (items.drop 1).mapM clause? = some clauses) :
      Formed "cond" items (.cond clauses)
  | letNothing (form : LetForm) {head list body : Node} (empty : bindings? list = some []) :
      Formed form.keyword [head, list, body]
        (.letIn form [] (body.addNotes (list.comment.map Comment.note).toList))
  | letIn (form : LetForm) {head list body first : Node} {rest : List Node}
      (bound : bindings? list = some (first :: rest)) :
      Formed form.keyword [head, list, body]
        (.letIn form (first.addNotes (list.comment.map Comment.note).toList :: rest) body)
  | guarded (form : WhenForm) {head predicate : Node} {exprs : List Node} :
      Formed form.keyword (head :: predicate :: exprs) (.guarded form predicate exprs)
  | sequence {items : List Node} : Formed "begin" items (.sequence (items.drop 1))

theorem form?_letForm (form : LetForm) : form? form.keyword = some (letIn? form) := by
  cases form <;> rfl

theorem form?_whenForm (form : WhenForm) : form? form.keyword = some (guarded? form) := by
  cases form <;> rfl

namespace Formed

variable {keyword : String} {items : List Node} {k : Kind Node}

theorem of_define? (h : define? items = some k) : Formed "define" items k := by
  unfold define? at h
  split at h
  · split at h
    · cases h
      exact .variableDef ‹_›
    · split at h
      · cases h
        exact .functionDef ‹_›
      · cases h
  · cases h

theorem of_defineStruct? (h : defineStruct? items = some k) : Formed "define-struct" items k := by
  unfold defineStruct? at h
  split at h
  · split at h
    · obtain ⟨ids, hids, rfl⟩ := Option.map_eq_some_iff.1 h
      exact .structDef ‹_› hids
    · cases h
  · cases h

theorem of_lambda? (h : lambda? items = some k) : Formed "lambda" items k := by
  unfold lambda? at h
  split at h
  · obtain ⟨ids, hids, rfl⟩ := Option.map_eq_some_iff.1 h
    exact .lambda hids
  · cases h

theorem of_conditional? (h : conditional? items = some k) : Formed "if" items k := by
  unfold conditional? at h
  split at h
  · cases h
    exact .oneArm
  · cases h
    exact .twoArms
  · cases h

theorem of_cond? (h : cond? items = some k) : Formed "cond" items k := by
  obtain ⟨clauses, hclauses, rfl⟩ := Option.map_eq_some_iff.1 h
  exact .cond hclauses

theorem of_letIn? {form : LetForm} (h : letIn? form items = some k) : Formed form.keyword items k := by
  unfold letIn? at h
  split at h
  · simp only at h
    split at h
    · cases h
    · cases h
      exact .letNothing form ‹_›
    · cases h
      exact .letIn form ‹_›
  · cases h

theorem of_guarded? {form : WhenForm} (h : guarded? form items = some k) : Formed form.keyword items k := by
  unfold guarded? at h
  split at h
  · cases h
    exact .guarded form
  · cases h

theorem of_form? {shape : List Node → Option (Kind Node)} (hform : form? keyword = some shape)
    (h : shape items = some k) : Formed keyword items k := by
  unfold form? at hform
  split at hform <;> cases hform
  · exact of_define? h
  · exact of_defineStruct? h
  · exact of_lambda? h
  · exact of_conditional? h
  · exact of_cond? h
  · exact of_letIn? h
  · exact of_letIn? h
  · exact of_letIn? h
  · exact of_guarded? h
  · exact of_guarded? h
  · cases h
    exact .sequence

theorem form?_eq_some (h : Formed keyword items k) :
    ∃ shape, form? keyword = some shape ∧ shape items = some k := by
  cases h with
  | variableDef symbol => exact ⟨define?, rfl, if_pos symbol⟩
  | functionDef header =>
      refine ⟨define?, rfl, ?_⟩
      rw [define?, symbol?_of_symbols? header, header]
      rfl
  | structDef symbol list =>
      refine ⟨defineStruct?, rfl, ?_⟩
      rw [defineStruct?, if_pos symbol, list]
      rfl
  | lambda list =>
      refine ⟨lambda?, rfl, ?_⟩
      rw [lambda?, list]
      rfl
  | oneArm => exact ⟨conditional?, rfl, rfl⟩
  | twoArms => exact ⟨conditional?, rfl, rfl⟩
  | cond all => exact ⟨cond?, rfl, Option.map_eq_some_iff.2 ⟨_, all, rfl⟩⟩
  | letNothing form empty => exact ⟨letIn? form, form?_letForm form, by rw [letIn?, empty]⟩
  | letIn form bound => exact ⟨letIn? form, form?_letForm form, by rw [letIn?, bound]⟩
  | guarded form => exact ⟨guarded? form, form?_whenForm form, rfl⟩
  | sequence => exact ⟨_, rfl, rfl⟩

end Formed

/-- The keyword's comment stays where it is, or there is a next expression and it is passed on to that one. -/
theorem passKeywordComment_cases (items : List Node) :
    passKeywordComment items = items ∨
      ∃ keyword next rest c, items = keyword :: next :: rest ∧ keyword.comment = some c ∧
        passKeywordComment items = keyword.withComment none :: next.addNotes [c.note] :: rest := by
  unfold passKeywordComment
  split
  · split
    · exact .inl rfl
    · exact .inr ⟨_, _, _, _, rfl, ‹_›, rfl⟩
  · exact .inl rfl

/-- What a list is recognised as: an application if no keyword is at its head, else the form if it has the shape
of one, else unknown. -/
theorem recognise_cases (items : List Node) :
    (shapeOf? items = none ∧ recognise items = applicationOf items) ∨
      ∃ keyword, items.head?.bind Node.symbol? = some keyword ∧ (shapeOf? items).isSome ∧
        (Formed keyword (passKeywordComment items) (recognise items) ∨
          recognise items = .unknown (passKeywordComment items)) := by
  cases hshape : shapeOf? items with
  | none => exact .inl ⟨rfl, recognise_of_none hshape⟩
  | some shape =>
      obtain ⟨keyword, hhead, hform⟩ := Option.bind_eq_some_iff.1 hshape
      refine .inr ⟨keyword, hhead, rfl, ?_⟩
      rw [recognise_of_some hshape]
      cases hk : shape (passKeywordComment items) with
      | none => exact .inr rfl
      | some k => exact .inl (.of_form? hform hk)

end Reader

end TreeEdit
