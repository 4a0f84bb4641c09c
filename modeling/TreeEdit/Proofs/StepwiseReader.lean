import Mathlib
import TreeEdit.Reader.Document

/-!
# The reader step by step

The reader keeps the brackets that are open on a stack, and a form looks at all of its items at once. Here the
same is done in small steps. A list is read by descent: its elements are read up to the bracket that closes it,
and the lists among them by the same function; the tokens that are left come with the bound for which this ends.
A form first checks its items and then takes them apart, and there it is ready to give back a part of them only.

Both come to the same. What the stack holds below its top is what the descents still under way have read
(`Reader.elementsFrom_eq_readElements`), and a form that took its items apart never gives anything back
(`Reader.keywordShape?_left`). So a document is read as before: `readDocument_eq_readRoots`.
-/

namespace TreeEdit

namespace Reader

/-! ## Forms that give their items back -/

/-- What a form makes of its items: a kind, or the items it gives back. -/
inductive Shape where
  | formed (kind : Kind Node)
  | left (items : List Node)

/-- The kind of a list; what is given back stays unknown. -/
def Shape.kind : Shape → Kind Node
  | formed kind => kind
  | left items => .unknown items

/-- A form that gives back all its items if it does not fit. -/
def Shape.ofForm (form : List Node → Option (Kind Node)) (items : List Node) : Shape :=
  (form items).elim (.left items) .formed

/-- Whether a node is a list of symbols, and not an empty one. -/
def isSymbolList (n : Node) : Bool :=
  match n.kind with
  | .app func args => func.symbol?.isSome && args.all (·.symbol?.isSome)
  | _ => false

/-- The elements of a list. -/
def listElements : Kind Node → List Node
  | .app func args => func :: args
  | .unknown elts => elts
  | _ => []

/-- A definition, its header checked before it is taken apart. -/
def defineShape : List Node → Shape
  | [keyword, target, body] =>
    if target.symbol?.isSome then .formed (.variableDef target body)
    else if !isSymbolList target then .left [keyword, target, body]
    else
      match listElements target.kind with
      | [] => .left [keyword, body]
      | name :: ids =>
        let named := name.addNotes (target.comment.map Comment.note).toList
        .formed (.functionDef named (Node.make (.identifiers ids) (paramsSpan name ids)) body)
  | items => .left items

/-- A conditional, its items counted before they are taken. -/
def conditionalShape (items : List Node) : Shape :=
  if 3 ≤ items.length && items.length ≤ 4 then
    match items.drop 1 with
    | test :: yes :: rest => .formed (.conditional test yes rest.head?)
    | _ => .left []
  else .left items

/-- A guarded sequence, its items counted before they are taken. -/
def guardedShape (form : WhenForm) (items : List Node) : Shape :=
  if items.length < 2 then .left items
  else
    match items.drop 1 with
    | predicate :: exprs => .formed (.guarded form predicate exprs)
    | [] => .left []

/-- The form that a keyword asks for. -/
def keywordShape? (keyword : String) : Option (List Node → Shape) :=
  match keyword with
  | "define" => some defineShape
  | "if" => some conditionalShape
  | "when" => some (guardedShape .whenTrue)
  | "unless" => some (guardedShape .unlessTrue)
  | keyword => (form? keyword).map Shape.ofForm

theorem defineShape_eq (items : List Node) : defineShape items = .ofForm define? items := by
  unfold defineShape
  split
  · rename_i keyword target body
    simp only [Shape.ofForm, define?]
    split
    · rfl
    · -- A list of symbols that is not empty has a name, so a header without one is not taken apart.
      cases hk : target.kind with
      | app func args =>
          by_cases hsymbols : func.symbol?.isSome && args.all (·.symbol?.isSome)
          · simp [isSymbolList, symbols?, listElements, hk, hsymbols]
          · simp [isSymbolList, symbols?, hk, hsymbols]
      | unknown elts => cases elts <;> simp [isSymbolList, symbols?, hk]
      | _ => simp [isSymbolList, symbols?, hk]
  · rename_i hne
    rw [Shape.ofForm, define?]
    · rfl
    · exact hne

theorem conditionalShape_eq (items : List Node) : conditionalShape items = .ofForm conditional? items := by
  rcases items with _ | ⟨a, _ | ⟨b, _ | ⟨c, _ | ⟨d, _ | ⟨e, rest⟩⟩⟩⟩⟩
  all_goals simp [conditionalShape, Shape.ofForm, conditional?]

theorem guardedShape_eq (form : WhenForm) (items : List Node) :
    guardedShape form items = .ofForm (guarded? form) items := by
  rcases items with _ | ⟨a, _ | ⟨b, rest⟩⟩
  all_goals simp [guardedShape, Shape.ofForm, guarded?]

theorem keywordShape?_eq (keyword : String) : keywordShape? keyword = (form? keyword).map Shape.ofForm := by
  unfold keywordShape?
  split
  · exact congrArg some (funext defineShape_eq)
  · exact congrArg some (funext conditionalShape_eq)
  · exact congrArg some (funext (guardedShape_eq .whenTrue))
  · exact congrArg some (funext (guardedShape_eq .unlessTrue))
  · rfl

/-- A form that does not fit gives back all its items. -/
theorem keywordShape?_left {keyword : String} {shape : List Node → Shape} (h : keywordShape? keyword = some shape)
    {items given : List Node} (hleft : shape items = .left given) : given = items := by
  rw [keywordShape?_eq] at h
  obtain ⟨form, -, rfl⟩ := Option.map_eq_some_iff.1 h
  cases hform : form items with
  | none => simpa [Shape.ofForm, hform, eq_comm] using hleft
  | some kind => simp [Shape.ofForm, hform] at hleft

/-- The kind of a list with these expressions. -/
def classify (items : List Node) : Kind Node :=
  match (items.head?.bind Node.symbol?).bind keywordShape? with
  | none => applicationOf items
  | some shape => (shape (passKeywordComment items)).kind

theorem classify_eq_recognise (items : List Node) : classify items = recognise items := by
  have hkeyword : (items.head?.bind Node.symbol?).bind keywordShape? =
      ((items.head?.bind Node.symbol?).bind form?).map Shape.ofForm := by
    rw [Option.map_bind]
    exact congrArg _ (funext keywordShape?_eq)
  unfold classify recognise
  rw [hkeyword]
  cases (items.head?.bind Node.symbol?).bind form? with
  | none => rfl
  | some form =>
      cases hform : form (passKeywordComment items) <;> simp [Shape.ofForm, Shape.kind, hform]

/-! ## Lists read by descent -/

/-- What was read of some tokens: elements in order, the place where they end, and the tokens behind them. -/
structure Portion (ts : List Token) where
  elements : List Element
  stop : Pos
  rest : List Token
  bounded : rest.length ≤ ts.length

/-- The same seen from earlier tokens. -/
def Portion.widen {ts us : List Token} (r : Portion us) (h : us.length ≤ ts.length) : Portion ts :=
  { r with bounded := Nat.le_trans r.bounded h }

/-- The elements up to the bracket that closes the one that is open, or all if none is open; `last` is where the
tokens end. -/
def readElements (last : Pos) (opened : Option (Bracket × Pos)) (ts : List Token) (elements : List Element) :
    Except ReadError (Portion ts) :=
  match ts with
  | [] =>
    match opened with
    | some (b, start) => .error ⟨.unclosed b, start⟩
    | none => .ok ⟨elements, last, [], Nat.le_refl _⟩
  | t :: ts =>
    match t.kind with
    | .opening b =>
      match readElements last (some (b, t.span.start)) ts [] with
      | .error e => .error e
      | .ok inner =>
        have := inner.bounded
        let node := Node.make (classify (Element.attach inner.elements)) ⟨t.span.start, inner.stop⟩
        (readElements last opened inner.rest (elements ++ [.expr node])).map (·.widen (Nat.le_succ_of_le inner.bounded))
    | .closing b =>
      match opened with
      | some (b', _) =>
        if b' = b then .ok ⟨elements, t.span.stop, ts, Nat.le_succ _⟩
        else .error ⟨.mismatched b' b, t.span.start⟩
      | none => .error ⟨.unexpected b, t.span.start⟩
    | .comment =>
      (readElements last opened ts (elements ++ [.note ⟨t.span, t.text⟩])).map (·.widen (Nat.le_succ _))
    | .atom | .string => (readElements last opened ts (elements ++ [.expr (leaf t)])).map (·.widen (Nat.le_succ _))
termination_by ts.length

/-- The bracket of a frame, as a descent is told of it. -/
def Frame.opening (f : Frame) : Bracket × Pos := (f.bracket, f.start)

/-- What the stack goes on with when its innermost list was read by descent. -/
def resume {ts : List Token} (r : Portion ts) : List Frame → Except ReadError (List Element)
  | [] => .ok r.elements
  | f :: stack => elementsFrom r.rest stack (.expr (list r.elements.reverse ⟨f.start, r.stop⟩) :: f.before)

theorem bind_resume_widen {ts us : List Token} (x : Except ReadError (Portion us)) (h : us.length ≤ ts.length)
    (stack : List Frame) : (x.map (·.widen h)).bind (resume · stack) = x.bind (resume · stack) := by
  cases x with
  | error e => rfl
  | ok r => cases stack <;> rfl

theorem eq_cons_of_opening {stack : List Frame} {b : Bracket} {start : Pos}
    (h : stack.head?.map Frame.opening = some (b, start)) : ∃ before below, stack = ⟨b, start, before⟩ :: below := by
  obtain ⟨⟨b', start', before⟩, hf, heq⟩ := Option.map_eq_some_iff.1 h
  obtain ⟨below, rfl⟩ := List.head?_eq_some_iff.1 hf
  cases heq
  exact ⟨before, below, rfl⟩

/-- The innermost list on the stack is read by descent, and then the stack goes on. -/
theorem elementsFrom_eq_readElements (last : Pos) (stack : List Frame) (ts : List Token) (elements : List Element) :
    elementsFrom ts stack elements.reverse =
      (readElements last (stack.head?.map Frame.opening) ts elements).bind (resume · stack) := by
  generalize hopened : stack.head?.map Frame.opening = opened
  fun_induction readElements last opened ts elements generalizing stack with
  | case1 elements b start =>
      obtain ⟨before, below, rfl⟩ := eq_cons_of_opening hopened
      rfl
  | case2 elements =>
      obtain rfl : stack = [] := by simpa using hopened
      simp [elementsFrom, Except.bind, resume]
  | case3 opened elements t ts b hkind e hinner ih =>
      rw [elementsFrom, hkind]
      simp only
      rw [← List.reverse_nil, ih (⟨b, t.span.start, elements.reverse⟩ :: stack) rfl, hinner]
      rfl
  | case4 opened elements t ts b hkind inner hinner hbounded node ih ih' =>
      -- The list goes on the stack; its descent is resumed by the one it was met in.
      rw [elementsFrom, hkind, bind_resume_widen, ← ih' stack hopened]
      simp only
      rw [← List.reverse_nil, ih (⟨b, t.span.start, elements.reverse⟩ :: stack) rfl, hinner]
      simp [Except.bind, resume, list, node, classify_eq_recognise]
  | case5 elements t ts b start hkind =>
      obtain ⟨before, below, rfl⟩ := eq_cons_of_opening hopened
      simp [elementsFrom, hkind, Except.bind, resume]
  | case6 elements t ts b hkind b' start hne =>
      obtain ⟨before, below, rfl⟩ := eq_cons_of_opening hopened
      simp [elementsFrom, hkind, hne, Except.bind]
  | case7 elements t ts b hkind =>
      obtain rfl : stack = [] := by simpa using hopened
      simp [elementsFrom, hkind, Except.bind]
  | case8 opened elements t ts hkind ih
  | case9 opened elements t ts hkind ih
  | case10 opened elements t ts hkind ih =>
      rw [elementsFrom, hkind, bind_resume_widen, ← ih stack hopened, List.reverse_append]
      rfl

/-- The roots of a document, read by descent. -/
def readRoots (tokens : List Token) : Except ReadError (List Node) :=
  (readElements ((tokens.getLast?.map (·.span.stop)).getD .zero) none tokens []).map fun r => Element.attach r.elements

end Reader

open Reader in
/-- Reading with a stack is reading by descent. -/
theorem readDocument_eq_readRoots (text : String) : readDocument text = (tokenize text).bind readRoots := by
  unfold readDocument
  cases tokenize text with
  | error e => rfl
  | ok tokens =>
      have hdescent := elementsFrom_eq_readElements ((tokens.getLast?.map (·.span.stop)).getD .zero) [] tokens []
      simp only [List.reverse_nil, List.head?_nil, Option.map_none] at hdescent
      simp only [Except.bind, readRoots, hdescent]
      cases readElements _ none tokens [] <;> rfl

end TreeEdit
