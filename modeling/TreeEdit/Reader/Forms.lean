import TreeEdit.Reader.Comments
import TreeEdit.Token.Basic

/-!
# Recognising forms

An atom is a string, a blank, a boolean, a number or a symbol. A list is recognised by the symbol
at its head. A list whose head is no keyword is an application; the empty list, and a list that
starts with a keyword but does not have the shape the keyword asks for, are kept as unknown. So
recognition never fails.

The keyword itself has no node. Its comment moves to the next element, the comment of a function
header moves to the function's name, and the comment of a list of bindings to the first binding,
or to the body if there is none.
-/

namespace TreeEdit

/-- The atom that stands for a missing expression. -/
def blankText : String := "..."

/-- The kind of an atom. -/
def Kind.ofAtom (text : String) : Kind Node :=
  if text == blankText then .blank
  else if text == "#t" || text == "#f" || text == "#true" || text == "#false" then
    .literal text .boolean
  else if Numeral.isNumber text then .literal text .number
  else .literal text .symbol

namespace Reader

/-- A list by its place: the first element applied to the rest. -/
def applicationOf : List Node → Kind Node
  | [] => .unknown []
  | func :: args => .app func args

/-- The comment of the keyword moved to the next element. -/
def passKeywordComment : List Node → List Node
  | keyword :: next :: rest =>
    match keyword.comment with
    | none => keyword :: next :: rest
    | some c => keyword.withComment none :: next.addNotes [c.note] :: rest
  | items => items

/-- The symbols of a list of symbols. -/
def symbols? (n : Node) : Option (List Node) :=
  match n.kind with
  | .app func args => if (func :: args).all (·.symbol?.isSome) then some (func :: args) else none
  | .unknown [] => some []
  | _ => none

/-- The same list under another kind, its comment kept. -/
def rekind (n : Node) (kind : Kind Node) : Node :=
  (Node.make kind n.span).withComment n.comment

/-- From the first to the last parameter, or the end of the name if there are none. -/
def paramsSpan (name : Node) (params : List Node) : Span :=
  match params.head?, params.getLast? with
  | some first, some last => ⟨first.range.start, last.range.stop⟩
  | _, _ => .point name.span.stop

/-- A definition of a variable or a function. -/
def define? : List Node → Option (Kind Node)
  | [_, target, body] =>
    if target.symbol?.isSome then some (.variableDef target body)
    else
      match symbols? target with
      | some (name :: params) =>
        let named := name.addNotes (target.comment.map Comment.note).toList
        let list := Node.make (.identifiers params) (paramsSpan name params)
        some (.functionDef named list body)
      | _ => none
  | _ => none

/-- A definition of a structure. -/
def defineStruct? : List Node → Option (Kind Node)
  | [_, name, fields] =>
    if name.symbol?.isSome then
      (symbols? fields).map fun ids => .structDef name (rekind fields (.identifiers ids))
    else none
  | _ => none

/-- An anonymous function. -/
def lambda? : List Node → Option (Kind Node)
  | [_, args, body] =>
    (symbols? args).map fun ids => .lambda (rekind args (.identifiers ids)) body
  | _ => none

/-- A conditional with one arm or two. -/
def conditional? : List Node → Option (Kind Node)
  | [_, test, yes] => some (.conditional test yes none)
  | [_, test, yes, no] => some (.conditional test yes (some no))
  | _ => none

/-- One clause of a `cond`. -/
def clause? (n : Node) : Option Node :=
  match n.kind with
  | .app test body => some (rekind n (.clause test body))
  | _ => none

/-- A `cond` with any number of clauses. -/
def cond? (items : List Node) : Option (Kind Node) :=
  ((items.drop 1).mapM clause?).map .cond

/-- One binding of a `let`. -/
def binding? (n : Node) : Option Node :=
  match n.kind with
  | .app name [value] =>
    if name.symbol?.isSome then some (rekind n (.binding name value)) else none
  | _ => none

/-- The bindings of a list of bindings. -/
def bindings? (n : Node) : Option (List Node) :=
  match n.kind with
  | .app func args => (func :: args).mapM binding?
  | .unknown [] => some []
  | _ => none

/-- A form that binds variables around a body. -/
def letIn? (form : LetForm) : List Node → Option (Kind Node)
  | [_, list, body] =>
    let notes := (list.comment.map Comment.note).toList
    match bindings? list with
    | none => none
    | some [] => some (.letIn form [] (body.addNotes notes))
    | some (first :: rest) => some (.letIn form (first.addNotes notes :: rest) body)
  | _ => none

/-- A guarded sequence. -/
def guarded? (form : WhenForm) : List Node → Option (Kind Node)
  | _ :: predicate :: exprs => some (.guarded form predicate exprs)
  | _ => none

/-- The shape a keyword asks for; `none` if the symbol is no keyword. -/
def form? (keyword : String) : Option (List Node → Option (Kind Node)) :=
  match keyword with
  | "define" => some define?
  | "define-struct" => some defineStruct?
  | "lambda" => some lambda?
  | "if" => some conditional?
  | "cond" => some cond?
  | "let" => some (letIn? .plain)
  | "let*" => some (letIn? .sequential)
  | "letrec" => some (letIn? .recursive)
  | "when" => some (guarded? .whenTrue)
  | "unless" => some (guarded? .unlessTrue)
  | "begin" => some fun items => some (.sequence (items.drop 1))
  | _ => none

/-- The kind of a list with these expressions. -/
def recognise (items : List Node) : Kind Node :=
  match (items.head?.bind Node.symbol?).bind form? with
  | none => applicationOf items
  | some shape =>
    let items := passKeywordComment items
    (shape items).getD (.unknown items)

end Reader

end TreeEdit
