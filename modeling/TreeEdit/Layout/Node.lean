import TreeEdit.Layout.Doc
import TreeEdit.Node.Basic

/-!
# The layout of nodes

A comment stands on the lines above its node. An application breaks with its arguments indented
under the function; a special form keeps its first part on the line of the keyword; a bracketed
list breaks with its items aligned after the bracket. A function header shows the function's name
and its parameters in one list.
-/

namespace TreeEdit

namespace Layout

/-- The indentation of arguments and bodies. -/
def bodyIndent : Nat := 2

/-- Items, each after a place to break. -/
def broken (items : List Doc) : Doc := .concat (items.flatMap fun d => [.line, d])

/-- A head with its items indented under it. -/
def application (head : Doc) (items : List Doc) : Doc :=
  .group (.concat [.text "(", head, .nest bodyIndent (broken items), .text ")"])

/-- A keyword with the first item on its line and the others indented under it. -/
def form (keyword : String) : List Doc → Doc
  | [] => application (.text keyword) []
  | first :: rest =>
    .group (.concat [.text "(", .text keyword,
      .nest bodyIndent (.concat [.text " ", first, broken rest]), .text ")"])

/-- Items in brackets, aligned after the opening one. -/
def bracketed (opener closer : String) (items : List Doc) : Doc :=
  .group (.concat [.text opener, .nest 1 (.join items .line), .text closer])

/-- Items in round brackets. -/
def round (items : List Doc) : Doc := bracketed "(" ")" items

/-- Items in square brackets. -/
def square (items : List Doc) : Doc := bracketed "[" "]" items

/-- The lines of a comment. -/
def comment (text : String) : Doc := .join ((linesOf text).map .text) .hardLine

/-- A node as it stands on its own, and as part of a function header: an identifier list gives its
identifiers, any other node itself. -/
structure Printed where
  whole : Doc
  header : List Doc

/-- The layout of a kind, from its printed children. -/
def kind : Kind Printed → Doc
  | .literal value _ => .text value
  | .blank | .vacated => .text "..."
  | .pasted text => .text text
  | .app func args => application func.whole (args.map Printed.whole)
  | .identifiers ids => round (ids.map Printed.whole)
  | .variableDef name body => form "define" [name.whole, body.whole]
  | .functionDef name params body =>
    form "define" [round (name.whole :: params.header), body.whole]
  | .lambda args body => form "lambda" [args.whole, body.whole]
  | .structDef name fields => form "define-struct" [name.whole, fields.whole]
  | .conditional test yes no =>
    form "if" (test.whole :: yes.whole :: (no.map Printed.whole).toList)
  | .cond clauses => application (.text "cond") (clauses.map Printed.whole)
  | .clause test body => square (test.whole :: body.map Printed.whole)
  | .letIn letForm bindings body =>
    form letForm.keyword [round (bindings.map Printed.whole), body.whole]
  | .binding name value => square [name.whole, value.whole]
  | .guarded whenForm predicate exprs =>
    form whenForm.keyword (predicate.whole :: exprs.map Printed.whole)
  | .sequence exprs => application (.text "begin") (exprs.map Printed.whole)
  | .unknown elts => round (elts.map Printed.whole)

/-- A document under the comment of its node. -/
def underComment (c : Option Comment) (d : Doc) : Doc :=
  match c with
  | none => d
  | some c => .concat [comment c.text, .hardLine, d]

/-- One node, from its printed children. -/
def step (n : Node) (below : Kind Printed) : Printed :=
  let whole := underComment n.comment (kind below)
  match below with
  | .identifiers ids => ⟨whole, ids.map Printed.whole⟩
  | _ => ⟨whole, [whole]⟩

end Layout

/-- The layout of a node with its comment. -/
def Node.doc (n : Node) : Doc := (n.fold Layout.step).whole

/-- The text of a node set in a number of columns. -/
def Node.pretty (n : Node) (width : Nat) : String := joinLines (n.doc.display width)

/-- The text of a document: its roots, each on lines of its own. -/
def prettyRoots (roots : List Node) (width : Nat) : String :=
  joinLines (roots.map (·.pretty width))

end TreeEdit
