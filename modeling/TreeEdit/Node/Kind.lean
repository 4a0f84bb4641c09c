/-!
# Kinds of nodes and their slots

A document is made of literals, applications and a closed set of special forms. `Kind α` says what
a node is, with its children of type `α` in named places: a required place holds one child, an
optional one at most one, a list any number. Leaving the type of children open makes a kind a
container: `map`, `mapIdx` and `mapM` replace the children and keep the kind, and `children` lists
them from left to right.

Main statements: the children after `map` and `mapIdx` are the children before, mapped.
-/

namespace TreeEdit

universe u v w

/-- The type of a literal. -/
inductive LiteralType where
  | number
  | string
  | boolean
  | symbol
deriving DecidableEq, Repr

/-- The name of a literal type in listings. -/
def LiteralType.name : LiteralType → String
  | number => "Number"
  | string => "String"
  | boolean => "Boolean"
  | symbol => "Symbol"

/-- The three forms that bind variables around a body. -/
inductive LetForm where
  | plain
  | sequential
  | recursive
deriving DecidableEq, Repr

namespace LetForm

/-- The head symbol of the form. -/
def keyword : LetForm → String
  | plain => "let"
  | sequential => "let*"
  | recursive => "letrec"

/-- The name of the form in listings. -/
def name : LetForm → String
  | plain => "Let"
  | sequential => "LetStar"
  | recursive => "Letrec"

end LetForm

/-- The two forms that guard a sequence of expressions. -/
inductive WhenForm where
  | whenTrue
  | unlessTrue
deriving DecidableEq, Repr

namespace WhenForm

/-- The head symbol of the form. -/
def keyword : WhenForm → String
  | whenTrue => "when"
  | unlessTrue => "unless"

/-- The name of the form in listings. -/
def name : WhenForm → String
  | whenTrue => "When"
  | unlessTrue => "Unless"

end WhenForm

/-- What a node is, over children of type `α`. The last two kinds stand only in copies under
edit: text put in by an edit, and the place of a required child that an edit took away. -/
inductive Kind (α : Type u) where
  | literal (value : String) (type : LiteralType)
  | blank
  | app (func : α) (args : List α)
  | identifiers (ids : List α)
  | variableDef (name body : α)
  | functionDef (name params body : α)
  | lambda (args body : α)
  | structDef (name fields : α)
  | conditional (test yes : α) (no : Option α)
  | cond (clauses : List α)
  | clause (test : α) (body : List α)
  | letIn (form : LetForm) (bindings : List α) (body : α)
  | binding (name value : α)
  | guarded (form : WhenForm) (predicate : α) (exprs : List α)
  | sequence (exprs : List α)
  | unknown (elts : List α)
  | pasted (text : String)
  | vacated
deriving DecidableEq, Repr

/-- A named place of a kind with what it holds. -/
inductive Slot (α : Type u) where
  | required (field : String) (node : α)
  | optional (field : String) (node : Option α)
  | list (field : String) (nodes : List α)
deriving Repr

namespace Slot

variable {α : Type u}

/-- The name of the place. -/
def field : Slot α → String
  | required f _ => f
  | optional f _ => f
  | list f _ => f

/-- What the place holds, from left to right. -/
def nodes : Slot α → List α
  | required _ n => [n]
  | optional _ n => n.toList
  | list _ ns => ns

end Slot

namespace Kind

variable {α : Type u} {β : Type v}

/-- The name of a kind in listings. -/
def name : Kind α → String
  | literal .. => "Literal"
  | blank => "Blank"
  | app .. => "FunctionApp"
  | identifiers .. => "IdentifierList"
  | variableDef .. => "VariableDefinition"
  | functionDef .. => "FunctionDefinition"
  | lambda .. => "Lambda"
  | structDef .. => "StructDefinition"
  | conditional .. => "If"
  | cond .. => "Cond"
  | clause .. => "CondClause"
  | letIn .. => "LetLike"
  | binding .. => "Binding"
  | guarded .. => "WhenUnless"
  | sequence .. => "Sequence"
  | unknown .. => "Unknown"
  | pasted .. => "FakeInsert"
  | vacated => "FakeBlank"

/-- The places of a kind from left to right. -/
def slots : Kind α → List (Slot α)
  | literal .. | blank | pasted .. | vacated => []
  | app func args => [.required "func" func, .list "args" args]
  | identifiers ids => [.list "ids" ids]
  | variableDef name body => [.required "name" name, .required "body" body]
  | functionDef name params body =>
    [.required "name" name, .required "params" params, .required "body" body]
  | lambda args body => [.required "args" args, .required "body" body]
  | structDef name fields => [.required "name" name, .required "fields" fields]
  | conditional test yes no =>
    [.required "test" test, .required "then" yes, .optional "else" no]
  | cond clauses => [.list "clauses" clauses]
  | clause test body => [.required "test" test, .list "body" body]
  | letIn _ bindings body => [.list "bindings" bindings, .required "body" body]
  | binding name value => [.required "name" name, .required "value" value]
  | guarded _ predicate exprs => [.required "predicate" predicate, .list "exprs" exprs]
  | sequence exprs => [.list "exprs" exprs]
  | unknown elts => [.list "elts" elts]

/-- The children from left to right. -/
def children (k : Kind α) : List α :=
  k.slots.flatMap Slot.nodes

/-- The place with a given name. -/
def slot? (k : Kind α) (field : String) : Option (Slot α) :=
  k.slots.find? (·.field == field)

/-- Each child replaced by its image. -/
def map (f : α → β) : Kind α → Kind β
  | literal value type => literal value type
  | blank => blank
  | app func args => app (f func) (args.map f)
  | identifiers ids => identifiers (ids.map f)
  | variableDef name body => variableDef (f name) (f body)
  | functionDef name params body => functionDef (f name) (f params) (f body)
  | lambda args body => lambda (f args) (f body)
  | structDef name fields => structDef (f name) (f fields)
  | conditional test yes no => conditional (f test) (f yes) (no.map f)
  | cond clauses => cond (clauses.map f)
  | clause test body => clause (f test) (body.map f)
  | letIn form bindings body => letIn form (bindings.map f) (f body)
  | binding name value => binding (f name) (f value)
  | guarded form predicate exprs => guarded form (f predicate) (exprs.map f)
  | sequence exprs => sequence (exprs.map f)
  | unknown elts => unknown (elts.map f)
  | pasted text => pasted text
  | vacated => vacated

/-- Each child replaced by its image, which may depend on its index among the children. -/
def mapIdx (f : Nat → α → β) : Kind α → Kind β
  | literal value type => literal value type
  | blank => blank
  | app func args => app (f 0 func) (args.mapIdx fun i => f (i + 1))
  | identifiers ids => identifiers (ids.mapIdx f)
  | variableDef name body => variableDef (f 0 name) (f 1 body)
  | functionDef name params body => functionDef (f 0 name) (f 1 params) (f 2 body)
  | lambda args body => lambda (f 0 args) (f 1 body)
  | structDef name fields => structDef (f 0 name) (f 1 fields)
  | conditional test yes no => conditional (f 0 test) (f 1 yes) (no.map (f 2))
  | cond clauses => cond (clauses.mapIdx f)
  | clause test body => clause (f 0 test) (body.mapIdx fun i => f (i + 1))
  | letIn form bindings body => letIn form (bindings.mapIdx f) (f bindings.length body)
  | binding name value => binding (f 0 name) (f 1 value)
  | guarded form predicate exprs =>
    guarded form (f 0 predicate) (exprs.mapIdx fun i => f (i + 1))
  | sequence exprs => sequence (exprs.mapIdx f)
  | unknown elts => unknown (elts.mapIdx f)
  | pasted text => pasted text
  | vacated => vacated

/-- Each child replaced by the result of an action, from left to right. -/
def mapM {m : Type v → Type w} [Monad m] (f : α → m β) : Kind α → m (Kind β)
  | literal value type => pure (literal value type)
  | blank => pure blank
  | app func args => return app (← f func) (← args.mapM f)
  | identifiers ids => return identifiers (← ids.mapM f)
  | variableDef name body => return variableDef (← f name) (← f body)
  | functionDef name params body => return functionDef (← f name) (← f params) (← f body)
  | lambda args body => return lambda (← f args) (← f body)
  | structDef name fields => return structDef (← f name) (← f fields)
  | conditional test yes none => return conditional (← f test) (← f yes) none
  | conditional test yes (some no) => return conditional (← f test) (← f yes) (some (← f no))
  | cond clauses => return cond (← clauses.mapM f)
  | clause test body => return clause (← f test) (← body.mapM f)
  | letIn form bindings body => return letIn form (← bindings.mapM f) (← f body)
  | binding name value => return binding (← f name) (← f value)
  | guarded form predicate exprs => return guarded form (← f predicate) (← exprs.mapM f)
  | sequence exprs => return sequence (← exprs.mapM f)
  | unknown elts => return unknown (← elts.mapM f)
  | pasted text => pure (pasted text)
  | vacated => pure vacated

@[simp] theorem children_map (f : α → β) (k : Kind α) :
    (k.map f).children = k.children.map f := by
  cases k <;> simp [map, children, slots, Slot.nodes]
  case conditional test yes no => cases no <;> rfl

@[simp] theorem children_mapIdx (f : Nat → α → β) (k : Kind α) :
    (k.mapIdx f).children = k.children.mapIdx f := by
  cases k <;> simp [mapIdx, children, slots, Slot.nodes, List.mapIdx_append]
  case conditional test yes no => cases no <;> rfl

@[simp] theorem map_id (k : Kind α) : k.map id = k := by
  cases k <;> simp [map]

@[simp] theorem map_map {γ : Type w} (f : α → β) (g : β → γ) (k : Kind α) :
    (k.map f).map g = k.map (g ∘ f) := by
  cases k <;> simp [map]

/-- Two maps that agree on the children agree on the kind. -/
theorem map_congr_left {f g : α → β} {k : Kind α} (h : ∀ c ∈ k.children, f c = g c) :
    k.map f = k.map g := by
  cases k <;> simp_all [map, children, slots, Slot.nodes]
  case conditional test yes no => cases no <;> simp_all

/-- The child at an index replaced by its image; the kind itself if there is none. -/
def modifyChild (k : Kind α) (i : Nat) (f : α → α) : Kind α :=
  k.mapIdx fun j c => if j = i then f c else c

/-- A child is smaller than its kind. -/
theorem sizeOf_lt_of_mem_children [SizeOf α] {k : Kind α} {c : α} (h : c ∈ k.children) :
    sizeOf c < sizeOf k := by
  cases k <;> simp_all [children, slots, Slot.nodes]
  case functionDef => rcases h with rfl | rfl | rfl <;> omega
  case conditional =>
    rcases h with rfl | rfl | rfl
    · omega
    · omega
    · simp only [Option.some.sizeOf_spec]; omega
  all_goals first
    | (have hlt := List.sizeOf_lt_of_mem h; omega)
    | (rcases h with rfl | rfl <;> omega)
    | (rcases h with rfl | h
       · omega
       · have hlt := List.sizeOf_lt_of_mem h; omega)
    | (rcases h with h | rfl
       · have hlt := List.sizeOf_lt_of_mem h; omega
       · omega)

end Kind

end TreeEdit
