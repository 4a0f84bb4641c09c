import TreeEdit.Edit.Basic
import TreeEdit.Node.Fingerprint

/-!
# Edits on a copy

An edit inside a node is carried out on a copy of an ancestor: text put in becomes a node of its
own kind that prints as that text, a list element or optional child taken away is gone, and a
required child taken away leaves a blank. Fingerprints of the copy are not kept up to date.

The copy is changed in place: whoever carries an edit out gets the copy back also if the edit fails,
and goes on with it.
-/

namespace TreeEdit

universe u v

/-- A change in place: how it ends, and what is there afterwards, whether it succeeds or not. -/
abbrev InPlace (ε : Type u) (α : Type v) := α → Except ε Unit × α

/-- What to do with a place, by what kind of place it is. -/
structure SlotEdit (ε : Type u) (α : Type v) where
  required : InPlace ε α
  optional : InPlace ε (Option α)
  list : InPlace ε (List α)

namespace Kind

variable {ε : Type u} {α : Type v}

/-- A change of the named place in the kind around it; `none` if the kind has no such place. -/
def editSlot? (k : Kind α) (field : String) (e : SlotEdit ε α) : Option (Except ε Unit × Kind α) :=
  match k with
  | literal .. | blank | pasted .. | vacated => none
  | app func args =>
    if field = "func" then some ((e.required func).map id (app · args))
    else if field = "args" then some ((e.list args).map id (app func))
    else none
  | identifiers ids => if field = "ids" then some ((e.list ids).map id identifiers) else none
  | variableDef name body =>
    if field = "name" then some ((e.required name).map id (variableDef · body))
    else if field = "body" then some ((e.required body).map id (variableDef name))
    else none
  | functionDef name params body =>
    if field = "name" then some ((e.required name).map id (functionDef · params body))
    else if field = "params" then some ((e.required params).map id (functionDef name · body))
    else if field = "body" then some ((e.required body).map id (functionDef name params))
    else none
  | lambda args body =>
    if field = "args" then some ((e.required args).map id (lambda · body))
    else if field = "body" then some ((e.required body).map id (lambda args))
    else none
  | structDef name fields =>
    if field = "name" then some ((e.required name).map id (structDef · fields))
    else if field = "fields" then some ((e.required fields).map id (structDef name))
    else none
  | conditional test yes no =>
    if field = "test" then some ((e.required test).map id (conditional · yes no))
    else if field = "then" then some ((e.required yes).map id (conditional test · no))
    else if field = "else" then some ((e.optional no).map id (conditional test yes))
    else none
  | cond clauses => if field = "clauses" then some ((e.list clauses).map id cond) else none
  | clause test body =>
    if field = "test" then some ((e.required test).map id (clause · body))
    else if field = "body" then some ((e.list body).map id (clause test))
    else none
  | letIn form bindings body =>
    if field = "bindings" then some ((e.list bindings).map id (letIn form · body))
    else if field = "body" then some ((e.required body).map id (letIn form bindings))
    else none
  | binding name value =>
    if field = "name" then some ((e.required name).map id (binding · value))
    else if field = "value" then some ((e.required value).map id (binding name))
    else none
  | guarded form predicate exprs =>
    if field = "predicate" then some ((e.required predicate).map id (guarded form · exprs))
    else if field = "exprs" then some ((e.list exprs).map id (guarded form predicate))
    else none
  | sequence exprs => if field = "exprs" then some ((e.list exprs).map id sequence) else none
  | unknown elts => if field = "elts" then some ((e.list elts).map id unknown) else none

end Kind

namespace Edit

/-- A new node put into a list or an empty optional place. -/
def insertion (parent : NodeId) (field : String) (index : Nat) (new : Node) :
    SlotEdit EditError Node where
  required n := (.error (.lookup parent (.slotRefuses field)), n)
  optional
    | none => (.ok (), some new)
    | some n => (.error (.lookup parent (.slotRefuses field)), some n)
  list nodes := (.ok (), nodes.insertIdx (min index nodes.length) new)

/-- The node with an identity replaced by a new one. -/
def replacement (target : NodeId) (field : String) (new : Node) : SlotEdit EditError Node where
  required n :=
    if n.id = target then (.ok (), new) else (.error (.lookup target (.notInSlot field)), n)
  optional
    | some n =>
      if n.id = target then (.ok (), some new)
      else (.error (.lookup target (.notInSlot field)), some n)
    | none => (.error (.lookup target (.notInSlot field)), none)
  list nodes :=
    match nodes.findIdx? (·.id == target) with
    | some index => (.ok (), nodes.set index new)
    | none => (.error (.lookup target (.notInSlot field)), nodes)

/-- The node with an identity taken away. -/
def deletion (target : NodeId) (field : String) : SlotEdit EditError Node where
  required n :=
    if n.id = target then (.ok (), .vacated n.span)
    else (.error (.lookup target (.notInSlot field)), n)
  optional
    | some n =>
      if n.id = target then (.ok (), none)
      else (.error (.lookup target (.notInSlot field)), some n)
    | none => (.error (.lookup target (.notInSlot field)), none)
  list nodes :=
    match nodes.findIdx? (·.id == target) with
    | some index => (.ok (), nodes.eraseIdx index)
    | none => (.error (.lookup target (.notInList field)), nodes)

/-- The parent, the name of the place, and what an edit does to it. -/
def slotEdit? (e : Edit) : Option (NodeId × String × SlotEdit EditError Node) :=
  match e.kind with
  | .insertChild parent field index text =>
    some (parent, field, insertion parent field index (.pasted text e.start))
  | .replaceChild node parent field _ text =>
    some (parent, field, replacement node field (.pasted text e.start))
  | .deleteChild node parent field _ => some (parent, field, deletion node field)
  | _ => none

/-- An edit carried out on the copy of an ancestor. -/
def graftOnto (e : Edit) : InPlace EditError Node := fun copy =>
  match e.slotEdit? with
  | none => (.error (.lookup copy.id .rootLevel), copy)
  | some (parent, field, change) =>
    match copy.pathTo? parent with
    | none => (.error (.lookup parent .parentNotInCopy), copy)
    | some path =>
      match (copy.at? path).bind (·.kind.editSlot? field change) with
      | none => (.error (.lookup parent (.withoutSlot field)), copy)
      | some (result, kind) => (result, copy.modifyAt path fun n => { n with kind := kind })

/-- The copy of an ancestor with an edit carried out. -/
def graft (e : Edit) (copy : Node) : Except EditError Node :=
  match e.graftOnto copy with
  | (.ok (), new) => .ok new
  | (.error err, _) => .error err

end Edit

end TreeEdit
