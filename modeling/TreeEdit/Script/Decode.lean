import TreeEdit.Script.Basic
import TreeEdit.Toml.Document

/-!
# Scripts and settings in TOML

Settings are a table of two numbers, and no other key is allowed. A script is a list of edits under
`edits`. An edit is a table with its name under `op`, or an array of the name and the fields in
their order; other keys are passed over. A position is a table or a pair.

The fields of an edit are looked up the same way in both forms: by key in a table, by place in an
array, where an array may end before fields that can be left out.
-/

namespace TreeEdit

/-- Why a script or settings could not be loaded. -/
inductive LoadError where
  | unreadable
  | invalid (issues : List Issue)
deriving DecidableEq, Repr

/-- A load error in words, with the name of the file if there is one. -/
def LoadError.message (e : LoadError) (file : Option String) : String :=
  let place := (file.map fun name => s!" ({name})").getD ""
  match e with
  | unreadable => s!"failed to parse TOML{place}"
  | invalid issues => s!"invalid configuration{place}: {issuesMessage issues}"

namespace Decode

open Toml

/-- The fields of one edit or position, in the order in which an array gives them. -/
def fields? (names : List String) : Value → Option Entries
  | .table _ entries => some entries
  | .array items => if items.length ≤ names.length then some (names.zip items) else none
  | _ => none

/-- A field that must be there. -/
def required? (fields : Entries) (name : String) (decode : Value → Option α) : Option α :=
  (fields.get? name).bind decode

/-- A field that may be left out. -/
def optional? (fields : Entries) (name : String) (decode : Value → Option α) :
    Option (Option α) :=
  match fields.get? name with
  | none => some none
  | some value => (decode value).map some

/-- A position. -/
def pos? (value : Value) : Option Pos := do
  let fields ← fields? ["line", "ch"] value
  return ⟨← required? fields "line" Value.natural?, ← required? fields "ch" Value.natural?⟩

/-- The name of an edit, and a value that holds its fields. -/
def operation? : Value → Option (String × Value)
  | .array (.string name :: items) => some (name, .array items)
  | .table origin entries => do
    let name ← required? entries "op" Value.string?
    return (name, .table origin entries)
  | _ => none

/-- An edit. -/
def edit? (value : Value) : Option ScriptEdit := do
  let (name, body) ← operation? value
  match name with
  | "insert" =>
    let fields ← fields? ["parent", "field", "index", "text"] body
    return .insert (← optional? fields "parent" Value.string?)
      (← optional? fields "field" Value.string?) (← required? fields "index" Value.natural?)
      (← required? fields "text" Value.string?)
  | "delete" =>
    let fields ← fields? ["target"] body
    return .delete (← required? fields "target" Value.string?)
  | "replace" =>
    let fields ← fields? ["target", "text"] body
    return .replace (← required? fields "target" Value.string?)
      (← required? fields "text" Value.string?)
  | "overwrite" =>
    let fields ← fields? ["from", "to", "text"] body
    return .overwrite (← required? fields "from" pos?) (← required? fields "to" pos?)
      ((← optional? fields "text" Value.string?).getD "")
  | "drop" =>
    let fields ← fields? ["source", "parent", "field", "index"] body
    return .drop (← required? fields "source" Value.string?)
      (← optional? fields "parent" Value.string?) (← optional? fields "field" Value.string?)
      (← required? fields "index" Value.natural?)
  | _ => none

/-- A script; no `edits` means no edits. -/
def script? (entries : Entries) : Option Script := do
  let items ← optional? entries "edits" Value.items?
  return ⟨← (items.getD []).mapM edit?⟩

/-- Settings; what is left out keeps its usual value. -/
def settings? (entries : Entries) : Option Settings := do
  if entries.any fun (name, _) => name != "pretty_width" && name != "history_limit" then none
  else
    let width ← optional? entries "pretty_width" Value.natural?
    let limit ← optional? entries "history_limit" Value.natural?
    return ⟨width.getD Settings.default.prettyWidth, limit.getD Settings.default.historyLimit⟩

/-- A value read from a text and found free of issues. -/
def load (text : String) (decode : Entries → Option α) (issues : α → List Issue) :
    Except LoadError α :=
  match (read? text).bind decode with
  | none => .error .unreadable
  | some value =>
    match issues value with
    | [] => .ok value
    | found => .error (.invalid found)

end Decode

/-- The script of a TOML text. -/
def Script.ofToml (text : String) : Except LoadError Script :=
  Decode.load text Decode.script? Script.issues

/-- The settings of a TOML text. -/
def Settings.ofToml (text : String) : Except LoadError Settings :=
  Decode.load text Decode.settings? Settings.issues

end TreeEdit
