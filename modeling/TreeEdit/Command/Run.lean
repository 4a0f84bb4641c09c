import TreeEdit.Command.Arguments
import TreeEdit.Command.Host
import TreeEdit.Diff.Text
import TreeEdit.Layout.Node
import TreeEdit.Script.Decode
import TreeEdit.Script.Run
import TreeEdit.Tree.Outline

/-!
# Commands

What each command prints and which file it changes. The settings are loaded first, then the
document, then the script. A failure is reported with its causes; a refused script is reported with
a note that the document is as it was.
-/

namespace TreeEdit.Command

/-- What a command leaves behind besides files. -/
structure Outcome where
  code : Nat
  stdout : String
  stderr : String
deriving DecidableEq, Repr

/-- A failure with what caused it, nearest cause first. -/
structure Failure where
  message : String
  causes : List String
deriving DecidableEq, Repr

namespace Failure

/-- A text whose lines after the first are indented. -/
def indentRest (text indent : String) : String := ("\n" ++ indent).intercalate (linesOf text)

/-- A cause with its number, the points of all numbers below each other. -/
def numbered (cause : String) (number : Nat) : String :=
  let digits := toString number
  let padding := String.ofList (List.replicate (5 - digits.length) ' ')
  padding ++ digits ++ ": " ++ indentRest cause "       "

/-- The causes of a failure, numbered if there are several. -/
def renderCauses : List String → List String
  | [] => []
  | [cause] => ["", "Caused by:", "    " ++ indentRest cause "    "]
  | causes => ["", "Caused by:"] ++ causes.zipIdx.map fun (cause, i) => numbered cause i

/-- A failure as it is reported. -/
def render (f : Failure) : String :=
  joinLines (("Error: " ++ f.message) :: renderCauses f.causes) ++ "\n"

/-- A failure to load a script or settings from a file. -/
def ofLoad (file : String) (e : LoadError) : Failure :=
  match e with
  | .unreadable => ⟨e.message (some file), []⟩
  | .invalid issues => ⟨e.message (some file), [issuesMessage issues]⟩

/-- A document that cannot be read as one. -/
def ofDocument (file : String) (e : EditError) : Failure :=
  let causes :=
    match e with
    | .read inner => [e.message, inner.display]
    | _ => [e.message]
  ⟨s!"{file} does not parse", causes⟩

end Failure

/-- Steps of a command: what was printed is kept when one fails. -/
abbrev Action (m : Type → Type) := ExceptT (Sum Failure String) (StateT String m)

section

variable {m : Type → Type} [Monad m] [Host m]

/-- Prints text. -/
def print (text : String) : Action m Unit := modify (· ++ text)

/-- Prints a line. -/
def printLine (text : String) : Action m Unit := print (text ++ "\n")

/-- Ends the command with a failure. -/
def fail {α : Type} (f : Failure) : Action m α := throw (.inl f)

/-- Ends the command with a text for the error output. -/
def refuse {α : Type} (text : String) : Action m α := throw (.inr text)

/-- The content of a file. -/
def readFile (path : String) : Action m (Except FileError String) :=
  ExceptT.lift (StateT.lift (Host.read path))

/-- A file written. -/
def writeFile (path content : String) : Action m Unit := do
  match ← ExceptT.lift (StateT.lift (Host.write (m := m) path content)) with
  | .ok () => return ()
  | .error e => fail ⟨s!"failed to write {path}", [e.message]⟩

/-- A script or settings loaded from a file. -/
def loadFile {α : Type} (path : String) (parse : String → Except LoadError α) : Action m α := do
  match ← readFile path with
  | .error e => fail ⟨s!"failed to read {path}: {e.message}", [e.message]⟩
  | .ok text =>
    match parse text with
    | .ok value => return value
    | .error e => fail (.ofLoad path e)

/-- A session on the document in a file. -/
def openDocument (file : String) (settings : Settings) : Action m (Session String) := do
  match ← readFile file with
  | .error e => fail ⟨s!"failed to read {file}", [e.message]⟩
  | .ok text =>
    match Session.start text settings with
    | .ok s => return s
    | .error e => fail (.ofDocument file e)

/-- The document printed anew. -/
def format (file : String) (settings : Settings) (width : Option Nat) (write : Bool) :
    Action m Unit := do
  let s ← openDocument file settings
  let body := prettyRoots s.tree.roots (width.getD settings.prettyWidth)
  let formatted := if body.isEmpty then body else body ++ "\n"
  if !write then print formatted
  else if formatted = s.text then printLine s!"⊙ {file}: already formatted"
  else
    writeFile file formatted
    printLine s!"✓ {file}: formatted"

/-- The tree listed. -/
def list (file : String) (settings : Settings) (json : Bool) : Action m Unit := do
  let s ← openDocument file settings
  if json then printLine (JsonValue.ofTree s.tree).pretty
  else print (String.join (s.tree.outline.map (· ++ "\n")))

/-- The document read and counted. -/
def check (file : String) (settings : Settings) : Action m Unit := do
  let s ← openDocument file settings
  printLine s!"✓ {file}: {s.tree.roots.length} roots, {s.tree.size} nodes"

/-- The report on a script that was refused. -/
def refusal (file : String) (e : ScriptError) : String :=
  let note :=
    match e.source? with
    | some (.read _) => "  Edited document would not parse\n"
    | _ => ""
  s!"✗ {file}: {e.message}\n{note}  The document was not modified.\n"

/-- The difference a script makes. -/
def showDifference (file old new : String) : String :=
  s!"\n--- {file} (original)\n+++ {file} (edited)\n" ++ Diff.render old new ++
    (if new.endsWith "\n" then "" else "\n")

/-- A script carried out on the document. -/
def apply (file scriptFile : String) (settings : Settings) (dryRun diff : Bool) :
    Action m Unit := do
  let s ← openDocument file settings
  let script ← loadFile scriptFile Script.ofToml
  if dryRun then printLine "[DRY RUN - showing what would be applied]"
  match s.runScript script with
  | (.error e, _) => refuse (refusal file e)
  | (.ok committed, edited) =>
    let isChanged := edited.text != s.text
    if diff && isChanged then print (showDifference file s.text edited.text)
    let verb := if dryRun then "Would apply" else "Applied"
    let edits := script.edits.length
    let changes := committed.changes.length
    printLine s!"✓ {verb} {edits} edit(s), {changes} text change(s) to {file}"
    if !dryRun && isChanged then writeFile file edited.text

/-- An invocation carried out. -/
def perform (i : Invocation) : Action m Unit := do
  let settings ←
    match i.config with
    | some path => loadFile path Settings.ofToml
    | none => pure Settings.default
  match i.task with
  | .format file width write => format file settings width write
  | .tree file json => list file settings json
  | .check file => check file settings
  | .apply file script dryRun diff => apply file script settings dryRun diff

/-- How the program is used. -/
def usage : String :=
  "Usage: blockedit [-c CONFIG] COMMAND\n\n" ++
    "  fmt FILE [-w WIDTH] [-W]          pretty-print a document\n" ++
    "  tree FILE [--json]                show the identified tree\n" ++
    "  check FILE                        check that a document parses\n" ++
    "  apply FILE -s SCRIPT [-n] [-d]    apply an edit script as one transaction\n"

/-- A command line carried out. -/
def run (words : List String) : m Outcome :=
  match readInvocation words with
  | .error .help => return ⟨0, usage, ""⟩
  | .error .version => return ⟨0, "blockedit 0.1.0\n", ""⟩
  | .error .misuse => return ⟨2, "", usage⟩
  | .ok invocation => do
    let (result, stdout) ← (perform (m := m) invocation).run.run ""
    match result with
    | .ok () => return ⟨0, stdout, ""⟩
    | .error (.inl failure) => return ⟨1, stdout, failure.render⟩
    | .error (.inr text) => return ⟨1, stdout, text⟩

end

end TreeEdit.Command
