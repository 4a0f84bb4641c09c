import TreeEdit.Text.Numbers

/-!
# Command lines

A command line is `[options] COMMAND [options] FILE`. An option is given by its long name, `--name`,
or by a letter, `-n`; letters without a value may share one hyphen. The value of an option follows
as the next word or, joined to it, with or without an equals sign. A word of its own that starts
with a hyphen is never a value. After `--` all words are operands. No option may be given twice in
the same place; the settings file may be named before or after the command, and the later one wins.

Any other word is a misuse. Which one does not matter.
-/

namespace TreeEdit.Command

/-- The options. -/
inductive Opt where
  | config
  | width
  | write
  | json
  | script
  | dryRun
  | diff
  | help
  | version
deriving DecidableEq, Repr

namespace Opt

/-- The long name. -/
def long : Opt → String
  | config => "config"
  | width => "width"
  | write => "write"
  | json => "json"
  | script => "script"
  | dryRun => "dry-run"
  | diff => "diff"
  | help => "help"
  | version => "version"

/-- The letter. -/
def letter? : Opt → Option Char
  | config => some 'c'
  | width => some 'w'
  | write => some 'W'
  | json => none
  | script => some 's'
  | dryRun => some 'n'
  | diff => some 'd'
  | help => some 'h'
  | version => some 'V'

/-- Whether the option has a value. -/
def hasValue : Opt → Bool
  | config | width | script => true
  | _ => false

/-- Whether a text may be the value: widths are whole numbers, file names are not empty. -/
def allows (o : Opt) (value : String) : Bool :=
  match o with
  | width => (natural? value.toList).isSome
  | _ => !value.isEmpty

end Opt

/-- Why reading stops before a command is found. -/
inductive Halt where
  | help
  | version
  | misuse
deriving DecidableEq, Repr

/-- The options given so far, with their values; flags have none. -/
abbrev Given := List (Opt × Option String)

namespace Given

/-- Whether an option was given. -/
def has (g : Given) (o : Opt) : Bool := g.any (·.1 = o)

/-- The value given to an option. -/
def value? (g : Given) (o : Opt) : Option String := (g.find? (·.1 = o)).bind Prod.snd

/-- One more flag. -/
def addFlag (g : Given) (o : Opt) : Except Halt Given :=
  match o with
  | .help => .error .help
  | .version => .error .version
  | _ => if g.has o then .error .misuse else .ok ((o, none) :: g)

/-- One more option with its value. -/
def addValue (g : Given) (o : Opt) (value : String) : Except Halt Given :=
  if g.has o || !o.allows value then .error .misuse else .ok ((o, some value) :: g)

end Given

/-- The characters before and after the first equals sign; nothing after it if there is none. -/
def splitEquals (cs : List Char) : List Char × Option (List Char) :=
  match cs.dropWhile (· ≠ '=') with
  | [] => (cs, none)
  | _ :: value => (cs.takeWhile (· ≠ '='), some value)

/-- A long option, from after its hyphens. Gives the option that still needs a value. -/
def readLong (opts : List Opt) (g : Given) (cs : List Char) : Except Halt (Given × Option Opt) :=
  let (name, value) := splitEquals cs
  match opts.find? (·.long.toList = name), value with
  | none, _ => .error .misuse
  | some o, none => if o.hasValue then .ok (g, some o) else (g.addFlag o).map (·, none)
  | some o, some value =>
    if o.hasValue then (g.addValue o (String.ofList value)).map (·, none) else .error .misuse

/-- Letters that share a hyphen. Gives the option that still needs a value. -/
def readLetters (opts : List Opt) (g : Given) : List Char → Except Halt (Given × Option Opt)
  | [] => .ok (g, none)
  | c :: rest =>
    match opts.find? (·.letter? = some c) with
    | none => .error .misuse
    | some o =>
      if o.hasValue then
        match rest with
        | [] => .ok (g, some o)
        | '=' :: value => (g.addValue o (String.ofList value)).map (·, none)
        | value => (g.addValue o (String.ofList value)).map (·, none)
      else
        match g.addFlag o with
        | .ok g => readLetters opts g rest
        | .error halt => .error halt

/-- What ends a run of options. -/
inductive Stop where
  | finished
  | operand (word : String) (rest : List String)
  | escaped (rest : List String)
deriving DecidableEq, Repr

/-- Reads options up to an operand. `pending` is the option that the next word is the value of. -/
def readOptions (opts : List Opt) (pending : Option Opt) (g : Given) :
    List String → Except Halt (Given × Stop)
  | [] => if pending.isSome then .error .misuse else .ok (g, .finished)
  | word :: rest =>
    match pending, word.toList with
    | some _, '-' :: _ :: _ => .error .misuse
    | some o, _ =>
      match g.addValue o word with
      | .ok g => readOptions opts none g rest
      | .error halt => .error halt
    | none, ['-', '-'] => .ok (g, .escaped rest)
    | none, '-' :: '-' :: cs =>
      match readLong opts g cs with
      | .ok (g, pending) => readOptions opts pending g rest
      | .error halt => .error halt
    | none, '-' :: c :: cs =>
      match readLetters opts g (c :: cs) with
      | .ok (g, pending) => readOptions opts pending g rest
      | .error halt => .error halt
    | none, _ => .ok (g, .operand word rest)

/-- The options of a command and its one operand, a file. -/
def readOperand (opts : List Opt) (words : List String) : Except Halt (Given × String) := do
  let (g, stop) ← readOptions opts none [] words
  let (g, file) ←
    match stop with
    | .finished => throw .misuse
    | .escaped [file] => pure (g, file)
    | .escaped _ => throw .misuse
    | .operand file rest => do
      match ← readOptions opts none g rest with
      | (g, .finished) => pure (g, file)
      | (g, .escaped []) => pure (g, file)
      | _ => throw .misuse
  if file.isEmpty then throw .misuse
  return (g, file)

/-- What a command line asks for. -/
inductive Task where
  | format (file : String) (width : Option Nat) (write : Bool)
  | tree (file : String) (json : Bool)
  | check (file : String)
  | apply (file script : String) (dryRun diff : Bool)
deriving DecidableEq, Repr

/-- A task and the settings file it is done with. -/
structure Invocation where
  config : Option String
  task : Task
deriving DecidableEq, Repr

/-- The options of each command. -/
def optionsOf : String → Option (List Opt)
  | "fmt" => some [.config, .help, .width, .write]
  | "tree" => some [.config, .help, .json]
  | "check" => some [.config, .help]
  | "apply" => some [.config, .help, .script, .dryRun, .diff]
  | _ => none

/-- The task of a command. -/
def taskOf (command : String) (g : Given) (file : String) : Option Task :=
  match command with
  | "fmt" =>
    some (.format file ((g.value? .width).bind fun w => natural? w.toList) (g.has .write))
  | "tree" => some (.tree file (g.has .json))
  | "check" => some (.check file)
  | "apply" => (g.value? .script).map fun script => .apply file script (g.has .dryRun) (g.has .diff)
  | _ => none

/-- The words after a request for help: nothing, or the name of a command. -/
def readHelp : List String → Halt
  | [] => .help
  | [command] => if command = "help" || (optionsOf command).isSome then .help else .misuse
  | _ => .misuse

/-- A command line read. -/
def readInvocation (words : List String) : Except Halt Invocation := do
  match ← readOptions [.config, .help, .version] none [] words with
  | (outer, .operand command rest) =>
    if command = "help" then throw (readHelp rest)
    match optionsOf command with
    | none => throw .misuse
    | some opts =>
      let (g, file) ← readOperand opts rest
      match taskOf command g file with
      | none => throw .misuse
      | some task => return ⟨(g.value? .config).or (outer.value? .config), task⟩
  | _ => throw .misuse

end TreeEdit.Command
