/-!
# Files

What commands need of the world: reading a file and writing one. `Folder` is a world of its own, a
folder given by its files. Nothing is known of the folders it stands in but that they are there.
-/

namespace TreeEdit.Command

/-- Why a file cannot be read or written. -/
inductive FileError where
  | notFound
  | notAFolder
  | isAFolder
  | nameTooLong
  | other (message : String)
deriving DecidableEq, Repr

/-- A file error in words. -/
def FileError.message : FileError → String
  | notFound => "No such file or directory (os error 2)"
  | notAFolder => "Not a directory (os error 20)"
  | isAFolder => "Is a directory (os error 21)"
  | nameTooLong => "File name too long (os error 36)"
  | other message => message

/-- A place where files can be read and written. -/
class Host (m : Type → Type) where
  read : String → m (Except FileError String)
  write : String → String → m (Except FileError Unit)

/-- A folder: the contents of its files by name. Files in inner folders have slashes in their
names. -/
abbrev Folder := List (String × String)

namespace Folder

/-- Where a path leads: to a file, to the folder with a path inside this one, or to one that this
one stands in. -/
inductive Place where
  | file (name : String)
  | inner (path : List String)
  | outer
deriving DecidableEq, Repr

/-- Whether a part of a path stays where it is. -/
def isIdle (part : String) : Bool := part == "" || part == "."

/-- The parts of a name that lead on. -/
def parts (name : String) : List String := (name.splitOn "/").filter (!isIdle ·)

/-- The most bytes that the name of one file or folder may take. -/
def longestName : Nat := 255

/-- The most bytes that a path may take. -/
def longestPath : Nat := 4095

/-- What stands under a name in the folder with a path. -/
def enter (folder : Folder) (path : List String) (name : String) : Except FileError Place :=
  let wanted := path ++ [name]
  match folder.find? fun file => parts file.1 = wanted with
  | some file => .ok (.file file.1)
  | none =>
    if folder.any fun file => wanted.isPrefixOf (parts file.1) then .ok (.inner wanted)
    else .error .notFound

/-- One part of a path followed. Nothing leads on from a file, not even back. -/
def follow (folder : Folder) (place : Place) (part : String) : Except FileError Place :=
  match place with
  | .file _ => .error .notAFolder
  | .inner path =>
    if isIdle part then .ok place
    else if part = ".." then .ok (if path.isEmpty then .outer else .inner path.dropLast)
    else if longestName < part.utf8ByteSize then .error .nameTooLong
    else folder.enter path part
  | .outer =>
    if isIdle part || part = ".." then .ok .outer
    else if longestName < part.utf8ByteSize then .error .nameTooLong
    else .error .notFound

/-- The name of the file that a path leads to. -/
def locate (folder : Folder) (path : String) : Except FileError String := do
  if path.isEmpty then throw .notFound
  if longestPath < path.utf8ByteSize then throw .nameTooLong
  let start : Place := if path.startsWith "/" then .outer else .inner []
  match ← (path.splitOn "/").foldlM folder.follow start with
  | .file name => return name
  | .inner _ | .outer => throw .isAFolder

/-- The content of a file. -/
def read (folder : Folder) (path : String) : Except FileError String := do
  return (folder.lookup (← folder.locate path)).getD ""

/-- The folder with the content of a file replaced. -/
def write (folder : Folder) (path content : String) : Except FileError Folder := do
  let name ← folder.locate path
  return folder.map fun file => if file.1 = name then (name, content) else file

instance : Host (StateM Folder) where
  read path := do return (← get).read path
  write path content := do
    match (← get).write path content with
    | .ok folder =>
      set folder
      return .ok ()
    | .error e => return .error e

end Folder

end TreeEdit.Command
