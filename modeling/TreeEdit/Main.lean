import TreeEdit.Command.Run

/-!
# The program

Runs a command line against the file system.
-/

namespace TreeEdit.Command

/-- A failure of the system as a file error. -/
def FileError.ofIO : IO.Error → FileError
  | .noFileOrDirectory .. => .notFound
  | .inappropriateType _ code _ => if code = 20 then .notAFolder else .isAFolder
  | e => .other (toString e)

instance : Host IO where
  read path := do
    try
      return .ok (← IO.FS.readFile path)
    catch e => return .error (.ofIO e)
  write path content := do
    -- the new content appears all at once
    let draft := path ++ ".new"
    try
      IO.FS.writeFile draft content
      IO.FS.rename draft path
      return .ok ()
    catch e => return .error (.ofIO e)

end TreeEdit.Command

def main (args : List String) : IO UInt32 := do
  let outcome ← TreeEdit.Command.run (m := IO) args
  IO.print outcome.stdout
  IO.eprint outcome.stderr
  return outcome.code.toUInt32
