import OpenApi.Cli

/-!
The command line, on the machine it is started on.
-/
namespace OpenApi.Machine

/-- Why the machine refuses. -/
def cause : IO.Error → DiskError.Cause
  | .noFileOrDirectory .. => .missing
  | .alreadyExists .. => .alreadyThere
  | .inappropriateType _ 20 _ => .notADirectory
  | .inappropriateType _ 21 _ => .isADirectory
  | .invalidArgument _ 36 _ => .nameTooLong
  | .permissionDenied _ code _ => .other code.toNat "Permission denied"
  | .otherError code details => .other code.toNat details
  | e => .other 5 (toString e)

/-- The outcome of an action on a path. -/
def attempt {α : Type} (path : DiskPath) (action : IO α) : IO (Except DiskError α) := do
  match ← action.toBaseIO with
  | .ok a => return .ok a
  | .error e => return .error { cause := cause e, path := path.text }

/-- A folder is what cannot be read for being one. -/
def isFolder (path : DiskPath) : IO Bool := do
  match ← attempt path (IO.FS.readFile path.text) with
  | .error e => return e.cause = .isADirectory
  | .ok _ => return false

instance : Host IO where
  read p := attempt p (IO.FS.readFile p.text)
  isFolder := isFolder
  makeFolder p := attempt p (IO.FS.createDir p.text)
  write p text := attempt p (IO.FS.writeFile p.text text)
  say line := IO.println line

end OpenApi.Machine

open OpenApi

def main (args : List String) : IO UInt32 := do
  let (result, notices) ← ((Cli.session args).run).run []
  for notice in notices do
    IO.eprintln notice.line
  match result with
  | .ok () => return 0
  | .error fault =>
    IO.eprintln ((Cli.complaint? fault).getD "oasgen: the document cannot be processed")
    return 1
