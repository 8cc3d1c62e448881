import OpenApi.Disk.Error
import OpenApi.Disk.Path

/-!
What a run needs from the machine it runs on.
-/
namespace OpenApi

/-- A machine with a disk and a place to say things. -/
class Host (m : Type → Type) where
  read : DiskPath → m (Except DiskError String)
  isFolder : DiskPath → m Bool
  /-- Makes one folder, in a folder that is there. -/
  makeFolder : DiskPath → m (Except DiskError Unit)
  /-- Writes a file in a folder that is there, over one that was there before. -/
  write : DiskPath → String → m (Except DiskError Unit)
  say : String → m Unit

namespace Host

variable {m : Type → Type} [Monad m] [Host m]

/-- What an attempt to make a folder comes to, if a folder that is there already is as good. -/
def settle (p : DiskPath) (e : DiskError) : m (Except DiskError Unit) := do
  if ← isFolder p then return .ok () else return .error e

/-- Makes a folder with all the folders around it that are missing. The parts of the path are given
backwards. -/
def makeFoldersFrom (root : String) : List String → m (Except DiskError Unit)
  | [] => do
    let p : DiskPath := { root, parts := [] }
    match ← makeFolder p with
    | .ok () => return .ok ()
    | .error e => settle p e
  | part :: outer => do
    let p : DiskPath := { root, parts := (part :: outer).reverse }
    match ← makeFolder p with
    | .ok () => return .ok ()
    | .error e =>
      if e.cause = .missing then
        match ← makeFoldersFrom root outer with
        | .error e => return .error e
        | .ok () =>
          match ← makeFolder p with
          | .ok () => return .ok ()
          | .error e => if e.cause = .missing then return .error e else settle p e
      else settle p e

def makeFolders (p : DiskPath) : m (Except DiskError Unit) := makeFoldersFrom p.root p.parts.reverse

/-- Writes a file and the folders around it. -/
def writeFile (p : DiskPath) (text : String) : m (Except DiskError Unit) := do
  match ← makeFolders p.parent with
  | .error e => return .error e
  | .ok () => write p text

end Host
end OpenApi
