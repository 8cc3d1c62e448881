import OpenApi.Config
import OpenApi.Disk.Run

/-!
Writing artifacts to disk.
-/
namespace OpenApi.Artifact

variable {m : Type → Type} [Monad m] [Host m]

/-- The file that a target is written to, from `base` unless its path is absolute. -/
def outputPath (config : Config) (base : Option DiskPath) (target : Target) : Checked DiskPath :=
  match config.targets.lookup target with
  | none => .error .wrongKind
  | some file =>
    let path := DiskPath.ofText file
    .ok ((base.map (·.join path)).getD path)

/-- Writes one artifact and tells so. -/
def writeOne (config : Config) (base : Option DiskPath) (target : Target) (text : String) :
    Run m DiskPath := do
  let path ← MonadExcept.ofExcept (outputPath config base target)
  MonadExcept.ofExcept path.check
  match ← (Host.writeFile path text : m (Except DiskError Unit)) with
  | .error e => throw (.artifact target.text (.unwritable path.text e))
  | .ok () =>
    (Host.say s!"Generated {path.text} ({target.text})" : m Unit)
    return path

/-- Writes artifacts in order, up to the first that cannot be written. -/
def writeAll (config : Config) (base : Option DiskPath) (artifacts : List (Target × String)) :
    Run m (List DiskPath) :=
  artifacts.mapM fun (target, text) => writeOne config base target text

end OpenApi.Artifact
