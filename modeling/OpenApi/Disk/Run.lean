import OpenApi.Disk.Host
import OpenApi.Fault

/-!
Runs on a machine that may meet a fault.
-/
namespace OpenApi

abbrev Run (m : Type → Type) := ExceptT Fault m

/-- No disk takes a path with a null character in it. -/
def DiskPath.check (p : DiskPath) : Checked Unit :=
  if p.text.toList.contains '\x00' then .error .wrongKind else .ok ()

/-- Reads a file; `report` tells what it means that it cannot be read. -/
def Run.readFile {m : Type → Type} [Monad m] [Host m] (p : DiskPath) (report : DiskError → Fault) :
    Run m String := do
  MonadExcept.ofExcept p.check
  match ← (Host.read p : m (Except DiskError String)) with
  | .error e => throw (report e)
  | .ok text => return text

end OpenApi
