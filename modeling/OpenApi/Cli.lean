import OpenApi.Api.Build
import OpenApi.Artifact.Render
import OpenApi.Artifact.Write

/-!
A run from the command line: reads the settings, builds the API that they name, and writes the
artifacts that they ask for.
-/
namespace OpenApi.Cli

variable {m : Type → Type} [Monad m] [Host m]

/-- The settings that are read when no others are named. -/
def defaultConfig : String := "oasgen.yaml"

/-- A session gathers notices and may meet a fault. -/
abbrev Session (m : Type → Type) := ExceptT Fault (StateT (List Notice) m)

/-- Goes on with what a run gives. -/
def on {α : Type} (x : Run m α) : Session m α := do
  let result ← x.run
  MonadExcept.ofExcept result

/-- Gives the notices of a computation and goes on with its result. -/
def told {α : Type} (x : Traced α) : Session m α := do
  modify (· ++ x.notices)
  MonadExcept.ofExcept x.result

/-- A session with the given arguments; the first names the settings. -/
def session (args : List String) : Session m Unit := do
  let path := DiskPath.ofText (args.head?.getD defaultConfig)
  let config ← on (Config.load path)
  match config.input with
  | none => throw (.config (.noInput path.text))
  | some input =>
    let doc ← on (Source.load input)
    let api ← told (Api.build doc config)
    let artifacts ← MonadExcept.ofExcept (Artifact.renderAll api config)
    let _ ← on (Artifact.writeAll config (some path.parent) artifacts)

/-- What ends with a fault that is to be told, as the last line of a session. -/
def complaint? (f : Fault) : Option String :=
  if f.isReported then f.message?.map ("oasgen: " ++ ·) else none

end OpenApi.Cli
