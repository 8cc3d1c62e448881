import OpenApi.Artifact.Docs
import OpenApi.Artifact.Handlers
import OpenApi.Artifact.Routes
import OpenApi.Artifact.Rpc
import OpenApi.Artifact.SvelteQuery
import OpenApi.Artifact.Swr
import OpenApi.Artifact.TanstackQuery
import OpenApi.Artifact.Types
import OpenApi.Artifact.VueQuery
import OpenApi.View.Build

/-!
The text of the artifact for each target.
-/
namespace OpenApi.Artifact

/-- The lines of the artifact for a target. -/
def lines (target : Target) (api : Api) (names : NameTable) (config : Config) :
    Checked (List String) := do
  let view := View.ofApi api names config
  match target with
  | .routes => Routes.lines (← view)
  | .handlers => Handlers.lines (← view)
  | .types => Types.lines (← view)
  | .rpc => Rpc.lines (← view)
  | .swr => Swr.lines (← view)
  | .tanstackQuery => TanstackQuery.lines (← view)
  | .vueQuery => VueQuery.lines (← view)
  | .svelteQuery => SvelteQuery.lines (← view)
  | .docs => Docs.lines (← DocsView.ofApi api names config)

/-- A name that is missing is reported for the target that needed it. -/
def reportUnnamed {α : Type} (target : Target) (x : Checked α) : Checked α :=
  match x with
  | .error (.noName scope shown) =>
    .error (.artifact target.text (.unnamed ((Fault.noName scope shown).message?.getD "")))
  | outcome => outcome

/-- The artifact for a target, with names that may be others than those of the API. -/
def renderWith (target : Target) (api : Api) (names : NameTable) (config : Config) :
    Checked String :=
  reportUnnamed target do return ofLines (← lines target api names config)

/-- The artifact for a target. -/
def render (target : Target) (api : Api) (config : Config) : Checked String :=
  renderWith target api api.names config

/-- The target of a name. -/
def target (name : String) : Checked Target :=
  match Target.ofText? name with
  | some t => .ok t
  | none => .error (.artifact name .unknownTarget)

/-- The artifacts for all targets asked for. The first that fails decides. -/
def renderAll (api : Api) (config : Config) : Checked (List (Target × String)) :=
  config.selected.mapM fun t => do return (t, ← render t api config)

end OpenApi.Artifact
