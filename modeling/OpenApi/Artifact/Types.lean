import OpenApi.Artifact.Comment

/-!
The named types alone.
-/
namespace OpenApi.Artifact.Types

def type (t : TypeView) : Checked (List String) := do
  let doc ← if t.description.truthy then comment [t.description] else pure []
  return doc ++ [s!"export type {t.identifier} = {t.ts}"]

/-- Types with an empty line between them. -/
def separated : List TypeView → Checked (List String)
  | [] => .ok []
  | t :: rest => do return (← type t) ++ (← each rest fun t => do return "" :: (← type t))

def lines (v : View) : Checked (List String) :=
  return [← header v, ""] ++ (← separated v.types)

end OpenApi.Artifact.Types
