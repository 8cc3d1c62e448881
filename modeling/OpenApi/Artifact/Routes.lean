import OpenApi.Artifact.Comment
import OpenApi.TypeScript.Literal

/-!
Route definitions for a server, with the schemas they check by.
-/
namespace OpenApi.Artifact.Routes

open TypeScript (quoted quotedOf)

/-- A named type: its schema, and the type that is inferred from it. One that refers to itself is
given its type beforehand. -/
def type (t : TypeView) : Checked (List String) := do
  let schema := t.zod ++ ".openapi(" ++ (← quotedOf (.scalar t.name)) ++ ")"
  let definition :=
    if t.annotated then
      [s!"type {t.identifier}Type = {t.ts}",
        "",
        s!"export const {t.schema}: z.ZodType<{t.identifier}Type> = {schema}"]
    else [s!"export const {t.schema} = {schema}"]
  return definition ++ ["", s!"export type {t.identifier} = z.infer<typeof {t.schema}>", ""]

/-- A line for a text that is there. -/
def textLine (name : String) (v : Value) : Checked (List String) := do
  if !v.truthy then return []
  let text ← quotedOf v
  return [s!"  {name}: {text},"]

def tags (values : List Value) : Checked (List String) := do
  if values.isEmpty then return []
  return ["  tags: [" ++ Text.join ", " (← values.mapM quotedOf) ++ "],"]

def flag (b : Bool) : String := if b then "true" else "false"

def parameter (p : ParameterView) : String :=
  s!"      {p.key}: {p.zod}.openapi(\x7b param: \x7b name: {quoted p.name}, in: '{p.location.text}', "
    ++ s!"style: '{p.style.text}', explode: {flag p.explode} \x7d \x7d),"

def group (g : RequestGroup) : List String :=
  s!"    {g.target}: z.object(\x7b" :: g.parameters.map parameter ++ ["    \x7d),"]

/-- A schema under the media type that it describes. -/
def content (contentType : Option String) (zod : String) : Checked String := do
  let mediaType ← quotedOf ((contentType.map Value.str).getD .null)
  return s!"      content: \x7b {mediaType}: \x7b schema: {zod} \x7d \x7d,"

def body (b : BodyView) : Checked (List String) := do
  let required := if b.required then ["      required: true,"] else []
  return ["    body: \x7b", ← content b.contentType b.zod] ++ required ++ ["    \x7d,"]

def request (op : OperationView) : Checked (List String) := do
  if op.requestGroups.isEmpty && op.body.isNone then return []
  let bodyLines ←
    match op.body with
    | some b => body b
    | none => pure []
  return "  request: \x7b" :: op.requestGroups.flatMap group ++ bodyLines ++ ["  \x7d,"]

def response (r : ResponseView) : Checked (List String) := do
  let contentLines ←
    match r.zod with
    | some zod => pure [← content r.contentType zod]
    | none => pure []
  return [s!"    {r.statusKey}: \x7b", s!"      description: {quoted r.description},"] ++ contentLines
    ++ ["    \x7d,"]

def operation (op : OperationView) : Checked (List String) := do
  let tagLines ← tags op.tags
  let summary ← textLine "summary" op.summary
  let description ← textLine "description" ((op.description.map Value.str).getD .null)
  let id ← textLine "operationId" op.id
  let deprecated := if op.deprecated then ["  deprecated: true,"] else []
  let security := op.security.toList.map fun s => s!"  security: {s},"
  let requestLines ← request op
  let responses ← op.responses.mapM response
  return [
    s!"export const {op.route} = createRoute(\x7b",
    s!"  method: '{op.method}',",
    s!"  path: {quoted op.path},"]
    ++ tagLines ++ summary ++ description ++ id ++ deprecated ++ security ++ requestLines
    ++ ["  responses: \x7b"] ++ responses.flatten ++ ["  \x7d,", "\x7d)", ""]

def lines (v : View) : Checked (List String) := do
  let types ← v.types.mapM type
  let operations ← v.operations.mapM operation
  let schemes := v.securitySchemes.toList.map fun s =>
    s!"export const securitySchemes = {s} as const"
  return [← header v, "", "import \x7b createRoute, z \x7d from '@hono/zod-openapi'", ""]
    ++ types.flatten ++ operations.flatten ++ schemes

end OpenApi.Artifact.Routes
