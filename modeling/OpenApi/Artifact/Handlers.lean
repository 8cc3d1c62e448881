import OpenApi.Artifact.Comment

/-!
Empty handlers for routes, which read the validated inputs.
-/
namespace OpenApi.Artifact.Handlers

def imports (v : View) : List String :=
  if v.operations.isEmpty then []
  else
    "import type \x7b" :: v.operations.map (fun op => s!"  {op.route},")
      ++ [s!"\x7d from '{v.routesImport}'"]

def operation (op : OperationView) : Checked (List String) := do
  let start := s!"export const {op.handler}: RouteHandler<typeof {op.route}> = async (c) => \x7b"
  let handler :=
    if op.inputs.isEmpty then [start ++ "\x7d"]
    else
      start :: op.inputs.map (fun input => s!"  const {input} = c.req.valid('{input}')") ++ ["\x7d"]
  return "" :: (← comment op.doc) ++ handler

def lines (v : View) : Checked (List String) := do
  return [← header v, "", "import type \x7b RouteHandler \x7d from '@hono/zod-openapi'"]
    ++ imports v ++ (← each v.operations operation)

end OpenApi.Artifact.Handlers
