import OpenApi.View.Basic

/-!
Views as data, for readers that lay them out in other ways.
-/
namespace OpenApi

def Value.ofTexts (texts : List String) : Value := .list (texts.map Value.str)

def ParameterView.data (p : ParameterView) : Value := .record [
  ("name", .str p.name),
  ("key", .str p.key),
  ("variable", .str p.variableName),
  ("location", .str p.location.text),
  ("style", .str p.style.text),
  ("explode", .bool p.explode),
  ("shape", .str p.shape.text),
  ("required", .bool p.required),
  ("description", .ofText? p.description),
  ("zod", .str p.zod),
  ("type", .str p.type),
  ("ts", .str p.ts)]

def BodyView.data (b : BodyView) : Value := .record [
  ("content_type", .ofText? b.contentType),
  ("input", .str b.input),
  ("required", .bool b.required),
  ("zod", .str b.zod),
  ("ts", .str b.ts)]

def ResponseView.data (r : ResponseView) : Value := .record [
  ("status", .str r.status),
  ("status_key", .str r.statusKey),
  ("description", .str r.description),
  ("content_type", .ofText? r.contentType),
  ("zod", .ofText? r.zod),
  ("ts", .ofText? r.ts)]

def RequestGroup.data (g : RequestGroup) : Value := .record [
  ("target", .str g.target),
  ("params", .list (g.parameters.map (·.data)))]

def OperationView.data (op : OperationView) : Value := .record [
  ("key", .str op.key),
  ("method", .str op.method),
  ("path", .str op.path),
  ("prefix", .str op.group),
  ("operation_id", op.id),
  ("summary", op.summary),
  ("description", .ofText? op.description),
  ("tags", .list op.tags),
  ("deprecated", .bool op.deprecated),
  ("doc", .list op.doc),
  ("function", .str op.function),
  ("label", .str op.label),
  ("route", .str op.route),
  ("handler", .str op.handler),
  ("cache_key", .str op.cacheKey),
  ("query_options", .str op.queryOptions),
  ("hook", .str op.hook),
  ("create_hook", .str op.createHook),
  ("accessor", .str op.accessor),
  ("is_query", .bool op.isQuery),
  ("params", .list (op.parameters.map (·.data))),
  ("request_groups", .list (op.requestGroups.map (·.data))),
  ("args", .ofText? op.args),
  ("inputs", .ofTexts op.inputs),
  ("body", (op.body.map (·.data)).getD .null),
  ("responses", .list (op.responses.map (·.data))),
  ("security", .ofText? op.security),
  ("security_names", .ofTexts op.securityNames)]

def TypeView.data (t : TypeView) : Value := .record [
  ("name", .scalar t.name),
  ("identifier", .str t.identifier),
  ("schema", .str t.schema),
  ("ts", .str t.ts),
  ("zod", .str t.zod),
  ("annotated", .bool t.annotated),
  ("recursive", .bool t.recursive),
  ("description", t.description)]

def View.fields (v : View) : List (String × Value) := [
  ("title", v.title),
  ("version", v.version),
  ("types", .list (v.types.map (·.data))),
  ("operations", .list (v.operations.map (·.data))),
  ("operation_count", .int v.operations.length),
  ("client_import", .str v.clientImport),
  ("routes_import", .str v.routesImport),
  ("types_import", .str v.typesImport),
  ("security_schemes", .ofText? v.securitySchemes)]

def View.data (v : View) : Value := .record v.fields

def SchemeView.data (s : SchemeView) : Value := .record [
  ("name", .scalar s.name),
  ("type", s.type),
  ("detail", s.detail),
  ("description", s.description)]

def DocsView.data (d : DocsView) : Value :=
  .record (d.view.fields ++ [
    ("description", d.description),
    ("index", .list (d.index.map fun (path, links) =>
      .record [("path", .str path), ("links", .ofTexts links)])),
    ("schemes", .list (d.schemes.map (·.data)))])

end OpenApi
