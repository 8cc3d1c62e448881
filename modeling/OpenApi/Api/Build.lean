import OpenApi.Api.Names
import OpenApi.Config
import OpenApi.Operation.Parse
import OpenApi.Schema.Resolve
import OpenApi.Wire.Build

/-!
Making an API of a document. Each step ends before the next one starts, and the first fault ends all
of them.
-/
namespace OpenApi

/-- Runs a mapping from the start. -/
def Mapping.traced {α : Type} (x : Mapping α) : Traced α :=
  let (result, state) := (x.run).run {}
  { notices := state.notices, result }

namespace Endpoint

def response (m : Mapper) (r : Response) : Mapping TypedResponse := do
  let type ←
    match r.schema with
    | some id => if id.isEmpty then pure none else some <$> m.mapUse id
    | none => pure none
  return { status := r.status, description := r.description, contentType := r.contentType, type }

def ofOperation (m : Mapper) (op : Operation) : Mapping Endpoint := do
  let codecs ← op.parameters.mapM (·.codec m)
  let body ←
    match op.body with
    | some id =>
      pure (some {
        contentType := op.bodyContentType
        required := op.bodyRequired
        type := ← m.mapUse id : RequestBody })
    | none => pure none
  return { operation := op, codecs, body, responses := ← op.responses.mapM (response m) }

end Endpoint

namespace Api

/-- All warnings, each of them once: on named types, bodies, responses and parameters. -/
def gatherWarnings (types : NamedTypes) (endpoints : List Endpoint) : List String :=
  let descriptors :=
    types.map Prod.snd
      ++ endpoints.filterMap (·.body.map (·.type))
      ++ endpoints.flatMap (·.responses.filterMap (·.type))
      ++ endpoints.flatMap (·.codecs.map (·.type))
  Assoc.distinct (descriptors.flatMap (·.allWarnings))

/-- Maps everything that has a type. -/
def mapAll (m : Mapper) (operations : List Operation) : Mapping (NamedTypes × List Endpoint) := do
  let types ← m.namedTypes
  let endpoints ← operations.mapM (Endpoint.ofOperation m)
  return (types, endpoints)

/-- The API that a document describes. -/
def build (doc : Value) (config : Config) : Traced Api := do
  let operations ← Operation.parseAll doc
  let table ← SchemaTable.ofDocument doc config.policy
  let mapper ← Mapper.ofTable table
  let (types, endpoints) ← (mapAll mapper operations).traced
  let names ← NameTable.assign config.naming (types.map Prod.fst) operations
  let warnings := gatherWarnings types endpoints
  Traced.note (.built operations.length types.length warnings.length)
  return {
    types, endpoints, names, warnings
    info := ← (← doc.get "info").orEmpty.asEntries
    securitySchemes := ← (← Document.securitySchemes doc).asEntries }

end Api
end OpenApi
