import OpenApi.Api.Basic

/-!
Naming everything that an API generates, in the order of the document.
-/
namespace OpenApi
namespace Operation

/-- The id of an operation, if it has one. -/
def idText (op : Operation) : Checked (Option String) :=
  if !op.id.truthy then .ok none
  else match op.id with
    | .str s => .ok (some s)
    | _ => .error .wrongKind

end Operation

/-- What the name of a parameter is found by among those of its operation. -/
def Parameter.owner (p : Parameter) : String := p.location.text ++ ":" ++ p.name

namespace NameTable

def registerTypes (naming : Naming) : NameTable → List Scalar → Checked NameTable
  | table, [] => .ok table
  | table, .str name :: rest =>
    registerTypes naming (table.register naming name .schemaType "" "").2 rest
  | _, _ :: _ => .error .wrongKind

def registerParameters (naming : Naming) (space : String) (table : NameTable)
    (parameters : List Parameter) : NameTable :=
  parameters.foldl (fun table p => (table.register naming p.name .parameter space p.owner).2) table

/-- Names the function of an operation, what is derived from it, and the parameters. -/
def registerEndpoint (naming : Naming) (table : NameTable) (op : Operation) :
    Checked NameTable := do
  let (function, table) :=
    table.registerOperation naming op.method op.path (← op.idText) op.key
  let stem := Identifier.pascal function
  let (_, table) := table.register naming ("get" ++ stem ++ "Key") .cacheKey "" op.key
  let (_, table) := table.register naming ("use" ++ stem) .hook "" op.key
  let (_, table) := table.register naming ("create" ++ stem) .hook "create" op.key
  return table.registerParameters naming op.key op.parameters

/-- The names of an API. -/
def assign (naming : Naming) (types : List Scalar) (operations : List Operation) :
    Checked NameTable := do
  operations.foldlM (registerEndpoint naming) (← registerTypes naming [] types)

end NameTable
end OpenApi
