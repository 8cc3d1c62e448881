import OpenApi.Name.Table
import OpenApi.Wire.Codec

/-!
An API with everything that artifacts are made of: its operations with their wire formats and types,
its named types, and the names of all of them.
-/
namespace OpenApi

/-- The body of a request. -/
structure RequestBody where
  contentType : Option String
  required : Bool
  type : Descriptor

/-- A response; one without a schema has no type. -/
structure TypedResponse where
  status : String
  description : String
  contentType : Option String
  type : Option Descriptor

structure Endpoint where
  operation : Operation
  codecs : List Codec
  body : Option RequestBody
  responses : List TypedResponse

structure Api where
  info : Entries
  types : NamedTypes
  endpoints : List Endpoint
  names : NameTable
  securitySchemes : Entries
  warnings : List String

namespace Descriptor

/-- The warnings on a type and all types inside of it. -/
def allWarnings (d : Descriptor) : List String := d.walk.flatMap (·.traits.warnings)

end Descriptor
end OpenApi
