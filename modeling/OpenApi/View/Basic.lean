import OpenApi.Api.Basic

/-!
What artifacts print: all texts in final form, so that printing only lays them out.
-/
namespace OpenApi

/-- A text that need not be there; null stands for none. -/
def Value.ofText? (s : Option String) : Value := (s.map Value.str).getD .null

structure ParameterView where
  name : String
  key : String
  variableName : String
  location : Location
  style : Style
  explode : Bool
  shape : Shape
  required : Bool
  description : Option String
  zod : String
  type : String
  /-- The parameter as a member of an object type. -/
  ts : String

structure BodyView where
  contentType : Option String
  /-- The key under which a client takes the body. -/
  input : String
  required : Bool
  zod : String
  ts : String

structure ResponseView where
  status : String
  statusKey : String
  description : String
  contentType : Option String
  zod : Option String
  ts : Option String

/-- The parameters that travel in one place. -/
structure RequestGroup where
  target : String
  parameters : List ParameterView

structure OperationView where
  key : String
  method : String
  path : String
  /-- What cache keys of related operations start with. -/
  group : String
  id : Value
  summary : Value
  description : Option String
  tags : List Value
  deprecated : Bool
  /-- The lines of the comment on the operation. -/
  doc : List Value
  function : String
  label : String
  route : String
  handler : String
  cacheKey : String
  queryOptions : String
  hook : String
  createHook : String
  accessor : String
  isQuery : Bool
  parameters : List ParameterView
  requestGroups : List RequestGroup
  /-- The type of a client's argument; none if it takes none. -/
  args : Option String
  /-- The keys of a client's argument. -/
  inputs : List String
  body : Option BodyView
  responses : List ResponseView
  security : Option String
  securityNames : List String

structure TypeView where
  name : Scalar
  identifier : String
  schema : String
  ts : String
  zod : String
  annotated : Bool
  recursive : Bool
  description : Value

structure View where
  title : Value
  version : Value
  types : List TypeView
  operations : List OperationView
  clientImport : String
  routesImport : String
  typesImport : String
  securitySchemes : Option String

structure SchemeView where
  name : Scalar
  type : Value
  detail : Value
  description : Value

/-- What the reference of an API prints. -/
structure DocsView where
  view : View
  description : Value
  /-- The operations of each path, as links. -/
  index : List (String × List String)
  schemes : List SchemeView

end OpenApi
