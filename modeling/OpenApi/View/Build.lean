import OpenApi.Api.Names
import OpenApi.Config
import OpenApi.Text.Search
import OpenApi.TypeScript.Route
import OpenApi.TypeScript.Zod
import OpenApi.Types.Order
import OpenApi.View.Basic

/-!
Making views of an API.
-/
namespace OpenApi
namespace View

/-- The name of a place in the validation of requests. -/
def requestTarget : Location → String
  | .path => "params"
  | .query => "query"
  | .header => "headers"
  | .cookie => "cookies"

/-- The name of a place in the argument of a client. -/
def clientTarget : Location → String
  | .path => "param"
  | .query => "query"
  | .header => "header"
  | .cookie => "cookie"

/-- The key under which a client takes a body. -/
def bodyInput (contentType : Option String) : String :=
  match contentType with
  | some "multipart/form-data" | some "application/x-www-form-urlencoded" => "form"
  | _ => "json"

def isQueryMethod (method : String) : Bool := method == "get" || method == "head"

/-- Adds a line that says something and was not said yet. -/
def addLine (lines : List Value) (line : Value) : List Value :=
  if line.truthy && !lines.any (·.same line) then lines ++ [line] else lines

/-- The comment on an operation: method and path, summary, description. -/
def docLines (op : Operation) : List Value :=
  let lines := addLine (addLine [.str op.key] op.summary) (.ofText? op.description)
  if op.deprecated then lines ++ [.str "@deprecated"] else lines

/-- The security schemes that an operation mentions. -/
def securityNames (security : Value) : Checked (List String) := do
  if !security.truthy then return []
  let names ← (← security.elements).mapM fun
    | .map entries => entries.mapM fun (k, _) => k.text
    | _ => .ok []
  return Assoc.distinct names.flatten

def parameter (names : NameTable) (op : Operation) (c : Codec) : Checked ParameterView := do
  let p := c.parameter
  let schema ← TypeScript.Zod.schema names (c.shape != .content) c.type
  let type ← TypeScript.type names c.type
  let key := TypeScript.key p.name
  return {
    name := p.name
    key
    variableName := ← names.get .parameter (.str p.owner) op.key
    location := p.location
    style := p.style
    explode := p.explode
    shape := c.shape
    required := p.required
    description := p.description
    zod := if p.required then schema else schema ++ ".exactOptional()"
    type
    ts := key ++ (if p.required then "" else "?") ++ ": " ++ type }

/-- Parameters by place; places without parameters are left out. -/
def groups (target : Location → String) (parameters : List ParameterView) : List RequestGroup :=
  Location.all.filterMap fun location =>
    match parameters.filter fun p => p.location == location with
    | [] => none
    | members => some { target := target location, parameters := members }

def body (names : NameTable) (b : RequestBody) : Checked BodyView := do
  let zod ← TypeScript.Zod.schema names false b.type
  let ts ← TypeScript.type names b.type
  return {
    contentType := b.contentType
    input := bodyInput b.contentType
    required := b.required
    zod, ts }

def response (names : NameTable) (r : TypedResponse) : Checked ResponseView := do
  let statusKey := if Text.isNumeral r.status then r.status else TypeScript.quoted r.status
  let (zod, ts) ←
    match r.type with
    | some d => do
      let zod ← TypeScript.Zod.schema names false d
      pure (some zod, some (← TypeScript.type names d))
    | none => pure (none, none)
  return {
    status := r.status
    statusKey
    description := r.description
    contentType := r.contentType
    zod, ts }

/-- A member of a client's argument for a place. -/
def groupArgument (g : RequestGroup) : String :=
  let optional := g.parameters.all (!·.required)
  g.target ++ (if optional then "?" else "") ++ ": \x7b "
    ++ Text.join "; " (g.parameters.map (·.ts)) ++ " \x7d"

def bodyArgument (b : BodyView) : String :=
  b.input ++ (if b.required then "" else "?") ++ ": " ++ b.ts

/-- The type of a client's argument. -/
def arguments (members : List String) : Option String :=
  if members.isEmpty then none else some ("\x7b " ++ Text.join "; " members ++ " \x7d")

def label (op : Operation) (function : String) : String :=
  match op.id with
  | .str s => if s.isEmpty then function else s
  | _ => function

def security (v : Value) : Checked (Option String) := do
  if v.isNull then return none
  return some (← TypeScript.literal (.list (← v.elements)))

def operation (names : NameTable) (e : Endpoint) : Checked OperationView := do
  let op := e.operation
  let function ← names.get .operation (.str op.key) ""
  let stem := Identifier.pascal function
  let parameters ← e.codecs.mapM (parameter names op)
  let body ← e.body.mapM (body names)
  let responses ← e.responses.mapM (response names)
  let clientGroups := groups clientTarget parameters
  return {
    key := op.key
    method := op.method
    path := op.path
    group := TypeScript.pathGroup op.path
    id := op.id
    summary := op.summary
    description := op.description
    tags := op.tags
    deprecated := op.deprecated
    doc := docLines op
    function
    label := label op function
    route := function ++ "Route"
    handler := function ++ "RouteHandler"
    cacheKey := ← names.get .cacheKey (.str op.key) ""
    queryOptions := "get" ++ stem ++ "QueryOptions"
    hook := ← names.get .hook (.str op.key) ""
    createHook := ← names.get .hook (.str op.key) "create"
    accessor := TypeScript.clientFunction "client" op.path op.method
    isQuery := isQueryMethod op.method
    parameters
    requestGroups := groups requestTarget parameters
    args := arguments (clientGroups.map groupArgument ++ body.toList.map bodyArgument)
    inputs := clientGroups.map (·.target) ++ body.toList.map (·.input)
    body
    responses
    security := ← security op.security
    securityNames := ← securityNames op.security }

def type (names : NameTable) (types : NamedTypes) (name : Scalar) : Checked TypeView := do
  match types.get? name with
  | none => throw .wrongKind
  | some d =>
    let identifier ← TypeScript.typeName names name
    let schema ← TypeScript.Zod.schemaName names name
    let ts ← TypeScript.type names d
    let zod ← TypeScript.Zod.schema names false d
    return {
      name, identifier, schema, ts, zod
      annotated := d.needsAnnotation
      recursive := d.traits.recursive
      description := d.traits.description }

/-- What all artifacts share; `names` may be others than those of the API. -/
def ofApi (api : Api) (names : NameTable) (config : Config) : Checked View := do
  let operations ← api.endpoints.mapM (operation names)
  let types ← api.types.dependencyOrder.mapM (type names api.types)
  let securitySchemes ←
    if api.securitySchemes.isEmpty then pure none
    else some <$> TypeScript.literal (.map api.securitySchemes)
  return {
    title := (api.info.get? "title").getD (.str "")
    version := (api.info.get? "version").getD (.str "unknown")
    types, operations
    clientImport := config.clientImport
    routesImport := config.routesImport
    typesImport := config.typesImport
    securitySchemes }

end View

namespace DocsView

/-- The anchor of a heading. -/
def anchor (heading : String) : String :=
  let kept := (Text.lower heading).toList.filter fun c =>
    c.isLower || c.isDigit || c == ' ' || c == '-'
  String.ofList (Text.squeezeList (· == ' ') '-' kept)

def link (op : OperationView) : String :=
  "[" ++ Text.upper op.method ++ "](#" ++ anchor op.label ++ ")"

/-- Adds a link under a path. -/
def addLink (index : List (String × List String)) (op : OperationView) :
    List (String × List String) :=
  Assoc.insert index op.path ((index.lookup op.path).getD [] ++ [link op])

/-- Texts with a comma between them; anything else is refused. -/
def commaTexts (v : Value) : Checked String := do
  let texts ← (← v.elements).mapM fun
    | .str s => .ok s
    | _ => .error .wrongKind
  return Text.join ", " texts

/-- What a security scheme goes by, depending on its type. -/
def detail (scheme : Entries) (type : Value) : Checked Value := do
  let given (key : String) : Value := (scheme.get? key).getD (.str "")
  match type with
  | .str "apiKey" =>
    return .str ((← (given "in").text) ++ " \x60" ++ (← (given "name").text) ++ "\x60")
  | .str "http" => return given "scheme"
  | .str "oauth2" => return .str (← commaTexts ((scheme.get? "flows").getD (.map [])))
  | .str "openIdConnect" => return given "openIdConnectUrl"
  | _ => return .str ""

def scheme (name : Scalar) (raw : Value) : Checked SchemeView := do
  let entries : Entries :=
    match raw with
    | .map entries => entries
    | _ => []
  let type := (entries.get? "type").getD (.str "")
  return {
    name, type
    detail := ← detail entries type
    description := (entries.get? "description").getD .null }

def ofApi (api : Api) (names : NameTable) (config : Config) : Checked DocsView := do
  let view ← View.ofApi api names config
  return {
    view
    description := (api.info.get? "description").getD .null
    index := view.operations.foldl addLink []
    schemes := ← api.securitySchemes.mapM fun (name, raw) => scheme name raw }

end DocsView
end OpenApi
