import OpenApi.Assoc
import OpenApi.Document
import OpenApi.Notice
import OpenApi.Operation.Basic
import OpenApi.Text.Blank
import OpenApi.Text.Bracket

/-!
Reading the operations of a document.
-/
namespace OpenApi

/-- Takes tags out of a text and makes one blank of each run of white space. -/
def plainText (s : String) : String :=
  let kept := (Text.pieces '<' '>' s.toList).flatMap fun
    | .outside cs => cs
    | .inside _ => []
  String.ofList (Text.trimList Text.isBlank (Text.squeezeList Text.isBlank ' ' kept))

/-- The description of something, without markup; none if nothing is left of it. -/
def descriptionOf (holder : Value) : Checked (Option String) := do
  let v ← holder.get "description"
  if !v.truthy then return none
  let text := plainText (← v.text)
  return if text.isEmpty then none else some text

/-- Cuts a path at its parameters. -/
def pathSegments (path : String) : List Segment :=
  (Text.pieces '{' '}' path.toList).map fun
    | .outside cs => .literal (String.ofList cs)
    | .inside cs => .parameter (String.ofList cs)

def jsonMediaTypes : List String := ["application/json", "text/json"]

/-- The first media type in a JSON format or with a schema. -/
def firstSuitable : Entries → Checked (Option String)
  | [] => .ok none
  | (.str name, media) :: rest =>
    if name.endsWith "+json" then .ok (some name)
    else match media with
      | .map entries =>
        if Entries.has entries "schema" then .ok (some name) else firstSuitable rest
      | _ => firstSuitable rest
  | _ :: _ => .error .wrongKind

/-- The media type to use: JSON if there is, else the first suitable one, else the first. -/
def pickMediaType (content : Value) : Checked (Option String) := do
  for name in jsonMediaTypes do
    if ← content.has name then return some name
  let entries ← content.entries
  match ← firstSuitable entries with
  | some name => return some name
  | none => return entries.head?.bind fun (k, _) => (Value.scalar k).str?

/-- The pointer of the schema of a media type, if it has one. -/
def mediaSchema (content : Value) (name : Value) (pointer : String) : Checked (Option String) := do
  if ← (← content.item name).orEmpty.has "schema" then
    return some (Pointer.join pointer ["content", ← name.text, "schema"])
  return none

namespace Parameter

/-- The style and explode flag that a collection format stands for; the style may be left open. -/
def collectionFormat? (format : String) : Option (Option Style × Bool) :=
  match format with
  | "csv" => some (none, false)
  | "multi" => some (some .form, true)
  | "ssv" => some (some .spaceDelimited, false)
  | "pipes" => some (some .pipeDelimited, false)
  | _ => none

def parseStyle (param : Entries) (pointer : String) (location : Location) : Checked Style := do
  match param.get? "style" with
  | none => return location.defaultStyle
  | some v =>
    match v.str?.bind Style.ofText? with
    | some style => return style
    | none => throw (.parameter pointer (.unknownStyle (← v.inner)))

/-- The style and explode flag of a parameter. -/
def parseFormat (param : Entries) (pointer : String) (location : Location) :
    Checked (Style × Bool) := do
  let style ← parseStyle param pointer location
  let explode := ((param.get? "explode").getD (.bool style.defaultExplode)).truthy
  match param.get? "collectionFormat" with
  | none => return (style, explode)
  | some (.scalar format) =>
    match (Value.scalar format).str?.bind collectionFormat? with
    | some (style?, explode) => return (style?.getD style, explode)
    | none => throw (.parameter pointer (.unknownCollectionFormat (← format.inner)))
  | some _ => throw .wrongKind

/-- The pointer of a parameter's schema, and its media type if it is described by one. -/
def parseSchema (param : Entries) (pointer : String) : Checked (Option String × Option Scalar) := do
  if param.has "schema" then return (some (Pointer.child pointer "schema"), none)
  match param.get? "content" with
  | some content =>
    match ← content.orEmpty.elements with
    | [name] =>
      let schema ← mediaSchema content.orEmpty name pointer
      match name with
      | .scalar .null => return (schema, none)
      | .scalar s => return (schema, some s)
      | _ => throw .wrongKind
    | _ => throw (.parameter pointer .manyMediaTypes)
  | none =>
    match ← Document.inlineSchema? (.map param) with
    | some _ => return (some pointer, none)
    | none => return (none, none)

/-- Is a parameter the body or a field of a form, and so none of its own? -/
def isBodyPart (place : Value) : Bool := place.same (.str "body") || place.same (.str "formData")

/-- Reads a parameter behind its references; none for bodies and form fields. -/
def parse (doc raw : Value) (pointer : String) : Checked (Option Parameter) := do
  let (param, pointer) ← Document.deref doc raw pointer
  match param with
  | .map entries =>
    let entries : Entries := entries
    match entries.get? "name", entries.get? "in" with
    | some name, some place =>
      if isBodyPart place then return none
      match place.str?.bind Location.ofText? with
      | none => throw (.parameter pointer (.unknownLocation (← place.inner)))
      | some location =>
        let (style, explode) ← parseFormat entries pointer location
        let (schema, contentType) ← parseSchema entries pointer
        return some {
          name := ← name.text
          location, style, explode, schema, contentType, pointer
          required := location == .path || ((entries.get? "required").getD (.bool false)).truthy
          description := ← descriptionOf param
          deprecated := ((entries.get? "deprecated").getD (.bool false)).truthy }
    | _, _ => throw (.parameter pointer .noNameOrPlace)
  | _ => throw (.parameter pointer .noNameOrPlace)

end Parameter

namespace Operation

/-- A parameter as it stands in a list, with the pointer of its place. -/
abbrev RawParameter := Value × String

/-- The parameters in a list of them. -/
def listed (holder : Value) (pointer : String) : Checked (List RawParameter) := do
  let items ← (← holder.getD "parameters" (.list [])).elements
  return items.zipIdx.map fun (v, i) => (v, Pointer.join pointer ["parameters", Nat.repr i])

/-- Tells that a form field is passed over. -/
def noteFormField (doc : Value) (raw : RawParameter) : Traced Unit := do
  let (param, _) ← Document.deref doc raw.1 raw.2
  if (← param.get "in").same (.str "formData") then
    Traced.note (.formData raw.2)

/-- Parameters by name and location; a later one takes the place of an earlier one. -/
def mergeParameters (doc : Value) :
    List ((String × Location) × Parameter) → List RawParameter →
      Traced (List ((String × Location) × Parameter))
  | acc, [] => pure acc
  | acc, raw :: rest => do
    match ← Parameter.parse doc raw.1 raw.2 with
    | some p => mergeParameters doc (Assoc.insert acc (p.name, p.location) p) rest
    | none =>
      noteFormField doc raw
      mergeParameters doc acc rest

/-- Tells about parameters that the path names and nobody declares. -/
def noteUndeclared (method path : String) (template : List Segment) (declared : List String) :
    Traced Unit :=
  template.forM fun
    | .parameter name =>
      if declared.contains name then pure ()
      else Traced.note (.undeclaredPathParameter (Text.upper method) path name)
    | .literal _ => pure ()

/-- A request body: its schema, media type, and whether it must be there. -/
structure Body where
  schema : Option String := none
  contentType : Option String := none
  required : Bool := false

def parseBody (doc operation : Value) (pointer : String) : Checked Body := do
  let raw ← operation.item (.str "requestBody")
  let (request, pointer) ← Document.deref doc raw (Pointer.child pointer "requestBody")
  let content := (← request.get "content").orEmpty
  let contentType ← pickMediaType content
  let schema ←
    match contentType with
    | some name => mediaSchema content (.str name) pointer
    | none => pure none
  return { schema, contentType, required := (← request.get "required").truthy }

/-- The body that is given as a parameter. -/
def bodyParameter (doc : Value) : List RawParameter → Checked Body
  | [] => .ok {}
  | (raw, pointer) :: rest => do
    let (param, pointer) ← Document.deref doc raw pointer
    match param with
    | .map entries =>
      let entries : Entries := entries
      if (entries.get? "in").any (·.same (.str "body")) && entries.has "schema" then
        return {
          schema := some (Pointer.child pointer "schema")
          contentType := some "application/json"
          required := ((entries.get? "required").getD (.bool false)).truthy }
      bodyParameter doc rest
    | _ => bodyParameter doc rest

def parseResponse (doc : Value) (pointer : String) (status : Scalar) (raw : Value) :
    Checked Response := do
  let status ← status.text
  let (response, pointer) ← Document.deref doc raw (Pointer.join pointer ["responses", status])
  let description := (← descriptionOf response).getD ""
  if ← response.has "schema" then
    return {
      status
      description
      contentType := some "application/json"
      schema := some (Pointer.child pointer "schema") }
  let content := (← response.get "content").orEmpty
  let contentType ← pickMediaType content
  let schema ←
    match contentType with
    | some name => mediaSchema content (.str name) pointer
    | none => pure none
  return { status, description, contentType, schema }

def parseResponses (doc operation : Value) (pointer : String) : Checked (List Response) := do
  let entries ← (← operation.get "responses").orEmpty.entries
  entries.mapM fun (status, raw) => parseResponse doc pointer status raw

/-- Reads an operation; `shared` are the parameters of its path. -/
def parse (doc : Value) (path : Scalar) (method : String) (operation : Value) (pointer : String)
    (shared : List RawParameter) : Traced Operation := do
  let params := shared ++ (← listed operation pointer)
  let merged ← mergeParameters doc [] params
  match path with
  | .str path =>
    let template := pathSegments path
    let declared := merged.filterMap fun ((name, location), _) =>
      if location == .path then some name else none
    noteUndeclared method path template declared
    let body ←
      if ← operation.has "requestBody" then parseBody doc operation pointer
      else bodyParameter doc params
    return {
      method, path, template, pointer
      id := ← operation.get "operationId"
      summary := ← operation.get "summary"
      description := ← descriptionOf operation
      tags := ← (← operation.getD "tags" (.list [])).elements
      deprecated := (← operation.get "deprecated").truthy
      security := ← operation.getD "security" (← doc.get "security")
      parameters := merged.map Prod.snd
      body := body.schema
      bodyContentType := body.contentType
      bodyRequired := body.required
      responses := ← parseResponses doc operation pointer }
  | _ => Except.error Fault.wrongKind

/-- The operations of a path. -/
def parseItem (doc : Value) (path : Scalar) (raw : Value) : Traced (List Operation) := do
  let (item, pointer) ← Document.deref doc raw (Pointer.child "#/paths" (← path.text))
  let shared ← listed item pointer
  let operations := (← item.entries).filterMap fun (key, operation) =>
    (Document.method? key).map fun method => (method, operation)
  operations.mapM fun (method, operation) =>
    parse doc path method operation (Pointer.child pointer method) shared

/-- All operations of a document, in its order. -/
def parseAll (doc : Value) : Traced (List Operation) := do
  let paths ← (← Document.paths doc).entries
  let parsed ← paths.mapM fun (path, item) => parseItem doc path item
  return parsed.flatten

end Operation
end OpenApi
