import OpenApi.Document

/-!
The places of a document that hold schemas, in document order.
-/
namespace OpenApi

/-- A schema with the pointer of its place. -/
structure SchemaPlace where
  pointer : String
  schema : Value

/-- What a walk through a document found, up to the fault that stopped it, if one did. -/
structure Walk where
  found : List SchemaPlace
  fault : Option Fault

namespace Walk

def nothing : Walk := { found := [], fault := none }

def one (pointer : String) (schema : Value) : Walk :=
  { found := [{ pointer, schema }], fault := none }

def stop (fault : Fault) : Walk := { found := [], fault := some fault }

/-- One walk after the other; a fault in the first ends both. -/
def append (a b : Walk) : Walk :=
  match a.fault with
  | some fault => { found := a.found, fault := some fault }
  | none => { found := a.found ++ b.found, fault := b.fault }

instance : Append Walk := ⟨append⟩

/-- The walks of all items, one after the other. -/
def each {α : Type} (items : List α) (walk : α → Walk) : Walk :=
  items.foldr (fun a rest => walk a ++ rest) nothing

/-- A walk that depends on a computation. -/
def after {α : Type} (a : Checked α) (walk : α → Walk) : Walk :=
  match a with
  | .ok x => walk x
  | .error fault => stop fault

/-- A walk that is taken if a computation says so. -/
def whenHeld (test : Checked Bool) (walk : Walk) : Walk :=
  after test fun held => if held then walk else nothing

end Walk

namespace SchemaPlaces

/-- The schema under the key `schema` of something that has it. -/
def schemaOf (holder : Value) (pointer : String) : Walk :=
  .after (holder.item (.str "schema")) fun schema => .one (Pointer.child pointer "schema") schema

/-- Schemas of media types. -/
def mediaTypes (content : Value) (pointer : String) (schemaIn : Value → Checked Bool) : Walk :=
  .after content.entries fun entries =>
    .each entries fun (name, media) =>
      .whenHeld (schemaIn media)
        (.after name.text fun name => schemaOf media (Pointer.join pointer ["content", name]))

/-- Schemas of a parameter or header: its own, the one it spells in place, and those of its media
types. -/
def ofParameter (doc param : Value) (pointer : String) : Walk :=
  .after (Document.deref doc param pointer) fun (param, pointer) =>
    .whenHeld (param.has "schema") (schemaOf param pointer)
      ++ .after (Document.inlineSchema? param) (fun
        | some schema => .one pointer schema
        | none => .nothing)
      ++ .after (param.getD "content" (.map [])) fun content =>
        mediaTypes content pointer fun media => media.has "schema"

/-- Does a media type carry a schema? One that is no mapping carries none. -/
def mediaHasSchema : Value → Checked Bool
  | .map entries => .ok (Entries.has entries "schema")
  | _ => .ok false

/-- Schemas of a request body or response: its own, those of its media types, and its headers'. -/
def ofMessage (doc message : Value) (pointer : String) : Walk :=
  .after (Document.deref doc message pointer) fun (message, pointer) =>
    .whenHeld (message.has "schema") (schemaOf message pointer)
      ++ .after (message.get "content") (fun content =>
        mediaTypes content.orEmpty pointer mediaHasSchema)
      ++ .after (do (← message.get "headers").orEmpty.entries) fun headers =>
        .each headers fun (name, header) =>
          .after name.text fun name =>
            ofParameter doc header (Pointer.join pointer ["headers", name])

/-- Schemas of a list of parameters. -/
def ofParameters (doc holder : Value) (pointer : String) : Walk :=
  .after (do (← holder.getD "parameters" (.list [])).elements) fun params =>
    .each params.zipIdx fun (param, i) =>
      ofParameter doc param (Pointer.join pointer ["parameters", Nat.repr i])

def ofOperation (doc operation : Value) (pointer : String) : Walk :=
  ofParameters doc operation pointer
    ++ .whenHeld (operation.has "requestBody")
      (.after (operation.item (.str "requestBody")) fun body =>
        ofMessage doc body (Pointer.child pointer "requestBody"))
    ++ .after (do (← operation.getD "responses" (.map [])).entries) fun responses =>
      .each responses fun (status, response) =>
        .after status.text fun status =>
          ofMessage doc response (Pointer.join pointer ["responses", status])

def ofPathItem (doc : Value) (path : Scalar) (item : Value) : Walk :=
  .after (do Document.deref doc item (Pointer.child "#/paths" (← path.text))) fun (item, pointer) =>
    ofParameters doc item pointer
      ++ .after item.entries fun entries =>
        .each entries fun (key, operation) =>
          match Document.method? key with
          | some method => ofOperation doc operation (Pointer.child pointer method)
          | none => .nothing

/-- Schemas of the entries of a section of `components`. -/
def ofSection (components : Value) (name : String) (walk : Value → String → Walk) : Walk :=
  .after (do (← components.getD name (.map [])).entries) fun entries =>
    .each entries fun (key, value) =>
      .after key.text fun key => walk value (Pointer.join "#/components" [name, key])

/-- The named schemas; `names` holds the pointer and the name of each. -/
def ofNames (doc : Value) (names : List (String × Value)) : Walk :=
  .each names fun (pointer, name) =>
    .after (do (← Document.schemas doc).item name) fun schema => .one pointer schema

/-- All schemas of a document: the named ones first. -/
def ofDocument (doc : Value) (names : List (String × Value)) : Walk :=
  ofNames doc names
    ++ .after (doc.getD "components" (.map [])) (fun components =>
      ofSection components "parameters" (ofParameter doc)
        ++ ofSection components "requestBodies" (ofMessage doc)
        ++ ofSection components "responses" (ofMessage doc)
        ++ ofSection components "headers" (ofParameter doc))
    ++ .after (do (← Document.paths doc).entries) fun paths =>
      .each paths fun (path, item) => ofPathItem doc path item

end SchemaPlaces
end OpenApi
