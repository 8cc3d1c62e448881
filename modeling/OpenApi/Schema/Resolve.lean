import OpenApi.Schema.Location
import OpenApi.Schema.Merge
import OpenApi.Schema.Table

/-!
Resolving the schemas of a document into a table of nodes. Schemas are entered depth first; a
reference to a schema that is still being built becomes a marker, so every schema is built once.
-/
namespace OpenApi.Resolve

/-- What is fixed during a run: the document, the policy, and the named schemas. -/
structure Setting where
  doc : Value
  policy : MergePolicy
  names : List (String × Value)

/-- What has been built, and what is being built. -/
structure Arena where
  nodes : List (String × Node) := []
  pointers : List (String × String) := []
  active : List String := []

abbrev Build := StateT Arena (Except Fault)

/-- Enters the schema at a pointer and gives its id. -/
abbrev Visit := Value → String → Build String

def fail {α : Type} (pointer : String) (cause : SchemaFault) : Build α :=
  throw (.schema pointer cause)

def found (raw : Entries) (key : String) : Value := (raw.get? key).getD .null

/-- The attributes that a schema spells out. -/
def declared (raw : Entries) : List Attribute :=
  let nullType := match found raw "type" with
    | .list types => types.any fun t => t.same (.str "null")
    | _ => false
  Attribute.all.filter fun a =>
    a.keywords.any (raw.has ·) || (a == .nullable && nullType)

/-- A node with what all kinds of schema have in common. -/
def common (setting : Setting) (raw : Entries) (pointer : String) (kind : NodeKind) : Node :=
  let nullType := match found raw "type" with
    | .list types => types.any fun t => t.same (.str "null")
    | _ => false
  { id := pointer
    kind
    name := (setting.names.lookup pointer).bind fun
      | .scalar .null => none
      | .scalar name => some name
      | _ => none
    title := found raw "title"
    description := found raw "description"
    sample := found raw "example"
    deprecated := (found raw "deprecated").truthy
    readOnly := (found raw "readOnly").truthy
    writeOnly := (found raw "writeOnly").truthy
    nullable := (found raw "nullable").truthy || (found raw "x-nullable").truthy || nullType
    default := raw.get? "default"
    declared := declared raw }

def mappedRef (ref : Value) : Checked String :=
  match ref with
  | .str s => if s.startsWith "#" then Pointer.normalize s else .ok s
  | _ => .error .wrongKind

def discriminator (raw : Entries) (pointer : String) : Checked (Option Discriminator) :=
  match found raw "discriminator" with
  | .null => .ok none
  | .str s => .ok (some { property := .str s })
  | .map entries =>
    match Entries.get? entries "propertyName" with
    | none => .error (.schema pointer .badDiscriminator)
    | some property => do
      let mapping ← (found entries "mapping").orEmpty.entries
      let mapping ← mapping.mapM fun (k, ref) => do return (← k.text, ← mappedRef ref)
      return some { property, mapping }
  | _ => .error (.schema pointer .badDiscriminator)

/-- The names under `required`, each once. -/
def required (raw : Entries) (pointer : String) : Checked (List String) :=
  match (raw.get? "required").getD (.list []) with
  | .list items =>
    match items.mapM Value.str? with
    | some names => .ok (Assoc.distinct names)
    | none => .error (.schema pointer .badRequired)
  | _ => .error (.schema pointer .badRequired)

/-- Enters each of a list of schemas below a pointer. -/
def visitAll (visit : Visit) (schemas : List Value) (pointer : String) : Build (List String) :=
  schemas.zipIdx.mapM fun (schema, i) => visit schema (Pointer.child pointer (Nat.repr i))

def notePointer (ref target : String) : Build Unit :=
  modify fun a => { a with pointers := Assoc.insertNew a.pointers ref target }

def reference (setting : Setting) (visit : Visit) (raw : Entries) (ref : Value) (pointer : String) :
    Build Node := do
  match ref with
  | .str ref =>
    let target ← Pointer.normalize ref
    if (← get).active.contains target then
      notePointer ref target
      return { common setting raw pointer .recursive with target := some target }
    let _ ← visit (← Document.resolve setting.doc target) target
    notePointer ref target
    return { common setting raw pointer .reference with target := some target }
  | _ => fail pointer .refNotText

/-- The schemas under a keyword that takes a list of at least one. -/
def branches (v : Value) (pointer keyword : String) : Build (List Value) :=
  match v with
  | .list (x :: xs) => return x :: xs
  | _ => fail pointer (.emptyComposition keyword)

def union (setting : Setting) (visit : Visit) (raw : Entries) (pointer keyword : String) :
    Build Node := do
  let schemas ← branches (found raw keyword) pointer keyword
  let members ← visitAll visit schemas (Pointer.child pointer keyword)
  return { common setting raw pointer .union with
    members, unionKeyword := some keyword, discriminator := ← discriminator raw pointer }

/-- Follows targets from a node that is complete to one without a target. -/
def completed (nodes : List (String × Node)) (composing member : String) :
    Nat → List String → Node → Checked Node
  | 0, _, _ => .error .exhausted
  | fuel + 1, seen, n =>
    match n.target with
    | none => .ok n
    | some target =>
      match nodes.lookup target with
      | none => .error (.schema composing (.stillComposing member target))
      | some next =>
        if seen.contains target then .error (.schema target .chainWithoutSchema)
        else completed nodes composing member fuel (target :: seen) next

/-- The schema behind a member of a composition, which must be complete. -/
def concreteMember (composing member : String) : Build Node := do
  let nodes := (← get).nodes
  match nodes.lookup member with
  | some n => completed nodes composing member (nodes.length + 2) [member] n
  | none => throw .wrongKind

/-- Keywords that make what stands beside a composition a fragment of it. -/
def structuralKeywords : List String :=
  ["type", "format", "properties", "required", "additionalProperties", "items", "enum", "const"]
    ++ Limit.all.map (·.keyword)

def jsonTypeOf : Value → String
  | .scalar (.bool _) => "boolean"
  | .scalar (.int _) => "integer"
  | .scalar (.float _) => "number"
  | .list _ => "array"
  | .map _ => "object"
  | _ => "string"

/-- The values under `const` or `enum`. -/
def enumValues (raw : Entries) (pointer : String) : Checked (List Value) :=
  match raw.get? "const", raw.get? "enum" with
  | some v, _ => .ok [v]
  | none, some (.list items) => .ok items
  | none, some _ => .error (.schema pointer .enumNotAList)
  | none, none => .ok []

def visitProperties (visit : Visit) (raw : Entries) (required : List String) (pointer : String) :
    Build (List Property) := do
  let entries ← (found raw "properties").orEmpty.entries
  entries.mapM fun (name, schema) => do
    let node ← visit schema (Pointer.join pointer ["properties", ← name.text])
    return { name, node, required := required.any fun r => name.same (.str r) }

def visitAdditional (visit : Visit) (raw : Entries) (pointer : String) :
    Build (Additional String) := do
  match found raw "additionalProperties" with
  | .map entries =>
    return .schema (← visit (.map entries) (Pointer.child pointer "additionalProperties"))
  | .bool b => return .flag b
  | _ => return .unspecified

/-- The schema of the items of an array. A list of schemas becomes a union of its own. -/
def visitItems (visit : Visit) (raw : Entries) (pointer : String) : Build (Option String) := do
  let place := Pointer.child pointer "items"
  match found raw "items" with
  | .null => return none
  | .list schemas =>
    let members ← visitAll visit schemas place
    let node : Node := { id := place, kind := .union, members, unionKeyword := some "items" }
    modify fun a => { a with
      pointers := Assoc.insert a.pointers place place
      nodes := Assoc.insert a.nodes place node }
    return some place
  | schema => return some (← visit schema place)

/-- A schema for each of several types: the same keywords with that type alone. -/
def typeBranches (raw : Entries) (types : List Value) : List Value :=
  types.map fun t => .map (raw.without ["type", "nullable"] ++ [(.str "type", t)])

/-- A schema of one type. -/
def single (setting : Setting) (visit : Visit) (raw : Entries) (pointer : String) (type : Value) :
    Build Node := do
  let values ← enumValues raw pointer
  let base := common setting raw pointer .primitive
  let enum := values.filter fun v => !v.isNull
  let required ← required raw pointer
  let base := { base with
    type, required, enum
    nullable := base.nullable || values.any Value.isNull
    format := found raw "format"
    constraints := .ofEntries raw }
  match enum with
  | first :: _ =>
    return { base with
      kind := .enum, type := if type.isNull then .str (jsonTypeOf first) else type }
  | [] =>
    if type.same (.str "object") || raw.has "properties" || raw.has "additionalProperties" then
      let properties ← visitProperties visit raw required pointer
      let additional ← visitAdditional visit raw pointer
      return { base with kind := .object, type := .str "object", properties, additional }
    if type.same (.str "array") || raw.has "items" then
      return { base with
        kind := .array, type := .str "array", items := ← visitItems visit raw pointer }
    return base

/-- A schema without references or compositions. Several types besides null make a union. -/
def plain (setting : Setting) (visit : Visit) (raw : Entries) (pointer : String) : Build Node := do
  match found raw "type" with
  | .list types =>
    match types.filter fun t => !t.same (.str "null") with
    | [] => single setting visit raw pointer (.str "null")
    | [type] => single setting visit raw pointer type
    | types =>
      let members ← visitAll visit (typeBranches raw types) (Pointer.child pointer "type")
      return { common setting raw pointer .union with members, unionKeyword := some "type" }
  | type => single setting visit raw pointer type

/-- A composition. If a part of it is a union or intersection it stays one; otherwise its parts are
merged, with the keywords beside it as the first of them. -/
def composition (setting : Setting) (visit : Visit) (raw : Entries) (pointer : String) :
    Build Node := do
  let schemas ← branches (found raw "allOf") pointer "allOf"
  let members ← visitAll visit schemas (Pointer.child pointer "allOf")
  let fragments ← members.mapM (concreteMember pointer)
  let shared := common setting raw pointer .intersection
  if fragments.any fun n => n.kind == .union || n.kind == .intersection then
    return { shared with members, discriminator := ← discriminator raw pointer }
  let beside := raw.without ["allOf"]
  let fragments ←
    if structuralKeywords.any (beside.has ·) then
      pure ((← plain setting visit beside pointer) :: fragments)
    else pure fragments
  let merged ← Merge.merge setting.policy pointer fragments
  return { merged with
    name := shared.name
    title := if shared.title.isNull then merged.title else shared.title
    description := if shared.description.isNull then merged.description else shared.description
    declared := Attribute.all.filter fun a => merged.declared.contains a || shared.declared.contains a
    discriminator := ← discriminator raw pointer }

/-- Builds the node of a schema. -/
def build (setting : Setting) (visit : Visit) (raw : Entries) (pointer : String) : Build Node :=
  match raw.get? "$ref" with
  | some ref => reference setting visit raw ref pointer
  | none =>
    if raw.has "allOf" then composition setting visit raw pointer
    else if raw.has "oneOf" then union setting visit raw pointer "oneOf"
    else if raw.has "anyOf" then union setting visit raw pointer "anyOf"
    else plain setting visit raw pointer

/-- The keywords of a schema; `true` is the schema without any. -/
def schemaEntries? : Value → Option Entries
  | .map entries => some entries
  | .bool true => some []
  | _ => none

/-- Enters a schema unless it has been built. -/
def enter (setting : Setting) : Nat → Visit
  | 0, _, _ => throw .exhausted
  | fuel + 1, raw, pointer => do
    let arena ← get
    if Assoc.has arena.nodes pointer then return pointer
    if arena.active.contains pointer then fail pointer .containsItself
    match schemaEntries? raw with
    | none => fail pointer .notAnObject
    | some entries =>
      set { arena with
        pointers := Assoc.insert arena.pointers pointer pointer
        active := pointer :: arena.active }
      let node ← build setting (enter setting fuel) entries pointer
      modify fun a => { a with
        active := a.active.erase pointer
        nodes := Assoc.insert a.nodes pointer node }
      return pointer

/-- More steps than schemas can be nested: between two references a schema gets smaller with each
step, and no reference is followed twice. -/
def depthBound (doc : Value) : Nat := (doc.size + 2) * (doc.size + 3)

/-- The pointers and names of the named schemas. -/
def componentNames (doc : Value) : Checked (List (String × Value)) := do
  let home ← Document.schemasPointer doc
  let names ← (← Document.schemas doc).elements
  names.foldlM (fun acc name => do
    return Assoc.insert acc (Pointer.child home (← name.text)) name) []

/-- Enters all places that a walk found. -/
def enterAll (setting : Setting) (places : List SchemaPlace) : Build (List String) := do
  let ids ← places.mapM fun place =>
    enter setting (depthBound setting.doc) place.schema place.pointer
  return Assoc.distinct ids

end Resolve

/-- The table of all schemas of a document. -/
def SchemaTable.ofDocument (doc : Value) (policy : MergePolicy) : Checked SchemaTable := do
  let names ← Resolve.componentNames doc
  let walk := SchemaPlaces.ofDocument doc names
  let (roots, arena) ← (Resolve.enterAll { doc, policy, names } walk.found).run {}
  match walk.fault with
  | some fault => throw fault
  | none =>
    let table := { pointers := arena.pointers, nodes := arena.nodes, roots : SchemaTable }
    table.checkMarkers
    return table

end OpenApi
