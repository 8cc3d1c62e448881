import OpenApi.Document
import OpenApi.Name.Identifier
import OpenApi.Notice
import OpenApi.Schema.Table
import OpenApi.Types.Descriptor

/-!
Making types of schemas. Named schemas are types of their own, and places that use them refer to them;
every schema is mapped once.
-/
namespace OpenApi

/-- Tokens of a pointer that say nothing about a schema. -/
def structuralTokens : List String :=
  ["components", "schemas", "definitions", "paths", "content", "schema", "properties", "items",
    "additionalProperties", "allOf", "oneOf", "anyOf", "responses", "parameters", "requestBody",
    "requestBodies", "headers"]

/-- A token that can take part in a name; media types cannot, paths can. -/
def isTellingToken (token : String) : Bool :=
  !structuralTokens.contains token && !Document.methods.contains token
    && !(token.toList.contains '/' && !token.startsWith "/")

/-- A type name for the schema at a pointer, made of its last two telling tokens. -/
def typeNameOfPointer (pointer : String) : Checked String := do
  let telling := (← Pointer.tokens pointer).filter isTellingToken
  let text := " ".intercalate (telling.drop (telling.length - 2))
  let words := Identifier.wordsBy (fun c => !c.isAlphanum) text.toList
  return if words.isEmpty then "Anonymous" else String.join (words.map Text.capitalize)

/-- What mapping goes by: the schemas, the ids that markers lead to, and the ids that have names. -/
structure Mapper where
  table : SchemaTable
  recursive : List String
  names : List (String × Scalar)

/-- What mapping has done: the types made so far, by id, and what it told. -/
structure MapState where
  memo : List (String × Descriptor) := []
  notices : List Notice := []

/-- Types stay made and notices given when a fault ends a mapping. -/
abbrev Mapping := ExceptT Fault (StateM MapState)

namespace Mapper

/-- The first of `base`, `base_2`, `base_3` and so on that is not taken. -/
def freshName (taken : List Scalar) (base : String) : String :=
  let candidate (n : Nat) : String := if n ≤ 1 then base else base ++ "_" ++ Nat.repr n
  (((List.range (taken.length + 1)).map fun i => candidate (i + 1)).find? fun name =>
    !taken.any (·.same (.str name))).getD base

/-- Names for the ids that markers lead to and that have none. -/
def nameTargets (recursive : List String) :
    List (String × Scalar) → List String → Checked (List (String × Scalar))
  | names, [] => .ok names
  | names, id :: rest =>
    if recursive.contains id && !Assoc.has names id then do
      let base ← typeNameOfPointer id
      nameTargets recursive (names ++ [(id, .str (freshName (names.map Prod.snd) base))]) rest
    else nameTargets recursive names rest

/-- The names of components. -/
def componentNames (table : SchemaTable) : Checked (List (String × Scalar)) := do
  let named ← table.roots.mapM fun id => do return (id, (← table.node id).name)
  return named.filterMap fun (id, name) => name.map fun name => (id, name)

def ofTable (table : SchemaTable) : Checked Mapper := do
  let recursive := table.markers.filterMap (·.target)
  let names ← nameTargets recursive (← componentNames table) (table.nodes.map Prod.fst)
  return { table, recursive, names }

def typeName? (m : Mapper) (id : String) : Option Scalar := m.names.lookup id

def isNullNode (n : Node) : Bool := n.kind == .primitive && n.hasType "null"

/-- Is null the only value of a schema? -/
def isNull (m : Mapper) (id : String) : Checked Bool := return isNullNode (← m.table.concrete id)

/-- Follows targets to a node that is nullable or leads nowhere new. -/
def firstNullable (m : Mapper) : Nat → List String → Node → Checked Node
  | 0, _, _ => .error .exhausted
  | fuel + 1, seen, n =>
    if n.nullable then .ok n
    else match n.target with
      | none => .ok n
      | some target =>
        if seen.contains n.id then .ok n
        else do firstNullable m fuel (n.id :: seen) (← m.table.node target)

/-- Does one of the ids stand for null alone? -/
def anyNull (m : Mapper) : List String → Checked Bool
  | [] => .ok false
  | id :: rest => do if ← m.isNull id then return true else anyNull m rest

/-- Does a schema take null? -/
def acceptsNull (m : Mapper) (id : String) : Checked Bool := do
  let n ← firstNullable m (m.table.nodes.length + 2) [] (← m.table.node id)
  if n.nullable then return true
  if n.kind == .union then m.anyNull n.members else return isNullNode n

def warn (n : Node) (message : String) : Mapping String := do
  let warning := n.id ++ ": " ++ message
  modify fun s => { s with notices := s.notices ++ [.mapping warning] }
  return warning

/-- The primitive of a format, with a warning if the format is not known. -/
def ofFormat (n : Node) (type : String) (known? : String → Option Primitive)
    (fallback : Primitive) : Mapping (Primitive × List String) := do
  match n.format with
  | .null => return (fallback, [])
  | .scalar format =>
    match (Value.scalar format).str?.bind known? with
    | some p => return (p, [])
    | none =>
      let shown ← format.inner
      let warning ← warn n s!"unknown {type} format {shown}, using {fallback.text}"
      return (fallback, [warning])
  | _ => throw .wrongKind

/-- The primitive of a schema, with warnings. -/
def primitive (n : Node) : Mapping (Primitive × List String) := do
  match n.type with
  | .null => return (.any, [])
  | .str "null" => return (.null, [])
  | .str "boolean" => return (.boolean, [])
  | .str "number" => return (.number, [])
  | .str "integer" => ofFormat n "integer" Primitive.ofIntegerFormat? .integer
  | .str "string" => ofFormat n "string" Primitive.ofStringFormat? .string
  | type =>
    let shown ← type.inner
    return (.any, [← warn n s!"unknown type {shown}, using any"])

/-- Maps a place that uses the schema of an id. -/
abbrev Use := String → Mapping Descriptor

/-- The first of two descriptions that says anything. -/
def firstText (a b : Value) : Value := if a.truthy then a else b

def field (m : Mapper) (use : Use) (p : Property) : Mapping Field := do
  let nullable ← m.acceptsNull p.node
  let behind ← m.table.concrete p.node
  return {
    name := p.name
    type := ← use p.node
    optionality := if nullable then .nullable else if p.required then .required else .optional
    required := p.required
    description := firstText (← m.table.node p.node).description behind.description
    readOnly := behind.readOnly
    writeOnly := behind.writeOnly }

def additional (use : Use) : Additional String → Mapping (Additional Descriptor)
  | .unspecified => return .unspecified
  | .flag b => return .flag b
  | .schema id => return .schema (← use id)

/-- What a reference stands for: the name of its target, or the target itself if it has none. -/
def target (m : Mapper) (use : Use) (n : Node) : Mapping Descriptor := do
  match n.target with
  | none => throw .wrongKind
  | some target =>
    match m.names.lookup target with
    | some name =>
      return .reference name { recursive := n.isMarker || m.recursive.contains target }
    | none =>
      if n.isMarker then throw (.schema n.id (.targetWithoutName target))
      use target

/-- Keywords beside a reference add to what it refers to. -/
def addTraits (n : Node) (t : Traits) : Traits :=
  { t with
    nullable := t.nullable || n.nullable
    default := n.default.orElse fun _ => t.default
    description := firstText n.description t.description
    source := some n.id }

/-- The traits of a type that is made of a schema directly. -/
def ownTraits (m : Mapper) (n : Node) (t : Traits) : Traits :=
  { t with
    nullable := t.nullable || n.nullable
    default := n.default
    constraints := n.constraints
    discriminator := n.discriminator
    description := firstText n.description t.description
    recursive := t.recursive || m.recursive.contains n.id
    source := some n.id }

/-- The traits of a union, where `nullable` tells whether null is a member. -/
def unionTraits (m : Mapper) (n : Node) (nullable : Bool) (t : Traits) : Traits :=
  { t with
    nullable := t.nullable || nullable
    default := n.default.orElse fun _ => t.default
    discriminator := n.discriminator.orElse fun _ => t.discriminator
    description := firstText n.description t.description
    recursive := t.recursive || m.recursive.contains n.id
    source := some n.id }

/-- The members of a union without null, and whether null was among them. -/
def unionMembers (m : Mapper) (use : Use) : List String → Mapping (List Descriptor × Bool)
  | [] => return ([], false)
  | id :: rest => do
    if ← m.isNull id then
      let (members, _) ← unionMembers m use rest
      return (members, true)
    let d ← use id
    let (members, nullable) ← unionMembers m use rest
    return (d :: members, nullable)

/-- A union. One member alone needs no union, and null alone is a primitive. -/
def union (m : Mapper) (use : Use) (n : Node) : Mapping Descriptor := do
  let (members, nullable) ← m.unionMembers use n.members
  let d : Descriptor :=
    match members, n.discriminator with
    | [], _ => .primitive .null {}
    | [d], none => d
    | members, _ => .union members {}
  return d.withTraits (m.unionTraits n (n.nullable || nullable))

/-- The type of a schema. -/
def node (m : Mapper) (use : Use) (n : Node) : Mapping Descriptor := do
  match n.kind with
  | .reference | .recursive => return (← m.target use n).withTraits (addTraits n)
  | .union => m.union use n
  | .object =>
    let fields ← n.properties.mapM (m.field use)
    return .object fields (← additional use n.additional) (m.ownTraits n {})
  | .array =>
    let items ←
      match n.items with
      | some id =>
        if id.isEmpty then pure (.primitive .any { source := some n.id }) else use id
      | none => pure (.primitive .any { source := some n.id })
    return .array items (m.ownTraits n {})
  | .enum =>
    let (base, warnings) ← primitive n
    return .enum base n.enum (m.ownTraits n { warnings })
  | .intersection =>
    return .intersection (← n.members.mapM use) (m.ownTraits n {})
  | .primitive =>
    let (p, warnings) ← primitive n
    return .primitive p (m.ownTraits n { warnings })

/-- The reference for a named id; any other id is mapped by `structural`. -/
def useWith (m : Mapper) (structural : Use) (id : String) : Mapping Descriptor :=
  match m.names.lookup id with
  | some name =>
    return .reference name { recursive := m.recursive.contains id, source := some id }
  | none => structural id

/-- The type of an id, remembered once it is made. -/
def mapWithin (m : Mapper) : Nat → Use
  | 0, _ => throw .exhausted
  | fuel + 1, id => do
    match (← get).memo.lookup id with
    | some d => return d
    | none =>
      let d ← m.node (m.useWith (m.mapWithin fuel)) (← m.table.node id)
      modify fun s => { s with memo := s.memo ++ [(id, d)] }
      return d

/-- The type of the schema of an id, in full even if it has a name. Schemas use only schemas that were
completed before them, so the size of the table bounds the nesting. -/
def mapType (m : Mapper) (id : String) : Mapping Descriptor :=
  m.mapWithin (m.table.nodes.length + 1) id

/-- The type of a place that uses the schema of an id. -/
def mapUse (m : Mapper) (id : String) : Mapping Descriptor := m.useWith m.mapType id

/-- The type of a name. -/
def namedType (m : Mapper) (name : Scalar) : Mapping Descriptor :=
  match m.names.find? fun (_, n) => n.same name with
  | some (id, _) => m.mapType id
  | none => throw .wrongKind

/-- All named types: those of components first, then those of targets without a name of their own. -/
def namedTypes (m : Mapper) : Mapping NamedTypes := do
  let pairs ← m.names.mapM fun (id, name) => do return (name, ← m.mapType id)
  return pairs.foldl (fun types (name, d) => types.insert name d) ([] : NamedTypes)

end Mapper
end OpenApi
