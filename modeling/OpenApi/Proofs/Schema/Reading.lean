import Mathlib.Data.Option.Basic
import OpenApi.Proofs.Value
import OpenApi.Schema.Resolve

/-!
What a document says at which place. A schema is read at the places of a document that hold schemas,
and from there on at the places of its parts and at the places that references name. The parts follow
the branches that building a schema takes, without building anything.
-/
namespace OpenApi.Resolve

/-- What a schema without references and compositions describes. -/
inductive Form where
  | types (types : List Value)
  | enum
  | object
  | array
  | other

/-- The form of a schema of one type. -/
def singleForm (raw : Entries) (type : Value) : Form :=
  match enumValues raw "" with
  | .error _ => .other
  | .ok values =>
    if values.any fun v => !v.isNull then .enum
    else if type.same (.str "object") || raw.has "properties" || raw.has "additionalProperties" then
      .object
    else if type.same (.str "array") || raw.has "items" then .array
    else .other

def form (raw : Entries) : Form :=
  match found raw "type" with
  | .list types =>
    match types.filter fun t => !t.same (.str "null") with
    | [] => singleForm raw (.str "null")
    | [type] => singleForm raw type
    | types => .types types
  | type => singleForm raw type

/-- Schemas of a list, each at its index. -/
def listed (pointer : String) (schemas : List Value) : List SchemaPlace :=
  schemas.zipIdx.map fun (schema, i) => { pointer := Pointer.child pointer (Nat.repr i), schema }

/-- Schemas under a keyword that takes a list of them. -/
def branchParts (raw : Entries) (pointer keyword : String) : List SchemaPlace :=
  match found raw keyword with
  | .list schemas => listed (Pointer.child pointer keyword) schemas
  | _ => []

def propertyParts (raw : Entries) (pointer : String) : List SchemaPlace :=
  match (found raw "properties").orEmpty with
  | .map entries => entries.filterMap fun (name, schema) =>
    name.text?.map fun name => { pointer := Pointer.join pointer ["properties", name], schema }
  | _ => []

def additionalParts (raw : Entries) (pointer : String) : List SchemaPlace :=
  match found raw "additionalProperties" with
  | .map entries =>
    [{ pointer := Pointer.child pointer "additionalProperties", schema := .map entries }]
  | _ => []

def itemParts (raw : Entries) (pointer : String) : List SchemaPlace :=
  match found raw "items" with
  | .null => []
  | .list schemas => listed (Pointer.child pointer "items") schemas
  | schema => [{ pointer := Pointer.child pointer "items", schema }]

def formParts (raw : Entries) (pointer : String) : Form → List SchemaPlace
  | .types types => listed (Pointer.child pointer "type") (typeBranches raw types)
  | .object => propertyParts raw pointer ++ additionalParts raw pointer
  | .array => itemParts raw pointer
  | _ => []

/-- The parts of a schema without references and compositions. -/
def plainParts (raw : Entries) (pointer : String) : List SchemaPlace :=
  formParts raw pointer (form raw)

/-- The place that a reference names, if the document has it. -/
def targetPart (doc ref : Value) : List SchemaPlace :=
  match ref with
  | .str ref =>
    match Pointer.normalize ref with
    | .ok pointer =>
      match Document.resolve doc pointer with
      | .ok schema => [{ pointer, schema }]
      | .error _ => []
    | .error _ => []
  | _ => []

/-- The places that building a schema enters. -/
def parts (doc : Value) (raw : Entries) (pointer : String) : List SchemaPlace :=
  match raw.get? "$ref" with
  | some ref => targetPart doc ref
  | none =>
    if raw.has "allOf" then
      branchParts raw pointer "allOf" ++ plainParts (raw.without ["allOf"]) pointer
    else if raw.has "oneOf" then branchParts raw pointer "oneOf"
    else if raw.has "anyOf" then branchParts raw pointer "anyOf"
    else plainParts raw pointer

/-- What is read, at which place, from the places `roots` on. -/
inductive Reads (doc : Value) (roots : List SchemaPlace) : SchemaPlace → Prop
  | root {s : SchemaPlace} (h : s ∈ roots) : Reads doc roots s
  | part {s t : SchemaPlace} {raw : Entries} (h : Reads doc roots s)
      (hs : schemaEntries? s.schema = some raw) (ht : t ∈ parts doc raw s.pointer) :
      Reads doc roots t

/-- A place that is read as a schema. -/
def Entered (doc : Value) (roots : List SchemaPlace) (pointer : String) : Prop :=
  ∃ s raw, Reads doc roots s ∧ s.pointer = pointer ∧ schemaEntries? s.schema = some raw

def formTuple (raw : Entries) (form : Form) : Bool :=
  match form, found raw "items" with
  | .array, .list _ => true
  | _, _ => false

/-- Does a schema without references and compositions list the schemas of its items? -/
def plainTuple (raw : Entries) : Bool := formTuple raw (form raw)

/-- Does building a schema make a union of listed items? -/
def hasTuple (raw : Entries) : Bool :=
  if raw.has "$ref" then false
  else if raw.has "allOf" then plainTuple (raw.without ["allOf"])
  else if raw.has "oneOf" || raw.has "anyOf" then false
  else plainTuple raw

/-- No place holds both the listed items of the schema around it and a schema of its own. Where one
does, the union of the items takes the place of the schema. -/
def TuplesApart (doc : Value) (roots : List SchemaPlace) : Prop :=
  ∀ s raw, Reads doc roots s → schemaEntries? s.schema = some raw → hasTuple raw = true →
    ¬ Entered doc roots (Pointer.child s.pointer "items")

/-- The places that a document holds schemas at. -/
def rootPlaces (doc : Value) : List SchemaPlace :=
  match componentNames doc with
  | .ok names => (SchemaPlaces.ofDocument doc names).found
  | .error _ => []

/-! ### Lists of all that is read -/

/-- What is read from `places` on in at most so many steps. -/
def readWithin (doc : Value) : Nat → List SchemaPlace → List SchemaPlace
  | 0, places => places
  | steps + 1, places =>
    let next := places.flatMap fun s =>
      ((schemaEntries? s.schema).map fun raw => parts doc raw s.pointer).getD []
    readWithin doc steps (Assoc.distinct (places ++ next))

/-- `places` holds the roots, and the parts of whatever it holds. -/
def Covers (doc : Value) (roots places : List SchemaPlace) : Prop :=
  (∀ s ∈ roots, s ∈ places) ∧
    ∀ s ∈ places, ∀ raw ∈ schemaEntries? s.schema, ∀ t ∈ parts doc raw s.pointer, t ∈ places

/-- Listed items keep their places to themselves among `places`. -/
def ApartAmong (places : List SchemaPlace) : Prop :=
  ∀ s ∈ places, ∀ raw ∈ schemaEntries? s.schema, hasTuple raw = true →
    ∀ t ∈ places, t.pointer = Pointer.child s.pointer "items" → (schemaEntries? t.schema).isNone

instance (doc : Value) (roots places : List SchemaPlace) : Decidable (Covers doc roots places) :=
  inferInstanceAs (Decidable (_ ∧ _))

instance (places : List SchemaPlace) : Decidable (ApartAmong places) :=
  inferInstanceAs (Decidable (∀ s ∈ places, _))

theorem Covers.mem {doc : Value} {roots places : List SchemaPlace} (h : Covers doc roots places)
    {s : SchemaPlace} (hs : Reads doc roots s) : s ∈ places := by
  induction hs with
  | root hs => exact h.1 _ hs
  | part _ hraw ht ih => exact h.2 _ ih _ hraw _ ht

theorem Covers.tuplesApart {doc : Value} {roots places : List SchemaPlace}
    (h : Covers doc roots places) (hapart : ApartAmong places) : TuplesApart doc roots := by
  intro s raw hs hraw htuple ⟨t, raw', ht, hplace, hraw'⟩
  have hnone := hapart s (h.mem hs) raw hraw htuple t (h.mem ht) hplace
  rw [hraw'] at hnone
  cases hnone

end OpenApi.Resolve
