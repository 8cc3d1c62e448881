import OpenApi.Assoc
import OpenApi.Schema.Node
import OpenApi.Schema.Policy
import OpenApi.Value.Access

/-!
Merging the fragments of a composition into one schema.
-/
namespace OpenApi.Merge

/-- The value for two different settings of one limit. -/
def pickLimit (policy : MergePolicy) (limit : Limit) (current incoming : Value) : Checked Value := do
  if current.equal incoming then return incoming
  if policy == .strictestWins then
    if limit.isLower then return if ← current.before incoming then incoming else current
    if limit.isUpper then return if ← incoming.before current then incoming else current
  return incoming

/-- The type for two different types. -/
def pickType (policy : MergePolicy) (current incoming : Value) : Checked Value := do
  if current.equal incoming then return incoming
  if policy == .strictestWins then
    match current, incoming with
    | .scalar a, .scalar b =>
      if (a.same (.str "integer") && b.same (.str "number"))
          || (a.same (.str "number") && b.same (.str "integer")) then
        return .str "integer"
    | _, _ => throw .wrongKind
  return incoming

/-- Combines what fragments set, from the first to the last. -/
def combine (pick : Value → Value → Checked Value) : List Value → Checked Value
  | [] => .ok .null
  | v :: rest => rest.foldlM pick v

def declares (a : Attribute) (n : Node) : Bool :=
  n.declared.contains a
    || (a == .items && n.items.any fun id => !id.isEmpty)

/-- The last fragment that spells an attribute out. -/
def lastDeclaring? (fragments : List Node) (a : Attribute) : Option Node :=
  (fragments.filter (declares a)).getLast?

def type (policy : MergePolicy) (fragments : List Node) : Checked Value :=
  combine (pickType policy) ((fragments.filter (declares .type)).map (·.type))

def limit (policy : MergePolicy) (fragments : List Node) (l : Limit) : Checked Value :=
  combine (pickLimit policy l) (fragments.filterMap fun n => n.constraints.get? l)

def constraints (policy : MergePolicy) (fragments : List Node) : Checked Constraints := do
  let values ← Limit.all.mapM fun l => do return (l, ← limit policy fragments l)
  return values.filter fun (_, v) => !v.isNull

/-- Puts a property in; one of the same name gives way but keeps its place. -/
def insertProperty (props : List Property) (p : Property) : List Property :=
  match props with
  | [] => [p]
  | q :: rest => if q.name.same p.name then p :: rest else q :: insertProperty rest p

def required (fragments : List Node) : List String :=
  Assoc.distinct (fragments.flatMap (·.required))

/-- The properties of all fragments, each as the last fragment that has it defines it. -/
def properties (fragments : List Node) : List Property :=
  let names := required fragments
  ((fragments.flatMap (·.properties)).foldl insertProperty []).map fun p =>
    { p with required := names.any fun name => p.name.same (.str name) }

def default? (fragments : List Node) : Option Value :=
  if fragments.any (·.default.isSome) then
    some (((lastDeclaring? fragments .default).bind (·.default)).getD .null)
  else none

/-- Is anything said about further properties? -/
def isSpecified {α : Type} : Additional α → Bool
  | .unspecified => false
  | _ => true

def kind (type : Value) (props : List Property) (items : Option String) (additional : Additional String)
    (enum : List Value) : NodeKind :=
  if !enum.isEmpty then .enum
  else if type.same (.str "object") || !props.isEmpty || isSpecified additional then .object
  else if type.same (.str "array") || items.any (!·.isEmpty) then .array
  else .primitive

/-- The schema that all fragments together describe, as a node with the id `pointer`. -/
def merge (policy : MergePolicy) (pointer : String) (fragments : List Node) : Checked Node := do
  let last (a : Attribute) : Option Node := lastDeclaring? fragments a
  let type ← type policy fragments
  let constraints ← constraints policy fragments
  let properties := properties fragments
  let items := (last .items).bind (·.items)
  let additional := ((last .additional).map (·.additional)).getD .unspecified
  let enum := ((last .enum).map (·.enum)).getD []
  let kind := kind type properties items additional enum
  return {
    id := pointer
    kind, constraints, properties, items, additional, enum
    type := if kind == .object then .str "object" else type
    format := ((last .format).map (·.format)).getD .null
    nullable := ((last .nullable).map (·.nullable)).getD false
    default := default? fragments
    required := required fragments
    title := ((last .title).map (·.title)).getD .null
    description := ((last .description).map (·.description)).getD .null
    sample := ((last .sample).map (·.sample)).getD .null
    deprecated := ((last .deprecated).map (·.deprecated)).getD false
    readOnly := ((last .readOnly).map (·.readOnly)).getD false
    writeOnly := ((last .writeOnly).map (·.writeOnly)).getD false
    declared := Attribute.all.filter fun a => fragments.any (declares a) }

end OpenApi.Merge
