import OpenApi.Value.Text

/-!
Schemas in normal form. Nodes refer to each other by the pointer of the place they were found at.
-/
namespace OpenApi

inductive NodeKind where
  | primitive
  | object
  | array
  | enum
  | union
  | intersection
  | reference
  /-- A reference to a schema around it. -/
  | recursive
deriving DecidableEq, Repr

def NodeKind.text : NodeKind → String
  | .primitive => "primitive"
  | .object => "object"
  | .array => "array"
  | .enum => "enum"
  | .union => "union"
  | .intersection => "intersection"
  | .reference => "reference"
  | .recursive => "recursive"

/-- What limits the values of a schema. -/
inductive Limit where
  | minimum
  | maximum
  | exclusiveMinimum
  | exclusiveMaximum
  | multipleOf
  | minLength
  | maxLength
  | pattern
  | minItems
  | maxItems
  | uniqueItems
  | minProperties
  | maxProperties
deriving DecidableEq, Repr

def Limit.all : List Limit :=
  [.minimum, .maximum, .exclusiveMinimum, .exclusiveMaximum, .multipleOf, .minLength, .maxLength,
    .pattern, .minItems, .maxItems, .uniqueItems, .minProperties, .maxProperties]

/-- The keyword that sets a limit. -/
def Limit.keyword : Limit → String
  | .minimum => "minimum"
  | .maximum => "maximum"
  | .exclusiveMinimum => "exclusiveMinimum"
  | .exclusiveMaximum => "exclusiveMaximum"
  | .multipleOf => "multipleOf"
  | .minLength => "minLength"
  | .maxLength => "maxLength"
  | .pattern => "pattern"
  | .minItems => "minItems"
  | .maxItems => "maxItems"
  | .uniqueItems => "uniqueItems"
  | .minProperties => "minProperties"
  | .maxProperties => "maxProperties"

def Limit.isLower : Limit → Bool
  | .minimum | .exclusiveMinimum | .minLength | .minItems | .minProperties => true
  | _ => false

def Limit.isUpper : Limit → Bool
  | .maximum | .exclusiveMaximum | .maxLength | .maxItems | .maxProperties => true
  | _ => false

/-- The limits that are set, none of them to null, in the order of `Limit.all`. -/
abbrev Constraints := List (Limit × Value)

namespace Constraints

def get? (cs : Constraints) (limit : Limit) : Option Value := cs.lookup limit

/-- The limits that `value` sets. -/
def ofFunction (value : Limit → Value) : Constraints :=
  Limit.all.filterMap fun limit =>
    let v := value limit
    if v.isNull then none else some (limit, v)

/-- Reads the limits of a schema. A truth value as exclusive bound says that the plain bound of that
side is meant to be exclusive. -/
def ofEntries (raw : Entries) : Constraints :=
  let given (limit : Limit) : Value := (raw.get? limit.keyword).getD .null
  ofFunction fun
    | .minimum => match given .exclusiveMinimum with
      | .bool true => .null
      | _ => given .minimum
    | .maximum => match given .exclusiveMaximum with
      | .bool true => .null
      | _ => given .maximum
    | .exclusiveMinimum => match given .exclusiveMinimum with
      | .bool true => given .minimum
      | .bool false => .null
      | v => v
    | .exclusiveMaximum => match given .exclusiveMaximum with
      | .bool true => given .maximum
      | .bool false => .null
      | v => v
    | limit => given limit

end Constraints

structure Property where
  name : Scalar
  node : String
  required : Bool := false
deriving DecidableEq, Repr

/-- The property that tells the members of a union apart. -/
structure Discriminator where
  property : Value
  mapping : List (String × String) := []
deriving Repr

/-- What an object takes beyond its properties. -/
inductive Additional (α : Type) where
  | unspecified
  | flag (allowed : Bool)
  | schema (a : α)
deriving Repr

/-- What a schema can spell out and a composition merges. -/
inductive Attribute where
  | additional
  | default
  | deprecated
  | description
  | enum
  | sample
  | format
  | items
  | nullable
  | readOnly
  | title
  | type
  | writeOnly
deriving DecidableEq, Repr

def Attribute.all : List Attribute :=
  [.additional, .default, .deprecated, .description, .enum, .sample, .format, .items, .nullable,
    .readOnly, .title, .type, .writeOnly]

/-- The keywords that spell an attribute out. -/
def Attribute.keywords : Attribute → List String
  | .additional => ["additionalProperties"]
  | .default => ["default"]
  | .deprecated => ["deprecated"]
  | .description => ["description"]
  | .enum => ["enum", "const"]
  | .sample => ["example"]
  | .format => ["format"]
  | .items => ["items"]
  | .nullable => ["nullable", "x-nullable"]
  | .readOnly => ["readOnly"]
  | .title => ["title"]
  | .type => ["type"]
  | .writeOnly => ["writeOnly"]

/-- A schema. `target` is set for references; `members` for unions and intersections; null stands for
a type, format, title, description or sample that is not given; `name` is the component's name;
`declared` lists the attributes that the schema spells out. -/
structure Node where
  id : String
  kind : NodeKind
  type : Value := .null
  format : Value := .null
  constraints : Constraints := []
  nullable : Bool := false
  default : Option Value := none
  properties : List Property := []
  required : List String := []
  items : Option String := none
  additional : Additional String := .unspecified
  members : List String := []
  unionKeyword : Option String := none
  enum : List Value := []
  target : Option String := none
  discriminator : Option Discriminator := none
  name : Option Scalar := none
  title : Value := .null
  description : Value := .null
  sample : Value := .null
  deprecated : Bool := false
  readOnly : Bool := false
  writeOnly : Bool := false
  declared : List Attribute := []

namespace Node

def isMarker (n : Node) : Bool := n.kind == .recursive

def hasType (n : Node) (type : String) : Bool := n.type.same (.str type)

end Node
end OpenApi
