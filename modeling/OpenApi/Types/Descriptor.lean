import OpenApi.Assoc
import OpenApi.Schema.Node
import OpenApi.Types.Primitive

/-!
Types as they are handed to whoever writes them down, whatever the language.
-/
namespace OpenApi

/-- May a field be left out, and may it be null? A nullable field may be left out unless it is
required. -/
inductive Optionality where
  | required
  | optional
  | nullable
deriving DecidableEq, Repr

def Optionality.text : Optionality → String
  | .required => "required"
  | .optional => "optional"
  | .nullable => "nullable"

structure FieldOf (α : Type) where
  name : Scalar
  type : α
  optionality : Optionality
  required : Bool
  description : Value := .null
  readOnly : Bool := false
  writeOnly : Bool := false

/-- What types of all kinds can carry. `source` is the id of the schema that a type was made of. -/
structure Traits where
  nullable : Bool := false
  default : Option Value := none
  constraints : Constraints := []
  discriminator : Option Discriminator := none
  description : Value := .null
  recursive : Bool := false
  warnings : List String := []
  source : Option String := none

inductive Descriptor where
  | primitive (p : Primitive) (traits : Traits)
  | enum (base : Primitive) (literals : List Value) (traits : Traits)
  | array (items : Descriptor) (traits : Traits)
  | object (fields : List (FieldOf Descriptor)) (additional : Additional Descriptor)
      (traits : Traits)
  | union (members : List Descriptor) (traits : Traits)
  | intersection (members : List Descriptor) (traits : Traits)
  | reference (name : Scalar) (traits : Traits)

abbrev Field := FieldOf Descriptor

namespace Descriptor

def traits : Descriptor → Traits
  | .primitive _ t | .enum _ _ t | .array _ t | .object _ _ t | .union _ t | .intersection _ t
  | .reference _ t => t

def withTraits (d : Descriptor) (f : Traits → Traits) : Descriptor :=
  match d with
  | .primitive p t => .primitive p (f t)
  | .enum base literals t => .enum base literals (f t)
  | .array items t => .array items (f t)
  | .object fields additional t => .object fields additional (f t)
  | .union members t => .union members (f t)
  | .intersection members t => .intersection members (f t)
  | .reference name t => .reference name (f t)

def kindText : Descriptor → String
  | .primitive .. => "primitive"
  | .enum .. => "enum"
  | .array .. => "array"
  | .object .. => "object"
  | .union .. => "union"
  | .intersection .. => "intersection"
  | .reference .. => "reference"

def primitive? : Descriptor → Option Primitive
  | .primitive p _ | .enum p _ _ => some p
  | _ => none

/-- The type of all values. -/
def any : Descriptor := .primitive .any {}

def fields : Descriptor → List Field
  | .object fields _ _ => fields
  | _ => []

mutual

/-- A type and all types inside of it, outer ones first. -/
def walk : Descriptor → List Descriptor
  | .array items t => .array items t :: walk items
  | .object fields additional t =>
    .object fields additional t :: (walkFields fields ++ walkAdditional additional)
  | .union members t => .union members t :: walkAll members
  | .intersection members t => .intersection members t :: walkAll members
  | d => [d]

def walkAll : List Descriptor → List Descriptor
  | [] => []
  | d :: rest => walk d ++ walkAll rest

def walkFields : List (FieldOf Descriptor) → List Descriptor
  | [] => []
  | f :: rest => walkField f ++ walkFields rest

def walkField : FieldOf Descriptor → List Descriptor
  | ⟨_, type, _, _, _, _, _⟩ => walk type

def walkAdditional : Additional Descriptor → List Descriptor
  | .schema d => walk d
  | _ => []

end

/-- Keeps the first of equal names. -/
def distinctNames (names : List Scalar) : List Scalar :=
  names.foldl (fun acc n => if acc.any (·.same n) then acc else acc ++ [n]) []

/-- The named types that a type refers to, in order of first use; a name without content is not
counted. -/
def references (d : Descriptor) : List Scalar :=
  distinctNames (d.walk.filterMap fun
    | .reference name _ => if (Value.scalar name).truthy then some name else none
    | _ => none)

/-- Does a type refer to itself, or refer to one that does? -/
def needsAnnotation (d : Descriptor) : Bool :=
  d.traits.recursive || d.walk.any fun
    | .reference _ t => t.recursive
    | _ => false

end Descriptor

/-- Types by name, in order. -/
abbrev NamedTypes := List (Scalar × Descriptor)

namespace NamedTypes

def get? (types : NamedTypes) (name : Scalar) : Option Descriptor :=
  match types with
  | [] => none
  | (k, d) :: rest => if k.same name then some d else get? rest name

/-- Sets a name. A name that is there keeps its place. -/
def insert (types : NamedTypes) (name : Scalar) (d : Descriptor) : NamedTypes :=
  match types with
  | [] => [(name, d)]
  | (k, e) :: rest => if k.same name then (k, d) :: rest else (k, e) :: insert rest name d

end NamedTypes
end OpenApi
