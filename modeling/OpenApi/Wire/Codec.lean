import OpenApi.Fault
import OpenApi.Operation.Basic
import OpenApi.Text.Percent
import OpenApi.Types.Descriptor

/-!
The wire format of a parameter: how it is written depends on its style and on the shape of its type.
-/
namespace OpenApi

inductive Shape where
  | scalar
  | array
  | object
  | deepObject
  | content
deriving DecidableEq, Repr

def Shape.text : Shape → String
  | .scalar => "scalar"
  | .array => "array"
  | .object => "object"
  | .deepObject => "deep-object"
  | .content => "content"

/-- A parameter with its type and the named types that the type reaches. -/
structure Codec where
  parameter : Parameter
  shape : Shape
  type : Descriptor
  types : NamedTypes

namespace NamedTypes

/-- Follows names from a type; `seen` holds the names passed. Names that lead back to one of them end
the way. The last name passed is given too. -/
def chase (types : NamedTypes) : Nat → List Scalar → Descriptor → Checked (Option Scalar × Descriptor)
  | 0, _, _ => .error .exhausted
  | fuel + 1, seen, d =>
    match d with
    | .reference name t =>
      if seen.any (·.same name) then .ok (seen.head?, .reference name t)
      else match types.get? name with
        | some next => chase types fuel (name :: seen) next
        | none => .error .wrongKind
    | d => .ok (seen.head?, d)

/-- The type behind names, and the last of the names. -/
def behindNamed (types : NamedTypes) (d : Descriptor) : Checked (Option Scalar × Descriptor) :=
  chase types (types.length + 2) [] d

/-- The type behind names. -/
def behind (types : NamedTypes) (d : Descriptor) : Checked Descriptor := do
  let (_, d) ← types.behindNamed d
  return d

end NamedTypes

namespace Codec

def name (c : Codec) : String := c.parameter.name

/-- The name as it stands on the wire. -/
def wireName (c : Codec) : String := Percent.encode c.name false

def behind (c : Codec) (d : Descriptor) : Checked Descriptor := c.types.behind d

/-- The names of the fields of an object. -/
def fieldNames (c : Codec) : Checked (List Scalar) :=
  return (← c.behind c.type).fields.map (·.name)

/-- The type of what an object holds under a key: that of its field, of further properties, or any. -/
def member (d : Descriptor) (key : Scalar) : Descriptor :=
  match d with
  | .object fields additional _ =>
    match fields.find? fun f => f.name.same key with
    | some f => f.type
    | none =>
      match additional with
      | .schema a => a
      | _ => .any
  | _ => .any

/-- The type of the items of an array. -/
def items (d : Descriptor) : Descriptor :=
  match d with
  | .array items _ => items
  | _ => .any

/-- What stands between the items of an array that is not exploded. -/
def delimiter (c : Codec) : String := c.parameter.style.arrayDelimiter?.getD ","

def fail {α : Type} (c : Codec) (cause : WireFault) : Checked α := .error (.wire c.name cause)

end Codec
end OpenApi
