import OpenApi.Types.Mapper
import OpenApi.Wire.Codec

/-!
Finding the wire format of a parameter, or why it has none.
-/
namespace OpenApi
namespace NamedTypes

mutual

/-- Is a type written as one text? `named` tells of types behind names. -/
def isScalarWith (named : Descriptor → Checked Bool) : Descriptor → Checked Bool
  | .primitive .. | .enum .. => .ok true
  | .union members _ => allScalarWith named members
  | _ => .ok false

def allScalarWith (named : Descriptor → Checked Bool) : List Descriptor → Checked Bool
  | [] => .ok true
  | m :: rest => do
    let scalar ←
      match m with
      | .reference name t => named (.reference name t)
      | m => isScalarWith named m
    if scalar then allScalarWith named rest else return false

end

def isScalarWithin (types : NamedTypes) : Nat → Descriptor → Checked Bool
  | 0, _ => .error .exhausted
  | fuel + 1, d => do isScalarWith (isScalarWithin types fuel) (← types.behind d)

/-- Is a type written as one text? A union is if all its members are. A way through names that comes
to none twice is no longer than the number of types. -/
def isScalar (types : NamedTypes) (d : Descriptor) : Checked Bool :=
  isScalarWithin types (types.length + 2) d

/-- The shape of a type, if it has one. -/
def shape? (types : NamedTypes) (d : Descriptor) : Checked (Option Shape) := do
  if ← types.isScalar d then return some .scalar
  return match d with
    | .array .. => some .array
    | .object .. => some .object
    | _ => none

/-- A member of an object in brackets that is no object itself: a scalar, or an array of scalars. -/
def checkDeepLeaf (types : NamedTypes) (pointer : String) (d : Descriptor) : Checked Unit := do
  match d with
  | .array items _ =>
    if !(← types.isScalar items) then throw (.parameter pointer .deepItems)
  | d =>
    if !(← types.isScalar d) then throw (.parameter pointer (.deepMember d.kindText))

/-- Goes on with a type behind a name, given the names of the objects entered so far. -/
abbrev DeepCheck := List Scalar → Descriptor → Checked (List Scalar)

mutual

/-- Checks a member of an object in brackets. -/
def checkDeepMember (types : NamedTypes) (pointer : String) (named : DeepCheck)
    (entered : List Scalar) : Descriptor → Checked (List Scalar)
  | .reference name t => named entered (.reference name t)
  | .object fields additional _ => do
    let entered ← checkDeepFields types pointer named entered fields
    checkDeepAdditional types pointer named entered additional
  | d => do
    types.checkDeepLeaf pointer d
    return entered

def checkDeepFields (types : NamedTypes) (pointer : String) (named : DeepCheck)
    (entered : List Scalar) : List (FieldOf Descriptor) → Checked (List Scalar)
  | [] => .ok entered
  | f :: rest => do
    let entered ← checkDeepField types pointer named entered f
    checkDeepFields types pointer named entered rest

def checkDeepField (types : NamedTypes) (pointer : String) (named : DeepCheck)
    (entered : List Scalar) : FieldOf Descriptor → Checked (List Scalar)
  | ⟨_, type, _, _, _, _, _⟩ => checkDeepMember types pointer named entered type

def checkDeepAdditional (types : NamedTypes) (pointer : String) (named : DeepCheck)
    (entered : List Scalar) : Additional Descriptor → Checked (List Scalar)
  | .schema d => checkDeepMember types pointer named entered d
  | _ => .ok entered

end

/-- Checks a type behind a name; an object that was entered before is not entered again. -/
def checkDeepNamed (types : NamedTypes) (pointer : String) : Nat → DeepCheck
  | 0, _, _ => .error .exhausted
  | fuel + 1, entered, d => do
    match ← types.behindNamed d with
    | (some name, .object fields additional t) =>
      if entered.any (·.same name) then return entered
      checkDeepMember types pointer (checkDeepNamed types pointer fuel) (name :: entered)
        (.object fields additional t)
    | (_, d) =>
      types.checkDeepLeaf pointer d
      return entered

/-- Checks what an object in brackets holds. Objects may nest; arrays hold scalars. -/
def checkDeep (types : NamedTypes) (pointer : String) (d : Descriptor) : Checked Unit := do
  let _ ← checkDeepMember types pointer (checkDeepNamed types pointer (types.length + 2)) [] d

end NamedTypes

namespace Mapper

/-- Gathers the named types that `pending` leads to; every step finds one more. -/
def gatherTypes (m : Mapper) : Nat → NamedTypes → List Scalar → Mapping NamedTypes
  | 0, _, _ => throw .exhausted
  | fuel + 1, found, pending =>
    match pending.filter fun name => (found.get? name).isNone with
    | [] => return found
    | name :: rest => do
      let d ← m.namedType name
      gatherTypes m fuel (found ++ [(name, d)]) (rest ++ d.references)

/-- The named types that a type reaches. -/
def typesWithin (m : Mapper) (d : Descriptor) : Mapping NamedTypes :=
  m.gatherTypes (m.names.length + 1) [] d.references

end Mapper

namespace Parameter

/-- Where faults of a parameter are reported. -/
def place (p : Parameter) : String := if p.pointer.isEmpty then p.name else p.pointer

/-- The names of fields that are no scalars. -/
def checkFields (p : Parameter) (types : NamedTypes) : List Field → Checked Unit
  | [] => .ok ()
  | f :: rest => do
    if ← types.isScalar f.type then checkFields p types rest
    else throw (.parameter p.place (.nestedMember p.style p.explode (← f.name.inner)))

/-- The shape in which a parameter of a type is written. -/
def shape (p : Parameter) (types : NamedTypes) (d : Descriptor) : Checked Shape := do
  let fail {α : Type} (cause : Style → Bool → ParameterFault) : Checked α :=
    .error (.parameter p.place (cause p.style p.explode))
  let d ← types.behind d
  if p.style == .deepObject then
    match d with
    | .object .. =>
      if !p.explode then fail .undefinedDeep
      types.checkDeep p.place d
      return .deepObject
    | _ => fail .needsObject
  let some shape ← types.shape? d | fail (.unserializable · · d.kindText)
  if p.style.arrayDelimiter?.isSome && shape != .array then fail .onlyArrays
  if shape == .array then
    if !(← types.isScalar (Codec.items d)) then fail .nestedItems
  if shape == .object then
    p.checkFields types d.fields
    if p.style == .matrix && !p.explode then fail .ambiguousObject
    if p.style == .form && p.explode && d.fields.isEmpty then fail .undeclaredKeys
  if p.location == .cookie && p.explode && shape != .scalar then
    fail (.explodedCookie · · shape.text)
  return shape

/-- The wire format of a parameter. -/
def codec (p : Parameter) (m : Mapper) : Mapping Codec := do
  match p.contentType, p.schema with
  | some _, schema =>
    let type ←
      match schema with
      | some id => m.mapUse id
      | none => pure .any
    return { parameter := p, shape := .content, type, types := ← m.typesWithin type }
  | none, none => throw (.parameter p.place .noSchema)
  | none, some id =>
    if !p.style.allows p.location then
      throw (.parameter p.place (.misplaced p.style p.location))
    let type ← m.mapUse id
    let types ← m.typesWithin type
    return { parameter := p, shape := ← p.shape types type, type, types }

end Parameter
end OpenApi
