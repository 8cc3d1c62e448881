import OpenApi.TypeScript.Type

/-!
Types as Zod schemas.
-/
namespace OpenApi.TypeScript.Zod

def primitive : Primitive → String
  | .any => "z.unknown()"
  | .null => "z.null()"
  | .string => "z.string()"
  | .integer => "z.int()"
  | .int64 => "z.int64()"
  | .number => "z.number()"
  | .boolean => "z.boolean()"
  | .uuid => "z.uuid()"
  | .date => "z.iso.date()"
  | .dateTime => "z.iso.datetime()"
  | .time => "z.iso.time()"
  | .email => "z.email()"
  | .uri => "z.url()"
  | .binary => "z.file()"
  | .byte => "z.base64()"
  | .ipv4 => "z.ipv4()"
  | .ipv6 => "z.ipv6()"
  | .hostname => "z.hostname()"

/-- The schema of a primitive that arrives as text. -/
def coerced : Primitive → String
  | .integer => "z.coerce.number().int()"
  | .int64 => "z.coerce.bigint()"
  | .number => "z.coerce.number()"
  | .boolean => "z.stringbool()"
  | p => primitive p

/-- The name of the schema of a named type. -/
def schemaName (names : NameTable) (name : Scalar) : Checked String :=
  return (← typeName names name) ++ "Schema"

def call (method argument : String) : String := "." ++ method ++ "(" ++ argument ++ ")"

/-- A call for each limit that is set. -/
def limitCalls (cs : Constraints) (write : Value → Checked String)
    (methods : List (Limit × String)) : Checked String := do
  let calls ← methods.mapM fun (limit, method) =>
    match cs.get? limit with
    | some v => do return call method (← write v)
    | none => .ok ""
  return String.join calls

/-- The limits of a primitive: lengths and a pattern for texts, bounds for all others. -/
def primitiveLimits (p : Primitive) (cs : Constraints) : Checked String := do
  if p.isString then
    let pattern ←
      match cs.get? .pattern with
      | some v => pure (call "regex" ("new RegExp(" ++ (← quotedOf v) ++ ")"))
      | none => pure ""
    return (← limitCalls cs Value.text [(.minLength, "min"), (.maxLength, "max")]) ++ pattern
  else
    limitCalls cs Value.inner
      [(.minimum, "min"), (.maximum, "max"), (.exclusiveMinimum, "gt"), (.exclusiveMaximum, "lt"),
        (.multipleOf, "multipleOf")]

def arrayLimits (cs : Constraints) : Checked String :=
  limitCalls cs Value.text [(.minItems, "min"), (.maxItems, "max")]

def isText : Value → Bool
  | .str _ => true
  | _ => false

/-- The schema of enumerated values. -/
def enum (literals : List Value) : Checked String := do
  let texts ← itemLiterals literals
  return match texts with
    | [text] => "z.literal(" ++ text ++ ")"
    | _ =>
      if literals.all isText then "z.enum([" ++ Text.join ", " texts ++ "])"
      else "z.union([" ++ Text.join ", " (texts.map fun t => "z.literal(" ++ t ++ ")") ++ "])"

def union (members : List String) (discriminator : Option Discriminator) : Checked String := do
  let list := "[" ++ Text.join ", " members ++ "]"
  match discriminator with
  | some d => return "z.discriminatedUnion(" ++ (← quotedOf d.property) ++ ", " ++ list ++ ")"
  | none => return "z.union(" ++ list ++ ")"

def intersection : List String → Checked String
  | [] => .error .wrongKind
  | first :: rest => .ok (first ++ String.join (rest.map (call "and")))

/-- An object that declares its fields. -/
def declaredObject (fields : List String) (strict : Bool) : String :=
  (if strict then "z.strictObject(\x7b " else "z.object(\x7b ") ++ Text.join ", " fields ++ " \x7d)"

/-- Adds what holds of types of every kind: null and the default. -/
def close (d : Descriptor) (text : String) : Checked String := do
  let text := if d.traits.nullable && d.primitive? != some .null then text ++ ".nullable()" else text
  match d.traits.default with
  | some v => return text ++ call "default" (← literal v)
  | none => return text

/-- Adds what holds of a field beyond its type. -/
def closeField (f : Field) (text : String) : String :=
  let text :=
    if f.optionality == .nullable && !f.type.traits.nullable then text ++ ".nullable()" else text
  if !f.required && f.type.traits.default.isNone then text ++ ".exactOptional()" else text

mutual

/-- The schema of a type, null and the default left aside; `arriving` says that its scalars arrive as
text. -/
def base (names : NameTable) (arriving : Bool) : Descriptor → Checked String
  | .reference name t => do
    let identifier ← schemaName names name
    return if t.recursive then "z.lazy(() => " ++ identifier ++ ")" else identifier
  | .primitive p t =>
    return (if arriving then coerced p else primitive p) ++ (← primitiveLimits p t.constraints)
  | .enum _ literals _ => enum literals
  | .array items t =>
    return "z.array(" ++ (← close items (← base names arriving items)) ++ ")"
      ++ (← arrayLimits t.constraints)
  | .union members t => do union (← schemas names arriving members) t.discriminator
  | .intersection members _ => do intersection (← schemas names arriving members)
  | .object [] additional _ =>
    match additional with
    | .schema d => return "z.record(z.string(), " ++ (← close d (← base names arriving d)) ++ ")"
    | .flag false => .ok "z.strictObject(\x7b\x7d)"
    | _ => .ok "z.record(z.string(), z.unknown())"
  | .object (f :: rest) additional _ => do
    let first ← keyedField names arriving f
    let fields := first :: (← keyedFields names arriving rest)
    match additional with
    | .schema d =>
      return declaredObject fields false ++ call "catchall" (← close d (← base names arriving d))
    | .flag false => return declaredObject fields true
    | _ => return declaredObject fields false

def schemas (names : NameTable) (arriving : Bool) : List Descriptor → Checked (List String)
  | [] => .ok []
  | d :: rest => do
    let first ← close d (← base names arriving d)
    return first :: (← schemas names arriving rest)

def keyedField (names : NameTable) (arriving : Bool) : FieldOf Descriptor → Checked String
  | ⟨name, type, optionality, required, description, readOnly, writeOnly⟩ => do
    let key ← keyOf name
    let text ← close type (← base names arriving type)
    return key ++ ": "
      ++ closeField ⟨name, type, optionality, required, description, readOnly, writeOnly⟩ text

def keyedFields (names : NameTable) (arriving : Bool) :
    List (FieldOf Descriptor) → Checked (List String)
  | [] => .ok []
  | f :: rest => do
    let first ← keyedField names arriving f
    return first :: (← keyedFields names arriving rest)

end

/-- The schema of a type. -/
def schema (names : NameTable) (arriving : Bool) (d : Descriptor) : Checked String := do
  close d (← base names arriving d)

/-- The schema of a type that need not be there; without one nothing is passed. -/
def schemaOrVoid (names : NameTable) (arriving : Bool) : Option Descriptor → Checked String
  | some d => schema names arriving d
  | none => .ok "z.void()"

/-- The schema of a field. -/
def field (names : NameTable) (arriving : Bool) (f : Field) : Checked String :=
  return closeField f (← schema names arriving f.type)

end OpenApi.TypeScript.Zod
