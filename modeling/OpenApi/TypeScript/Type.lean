import OpenApi.Name.Table
import OpenApi.Types.Descriptor
import OpenApi.TypeScript.Literal

/-!
Types as TypeScript type expressions.
-/
namespace OpenApi.TypeScript

/-- The operators that combine types. -/
def operators : List Char := ['|', '&']

def isOpening (c : Char) : Bool := c == '{' || c == '[' || c == '(' || c == '<'

def isClosing (c : Char) : Bool := c == '}' || c == ']' || c == ')' || c == '>'

/-- Does one of the operators stand outside of all brackets? -/
def hasOperator (ops : List Char) : Int → List Char → Bool
  | _, [] => false
  | depth, c :: rest =>
    if isOpening c then hasOperator ops (depth + 1) rest
    else if isClosing c then hasOperator ops (depth - 1) rest
    else (depth == 0 && ops.contains c) || hasOperator ops depth rest

/-- Puts parentheses around a type with one of the operators outside of brackets. -/
def wrap (ops : List Char) (text : String) : String :=
  if hasOperator ops 0 text.toList then "(" ++ text ++ ")" else text

def primitive : Primitive → String
  | .any => "unknown"
  | .null => "null"
  | .integer | .number => "number"
  | .int64 => "bigint"
  | .boolean => "boolean"
  | .binary => "Blob"
  | _ => "string"

/-- The name of a named type. -/
def typeName (names : NameTable) (name : Scalar) : Checked String := names.get .schemaType name ""

/-- A type, or null. -/
def orNull (text : String) : String := wrap operators text ++ " | null"

/-- Adds null to the expression of a type that takes it. -/
def withNull (d : Descriptor) (text : String) : String :=
  if d.traits.nullable && text != "null" then orNull text else text

/-- An object type with the given members. An object that declares nothing takes everything. -/
def object (members : List String) (takesAll : Bool) : String :=
  if !members.isEmpty then "\x7b " ++ Text.join "; " members ++ " \x7d"
  else if takesAll then "\x7b [key: string]: unknown \x7d"
  else "Record<string, never>"

def fieldText (f : Field) (key base : String) : String :=
  let nullable := f.optionality == .nullable || f.type.traits.nullable
  key ++ (if f.required then "" else "?") ++ ": " ++ if nullable then orNull base else base

mutual

/-- The expression of a type, null left aside. -/
def base (names : NameTable) : Descriptor → Checked String
  | .reference name _ => typeName names name
  | .primitive p _ => .ok (primitive p)
  | .enum _ literals _ => do
    let texts ← itemLiterals literals
    return if texts.isEmpty then "never" else Text.join " | " texts
  | .array items _ => return wrap operators (withNull items (← base names items)) ++ "[]"
  | .union members _ => return Text.join " | " ((← types names members).map (wrap ['&']))
  | .intersection members _ =>
    return Text.join " & " ((← types names members).map (wrap operators))
  | .object fields additional _ => do
    let members ← objectFields names fields
    match additional with
    | .schema d =>
      return object (members ++ ["[key: string]: " ++ withNull d (← base names d)]) false
    | .flag false => return object members false
    | _ => return object members true

def types (names : NameTable) : List Descriptor → Checked (List String)
  | [] => .ok []
  | d :: rest => do
    let first ← base names d
    return withNull d first :: (← types names rest)

/-- A field. It may be null if it or its type may be, and has a mark if it may be left out. -/
def field (names : NameTable) : FieldOf Descriptor → Checked String
  | ⟨name, type, optionality, required, description, readOnly, writeOnly⟩ => do
    let text ← base names type
    return fieldText ⟨name, type, optionality, required, description, readOnly, writeOnly⟩
      (← keyOf name) text

def objectFields (names : NameTable) : List (FieldOf Descriptor) → Checked (List String)
  | [] => .ok []
  | f :: rest => do
    let first ← field names f
    return first :: (← objectFields names rest)

end

/-- The expression of a type. -/
def type (names : NameTable) (d : Descriptor) : Checked String :=
  return withNull d (← base names d)

/-- The expression of a type that need not be there; without one nothing is passed. -/
def typeOrVoid (names : NameTable) : Option Descriptor → Checked String
  | some d => type names d
  | none => .ok "void"

end OpenApi.TypeScript
