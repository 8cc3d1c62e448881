import OpenApi.Pointer
import OpenApi.Text.Digit
import OpenApi.Value.Access

/-!
A description of an API as loosely typed data: its sections, and navigation by pointer.
-/
namespace OpenApi.Document

def methods : List String :=
  ["get", "put", "post", "delete", "options", "head", "patch", "trace"]

/-- The method that a key of a path item names. -/
def method? (key : Scalar) : Option String :=
  match key with
  | .str s => if methods.contains s then some s else none
  | _ => none

/-- Refuses data that cannot describe an API. -/
def check (source : String) (data : Value) : Checked Value :=
  match data with
  | .map es =>
    if !Entries.has es "openapi" && !Entries.has es "swagger" then .error (.document (.noVersion source))
    else match (Entries.get? es "paths").getD (.map []) with
      | .null | .map _ => .ok data
      | _ => .error (.document (.pathsNotAMapping source))
  | _ => .error (.document (.notAMapping source))

def paths (doc : Value) : Checked Value := return (← doc.get "paths").orEmpty

/-- Named schemas, from `components` or else from `definitions`. -/
def schemas (doc : Value) : Checked Value := do
  let found ← (← doc.getD "components" (.map [])).get "schemas"
  let found ← if found.isNull then doc.getD "definitions" (.map []) else .ok found
  return found.orEmpty

/-- The pointer of the section that holds the named schemas. -/
def schemasPointer (doc : Value) : Checked String := do
  if ← (← doc.getD "components" (.map [])).has "schemas" then return "#/components/schemas"
  if ← doc.has "definitions" then return "#/definitions"
  return "#/components/schemas"

def securitySchemes (doc : Value) : Checked Value := do
  let found ← (← doc.getD "components" (.map [])).get "securitySchemes"
  let found ← if found.isNull then doc.getD "securityDefinitions" (.map []) else .ok found
  return found.orEmpty

/-- The number that a token of digits is; digits that form no decimal number are a fault, and so are
too many of them. -/
def tokenNumber (token : String) : Checked Nat :=
  let cs := token.toList
  if cs.length > Text.maxDigits then .error .wrongKind
  else cs.foldlM (fun n c =>
    match Text.decimalValue? c with
    | some d => .ok (10 * n + d)
    | none => .error .wrongKind) 0

/-- One step by a token: a key, a key that is the token's number, or an index. -/
def step? (node : Value) (token : String) : Checked (Option Value) :=
  match node with
  | .map es =>
    match Entries.get? es token with
    | some v => .ok (some v)
    | none =>
      if Text.isNumeral token then do return Entries.find? es (.int (← tokenNumber token))
      else .ok none
  | .list items =>
    if Text.isNumeral token then do return items[← tokenNumber token]? else .ok none
  | _ => .ok none

/-- The value below `node` at the end of the tokens of `pointer`. -/
def walk (pointer : String) : Value → List String → Checked Value
  | node, [] => .ok node
  | node, token :: rest => do
    match ← step? node token with
    | some next => walk pointer next rest
    | none => .error (.schema pointer (.noValueAt token))

/-- The value at a canonical pointer. -/
def resolve (doc : Value) (pointer : String) : Checked Value := do
  walk pointer doc (← Pointer.tokens pointer)

/-- The reference that a value consists of, if it does. -/
def ref? : Value → Option Value
  | .map es => Entries.get? es "$ref"
  | _ => none

/-- Follows references from `v` until something else is found; `seen` holds the pointers followed. -/
def follow (doc : Value) : Nat → List String → Value → String → Checked (Value × String)
  | 0, _, _, _ => .error .exhausted
  | fuel + 1, seen, v, pointer =>
    match ref? v with
    | none => .ok (v, pointer)
    | some (.str ref) => do
      let next ← Pointer.normalize ref
      if seen.contains next then .error (.schema next .circularChain)
      follow doc fuel (next :: seen) (← resolve doc next) next
    | some _ => .error (.schema pointer .refNotText)

/-- What a value stands for behind its references, with the pointer where that was found. No chain
visits more references than the document and the value hold. -/
def deref (doc v : Value) (pointer : String) : Checked (Value × String) :=
  follow doc (doc.size + 2) [] v pointer

/-- The keywords that describe the value of a parameter in place. -/
def inlineKeywords : List String :=
  ["type", "format", "items", "enum", "default", "minimum", "maximum", "exclusiveMinimum",
    "exclusiveMaximum", "multipleOf", "minLength", "maxLength", "pattern", "minItems", "maxItems",
    "uniqueItems"]

/-- The schema of a parameter that spells its keywords in place. -/
def inlineSchema? (param : Value) : Checked (Option Value) := do
  if ← param.has "schema" then return none
  if ← param.has "content" then return none
  if !(← param.has "type") then return none
  let es ← param.entries
  return some (.map (es.filter fun (k, _) => inlineKeywords.any fun key => k.same (.str key)))

end OpenApi.Document
