import OpenApi.Json.Printer
import OpenApi.Text.Split
import OpenApi.Value.Access
import OpenApi.Wire.Codec

/-!
Writing a value as the wire text of a parameter.
-/
namespace OpenApi.Codec

/-- The text of a scalar before it is percent-encoded. -/
def scalarText (c : Codec) (v : Value) : Checked String :=
  match v with
  | .bool b => .ok (if b then "true" else "false")
  | .int n => writtenInt n
  | .float x => .ok x.text
  | .str s => .ok s
  | _ => do throw (.notSerializable c.name v.kindName (← v.inner))

/-- A scalar on the wire. -/
def wireText (c : Codec) (v : Value) : Checked String :=
  return Percent.encode (← c.scalarText v) (c.parameter.style == .label)

def pair (key value : String) : String := key ++ "=" ++ value

def encodeScalar (c : Codec) (v : Value) : Checked String := do
  let text ← c.wireText v
  return match c.parameter.style, c.parameter.location with
    | .label, _ => "." ++ text
    | .matrix, _ => ";" ++ pair c.wireName text
    | .form, _ | _, .cookie => pair c.wireName text
    | _, _ => text

/-- A cookie carries its name. -/
def nameCookie (c : Codec) (text : String) : String :=
  if c.parameter.location == .cookie then pair c.wireName text else text

def encodeArray (c : Codec) (v : Value) : Checked String := do
  let items ← (← v.elements).mapM c.wireText
  match c.parameter.style, c.parameter.explode with
  | .simple, _ => return c.nameCookie (Text.join "," items)
  | .label, _ => return String.join (items.map ("." ++ ·))
  | .matrix, true => return String.join (items.map fun t => ";" ++ pair c.wireName t)
  | .matrix, false => return ";" ++ pair c.wireName (Text.join "," items)
  | _, true => return Text.join "&" (items.map (pair c.wireName))
  | _, false =>
    if items.any fun t => Text.contains t c.delimiter then throw (.delimiterInItem c.name)
    return pair c.wireName (Text.join c.delimiter items)

def encodeObject (c : Codec) (v : Value) : Checked String := do
  let entries ← (← v.entries).mapM fun (k, v) => do
    return (← c.wireText (.scalar k), ← c.wireText v)
  let commas := entries.map fun (k, v) => k ++ "," ++ v
  let pairs := entries.map fun (k, v) => pair k v
  match c.parameter.style, c.parameter.explode with
  | .simple, true => return c.nameCookie (Text.join "," pairs)
  | .simple, false => return c.nameCookie (Text.join "," commas)
  | .label, true => return String.join (pairs.map ("." ++ ·))
  | .label, false => return String.join (entries.map fun (k, v) => "." ++ k ++ "." ++ v)
  | .matrix, _ => return String.join (pairs.map (";" ++ ·))
  | _, true => return Text.join "&" pairs
  | _, false => return pair c.wireName (Text.join "," commas)

mutual

/-- The keys and texts of a value in brackets below `key`. -/
def deepPairs (c : Codec) (key : String) (d : Descriptor) : Value → Checked (List (String × String))
  | .map entries => do deepEntries c key (← c.behind d) entries
  | .list values => do deepItems c key (items (← c.behind d)) values
  | .scalar s => do
    let _ ← c.behind d
    return [(key, ← c.wireText (.scalar s))]

def deepEntries (c : Codec) (key : String) (d : Descriptor) :
    List (Scalar × Value) → Checked (List (String × String))
  | [] => .ok []
  | (k, v) :: rest => do
    let name ← k.text
    let first ← deepPairs c (key ++ "[" ++ Percent.encode name false ++ "]") (member d k) v
    return first ++ (← deepEntries c key d rest)

def deepItems (c : Codec) (key : String) (d : Descriptor) :
    List Value → Checked (List (String × String))
  | [] => .ok []
  | v :: rest => do
    let first ← deepPairs c key d v
    return first ++ (← deepItems c key d rest)

end

def encodeDeep (c : Codec) (v : Value) : Checked String := do
  let pairs ← c.deepPairs c.wireName c.type v
  return Text.join "&" (pairs.map fun (k, v) => pair k v)

def encodeContent (c : Codec) (v : Value) : Checked String :=
  match Json.print? v with
  | none => .error .wrongKind
  | some text =>
    match c.parameter.location with
    | .header => .ok text
    | .path => .ok (Percent.encode text false)
    | _ => .ok (pair c.wireName (Percent.encode text false))

/-- The wire text of a value. Null is left out, and so is an empty array or object that is exploded:
their text is empty. -/
def encode (c : Codec) (v : Value) : Checked String :=
  match v with
  | .null => .ok ""
  | v =>
    match c.shape with
    | .content => c.encodeContent v
    | .deepObject => c.encodeDeep v
    | .scalar => c.encodeScalar v
    | .array => c.encodeArray v
    | .object => c.encodeObject v

end OpenApi.Codec
