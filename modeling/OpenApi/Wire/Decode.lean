import OpenApi.Json.Parser
import OpenApi.Text.Number
import OpenApi.Text.Split
import OpenApi.Value.Access
import OpenApi.Wire.Codec

/-!
Reading the wire text of a parameter. Query strings and cookie headers are read as a whole, with the
pairs of other parameters in them.
-/
namespace OpenApi.Codec

/-- The text of an enumerated value on the wire. -/
def literalText : Value → Checked String
  | .bool b => .ok (if b then "true" else "false")
  | v => v.text

/-- The first of several values that is written as `text`. -/
def findLiteral? (text : String) : List Value → Checked (Option Value)
  | [] => .ok none
  | v :: rest => do
    if (← literalText v) == text then return some v
    findLiteral? text rest

/-- The number in a text; one that is written with digits alone is an integer. -/
def readNumber? (text : String) : Option Value := do
  let x ← Text.readDouble? text
  match x.toInt? with
  | some n => some (if Text.isWholeNumeral text then .int n else .float x)
  | none => some (.float x)

/-- The value of a primitive type. -/
def readPrimitive (c : Codec) (text : String) : Primitive → Checked Value
  | .integer | .int64 =>
    match Text.readInt? text with
    | some n => .ok (.int n)
    | none => c.fail (.notInteger text)
  | .number =>
    match readNumber? text with
    | some v => .ok v
    | none => c.fail (.notNumber text)
  | .boolean =>
    if text == "true" then .ok (.bool true)
    else if text == "false" then .ok (.bool false)
    else c.fail (.notBoolean text)
  | .null => if text == "" || text == "null" then .ok .null else c.fail (.notNull text)
  | _ => .ok (.str text)

mutual

/-- The value of a type that no name stands before; `named` reads one behind names. -/
def readWith (c : Codec) (text : String) (named : Descriptor → Checked Value) :
    Descriptor → Checked Value
  | .enum _ literals t => do
    if t.nullable && text == "null" then return .null
    match ← findLiteral? text literals with
    | some v => return v
    | none => c.fail (.notOneOf text (← (Value.list literals).inner))
  | .union members t =>
    if t.nullable && text == "null" then .ok .null else readFirst c text named members
  | .primitive p t =>
    if t.nullable && text == "null" then .ok .null else c.readPrimitive text p
  | .array _ t | .object _ _ t | .intersection _ t | .reference _ t =>
    if t.nullable && text == "null" then .ok .null else .ok (.str text)

/-- The value of the first member that takes the text. -/
def readFirst (c : Codec) (text : String) (named : Descriptor → Checked Value) :
    List Descriptor → Checked Value
  | [] => c.fail (.noMember text)
  | m :: rest =>
    let read :=
      match m with
      | .reference name t => named (.reference name t)
      | m => readWith c text named m
    match read with
    | .error (.wire _ _) => readFirst c text named rest
    | outcome => outcome

end

/-- The value of a type behind names. -/
def readScalar (c : Codec) (text : String) : Nat → Descriptor → Checked Value
  | 0, _ => .error .exhausted
  | fuel + 1, d => do readWith c text (readScalar c text fuel) (← c.behind d)

/-- The value of a type, from percent-encoded text. -/
def read (c : Codec) (raw : String) (d : Descriptor) : Checked Value :=
  match Percent.decode? raw with
  | some text => c.readScalar text (c.types.length + 2) d
  | none => c.fail (.badPercent raw)

def percentDecode (raw : String) : Checked String :=
  match Percent.decode? raw with
  | some text => .ok text
  | none => .error .notUtf8

def readItems (c : Codec) (parts : List String) : Checked Value := do
  let d := items (← c.behind c.type)
  return .list (← parts.mapM fun part => c.read part d)

/-- A key with the text of its value, which may be missing. -/
abbrev Entry := String × Option String

def readEntry (c : Codec) (d : Descriptor) (e : Entry) : Checked (Scalar × Value) :=
  match e with
  | (key, none) => c.fail (.malformedEntry key)
  | (key, some raw) => do
    let key := Scalar.str (← percentDecode key)
    return (key, ← c.read raw (member d key))

def readEntries (c : Codec) (entries : List Entry) : Checked Value := do
  let d ← c.behind c.type
  return .map (Entries.ofList (← entries.mapM (c.readEntry d)))

/-- Entries from a list in which keys and values alternate. -/
def alternating : List String → Option (List Entry)
  | [] => some []
  | [_] => none
  | k :: v :: rest => (alternating rest).map ((k, some v) :: ·)

/-- Reads entries from alternating keys and values; `name` is used in the message. -/
def readAlternating (c : Codec) (name : String) (parts : List String) : Checked Value :=
  match alternating parts with
  | some entries => c.readEntries entries
  | none => .error (.wire name .oddPairs)

/-- The pieces of a text; an empty one has none. -/
def piecesOf (delimiter text : String) : List String :=
  if text.isEmpty then [] else Text.splitSeq delimiter text

def decodeLabel (c : Codec) (raw : String) : Checked Value :=
  match raw.toList with
  | '.' :: rest =>
    let rest := String.ofList rest
    match c.shape with
    | .scalar => c.read rest c.type
    | .array => c.readItems (Text.split '.' rest)
    | _ =>
      if c.parameter.explode then c.readEntries ((Text.split '.' rest).map (Text.cut '='))
      else c.readAlternating c.name (Text.split '.' rest)
  | _ => c.fail .noLabelDot

/-- The values of all pairs under a name. -/
def valuesOf (name : String) (entries : List Entry) : List String :=
  entries.filterMap fun (k, v) => if k == name then some (v.getD "") else none

def decodeMatrix (c : Codec) (raw : String) : Checked Value :=
  match raw.toList with
  | ';' :: rest =>
    let entries := (Text.split ';' (String.ofList rest)).map (Text.cut '=')
    if c.shape == .object then c.readEntries entries
    else match valuesOf c.wireName entries with
      | [] => .ok .null
      | first :: more =>
        if c.shape == .scalar then c.read first c.type
        else if c.parameter.explode then c.readItems (first :: more)
        else c.readItems (piecesOf "," first)
  | _ => c.fail .noMatrixSemicolon

def decodeSimple (c : Codec) (text : String) : Checked Value :=
  match c.shape with
  | .scalar => c.read text c.type
  | .array => c.readItems (piecesOf "," text)
  | _ =>
    if c.parameter.explode then c.readEntries ((piecesOf "," text).map (Text.cut '='))
    else c.readAlternating c.name (piecesOf "," text)

/-- Path segments and header values. -/
def decodeSegment (c : Codec) (raw : String) : Checked Value :=
  match c.parameter.style with
  | .label => c.decodeLabel raw
  | .matrix => c.decodeMatrix raw
  | _ => c.decodeSimple raw

def decodeJson (c : Codec) (text : String) : Checked Value :=
  match Json.parse text with
  | .ok v => .ok v
  | .error e => if e.reason = .tooManyDigits then .error .wrongKind else c.fail (.badJson e)

/-- The pairs of a query string or cookie header, blanks around them cut off. -/
def pairsOf (separator : Char) (raw : String) : List (String × String) :=
  let chunks := (Text.splitList separator (raw.toList.dropWhile (· == '?'))).map
    (Text.trimList Text.isBlank)
  (chunks.filter (!·.isEmpty)).map fun chunk =>
    let (k, v) := Text.cutList '=' chunk
    (String.ofList k, String.ofList (v.getD []))

/-- Square brackets that were percent-encoded. -/
def plainBrackets : List Char → List Char
  | '%' :: '5' :: c :: rest =>
    if c == 'B' || c == 'b' then '[' :: plainBrackets rest
    else if c == 'D' || c == 'd' then ']' :: plainBrackets rest
    else '%' :: plainBrackets ('5' :: c :: rest)
  | c :: rest => c :: plainBrackets rest
  | [] => []

/-- The parts of a text that consists of parts in brackets; `part` is the one that is open. -/
def bracketParts? : Option (List Char) → List Char → Option (List (List Char))
  | none, [] => some []
  | some _, [] => none
  | none, c :: rest => if c == '[' then bracketParts? (some []) rest else none
  | some part, c :: rest =>
    if c == ']' then (bracketParts? none rest).map (part.reverse :: ·)
    else if c == '[' then none
    else bracketParts? (some (c :: part)) rest

/-- Puts a text into nested objects at the end of a path. An array gathers the texts given for it. -/
def assign (c : Codec) (raw : String) : List String → Descriptor → Entries → Checked Entries
  | [], _, _ => .error .wrongKind
  | [key], d, target => do
    let key := Scalar.str key
    match ← c.behind (member (← c.behind d) key) with
    | .array items _ =>
      match (target.find? key).getD (.list []) with
      | .list found => return target.insert key (.list (found ++ [← c.read raw items]))
      | _ => throw .wrongKind
    | d => return target.insert key (← c.read raw d)
  | key :: next :: rest, d, target => do
    let d ← c.behind (member (← c.behind d) (.str key))
    match (target.find? (.str key)).getD (.map []) with
    | .map child => return target.insert (.str key) (.map (← assign c raw (next :: rest) d child))
    | _ => c.fail (.valueAndObject key)

/-- What a pair of a query string means to a parameter in brackets: nothing, or a path. -/
def bracketPath? (c : Codec) (key : List Char) : Checked (Option (List String)) :=
  let name := c.wireName.toList
  if (name ++ ['[']).isPrefixOf key then
    match bracketParts? none (key.drop name.length) with
    | none => c.fail (.malformedPath (String.ofList key))
    | some parts => do
      return some (← parts.mapM fun part => percentDecode (String.ofList part))
  else .ok none

/-- Reads the pairs that belong to a parameter in brackets; none if there are none. -/
def decodeDeep (c : Codec) : Option Entries → List (String × String) → Checked Value
  | none, [] => .ok .null
  | some found, [] => .ok (.map found)
  | found, (key, raw) :: rest => do
    match ← c.bracketPath? (plainBrackets key.toList) with
    | none => decodeDeep c found rest
    | some path => decodeDeep c (some (← c.assign raw path c.type (found.getD []))) rest

def wireNames (names : List Scalar) : Checked (List String) :=
  names.mapM fun
    | .str s => .ok (Percent.encode s false)
    | _ => .error .wrongKind

/-- The pairs of an exploded object are those under the names of its fields. -/
def decodeExploded (c : Codec) (pairs : List (String × String)) : Checked Value := do
  let declared ← wireNames (← c.fieldNames)
  match pairs.filter fun (k, _) => declared.contains k with
  | [] => return .null
  | own => c.readEntries (own.map fun (k, v) => (k, some v))

/-- Reads the value of the first pair under the name of the parameter. -/
def decodeValue (c : Codec) (raw : String) (all : List String) : Checked Value :=
  match c.shape, c.parameter.style, c.parameter.explode with
  | .content, _, _ => do c.decodeJson (← percentDecode raw)
  | _, .simple, _ => c.decodeSimple raw
  | .scalar, _, _ => c.read raw c.type
  | .array, _, true => c.readItems all
  | .array, _, false => c.readItems (piecesOf c.delimiter raw)
  | _, _, _ => c.readAlternating c.wireName (piecesOf "," raw)

/-- Query strings and cookie headers. -/
def decodePairs (c : Codec) (pairs : List (String × String)) : Checked Value :=
  if c.shape == .deepObject then c.decodeDeep none pairs
  else if c.shape == .object && c.parameter.style != .simple && c.parameter.explode then
    c.decodeExploded pairs
  else match pairs.filterMap fun (k, v) => if k == c.wireName then some v else none with
    | [] => .ok .null
    | first :: more => c.decodeValue first (first :: more)

/-- The value behind a wire text; null if the parameter is not there. -/
def decode (c : Codec) (raw : Option String) : Checked Value :=
  match raw with
  | none => .ok .null
  | some raw =>
    match c.parameter.location with
    | .query => c.decodePairs (pairsOf '&' raw)
    | .cookie => c.decodePairs (pairsOf ';' raw)
    | location =>
      if c.shape == .content then
        if location == .header then c.decodeJson raw else do c.decodeJson (← percentDecode raw)
      else c.decodeSegment raw

end OpenApi.Codec
