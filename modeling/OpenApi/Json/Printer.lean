import OpenApi.Value.Text

/-!
Writing JSON without blanks. Only quotes, backslashes and controls are escaped.
-/
namespace OpenApi.Json

def writtenChar (c : Char) : List Char :=
  if c == '"' then ['\\', '"']
  else if c == '\\' then ['\\', '\\']
  else if c == '\n' then ['\\', 'n']
  else if c == '\r' then ['\\', 'r']
  else if c == '\t' then ['\\', 't']
  else if c.toNat = 0x0c then ['\\', 'f']
  else if c.toNat = 0x08 then ['\\', 'b']
  else if c.toNat < 0x20 then '\\' :: 'u' :: Text.hexDigits 4 c.toNat
  else [c]

def written (s : String) : String :=
  "\"" ++ String.ofList (s.toList.flatMap writtenChar) ++ "\""

def doubleText : Double → String
  | .nan => "NaN"
  | .infinite s => if s then "-Infinity" else "Infinity"
  | x => x.text

/-- The bare text of a scalar; dates and integers of too many digits have none. -/
def scalarText? : Scalar → Option String
  | .null => some "null"
  | .bool b => some (if b then "true" else "false")
  | .int n => intText? n
  | .float x => some (doubleText x)
  | .str s => some (written s)
  | .date _ => none

/-- A key is always a string. -/
def keyText? : Scalar → Option String
  | .str s => some (written s)
  | s => (scalarText? s).map fun t => "\"" ++ t ++ "\""

mutual

/-- The text of a value all of whose scalars have one. -/
def print? : Value → Option String
  | .scalar s => scalarText? s
  | .list items => (printItems? items).map fun ts => "[" ++ ",".intercalate ts ++ "]"
  | .map entries => (printEntries? entries).map fun ts => "\x7b" ++ ",".intercalate ts ++ "\x7d"

def printItems? : List Value → Option (List String)
  | [] => some []
  | x :: xs => do return (← print? x) :: (← printItems? xs)

def printEntries? : List (Scalar × Value) → Option (List String)
  | [] => some []
  | (k, v) :: rest => do return ((← keyText? k) ++ ":" ++ (← print? v)) :: (← printEntries? rest)

end

end OpenApi.Json
