import OpenApi.Name.Identifier
import OpenApi.Text.Split
import OpenApi.Value.Access

/-!
Values as TypeScript expressions.
-/
namespace OpenApi.TypeScript

/-- A character inside of single quotes. -/
def escapeChar (c : Char) : List Char :=
  if c == '\\' then ['\\', '\\']
  else if c == '\'' then ['\\', '\'']
  else if c == '\n' then ['\\', 'n']
  else if c == '\r' then ['\\', 'r']
  else [c]

/-- A text in single quotes. -/
def quoted (s : String) : String := String.ofList ('\'' :: s.toList.flatMap escapeChar ++ ['\''])

/-- A text that can stand as a key or member name without quotes. A line feed at its end is not looked
at. -/
def isPlainKey (s : String) : Bool :=
  Identifier.isIdentifier s ||
    (s.toList.getLast? == some '\n' && Identifier.isIdentifier (String.ofList s.toList.dropLast))

/-- The key of an object. -/
def key (s : String) : String := if isPlainKey s then s else quoted s

/-- The key of an object, for a name that has to be a text. -/
def keyOf (name : Scalar) : Checked String :=
  match name with
  | .str s => .ok (key s)
  | _ => .error .wrongKind

/-- A text in single quotes, for a value that has to be a text. -/
def quotedOf (v : Value) : Checked String :=
  match v with
  | .str s => .ok (quoted s)
  | _ => .error .wrongKind

def scalarLiteral : Scalar → Checked String
  | .str s => .ok (quoted s)
  | .bool b => .ok (if b then "true" else "false")
  | .null => .ok "null"
  | .int n => writtenInt n
  | .float x => .ok x.text
  | .date _ => .error .wrongKind

mutual

def literal : Value → Checked String
  | .scalar s => scalarLiteral s
  | .list items => return "[" ++ Text.join ", " (← itemLiterals items) ++ "]"
  | .map entries => return "\x7b " ++ Text.join ", " (← entryLiterals entries) ++ " \x7d"

def itemLiterals : List Value → Checked (List String)
  | [] => .ok []
  | x :: xs => do
    let first ← literal x
    return first :: (← itemLiterals xs)

def entryLiterals : List (Scalar × Value) → Checked (List String)
  | [] => .ok []
  | (k, v) :: rest => do
    let name ← k.text
    let first ← literal v
    return (key name ++ ": " ++ first) :: (← entryLiterals rest)

end

end OpenApi.TypeScript
