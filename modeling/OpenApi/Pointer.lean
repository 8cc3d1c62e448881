import OpenApi.Fault
import OpenApi.Text.Percent
import OpenApi.Text.Split

/-!
Pointers `#/a/b` into a document. In a token `~` is written `~0` and `/` is written `~1`. A reference
may be percent-encoded on top of that; a canonical pointer is not.
-/
namespace OpenApi.Pointer

def escapeChar (c : Char) : List Char :=
  if c == '~' then ['~', '0'] else if c == '/' then ['~', '1'] else [c]

def escape (token : String) : String := String.ofList (token.toList.flatMap escapeChar)

def unescapeList : List Char → List Char
  | '~' :: '1' :: rest => '/' :: unescapeList rest
  | '~' :: '0' :: rest => '~' :: unescapeList rest
  | c :: rest => c :: unescapeList rest
  | [] => []

def unescape (token : String) : String := String.ofList (unescapeList token.toList)

/-- The location of `tokens` below `pointer`. -/
def join (pointer : String) (tokens : List String) : String :=
  tokens.foldl (fun p t => p ++ "/" ++ escape t) pointer

/-- One step down. -/
def child (pointer token : String) : String := join pointer [token]

/-- The tokens of the fragment of `ref`. -/
def fragmentTokens (ref : String) (fragment : List Char) : Checked (List String) :=
  match fragment with
  | [] => .ok []
  | '/' :: rest => .ok ((Text.splitList '/' rest).map fun t => String.ofList (unescapeList t))
  | _ => .error (.schema ref .fragmentWithoutSlash)

/-- The tokens of a canonical pointer. -/
def tokens (pointer : String) : Checked (List String) :=
  match pointer.toList with
  | '#' :: rest => fragmentTokens pointer rest
  | _ => .error (.schema pointer .notLocal)

/-- The tokens of a reference, percent-decoded. -/
def refTokens (ref : String) : Checked (List String) :=
  match ref.toList with
  | '#' :: rest => fragmentTokens ref (Percent.decodeLossy (String.ofList rest)).toList
  | _ => .error (.schema ref .notLocal)

/-- The canonical spelling of a reference. -/
def normalize (ref : String) : Checked String := return join "#" (← refTokens ref)

end OpenApi.Pointer
