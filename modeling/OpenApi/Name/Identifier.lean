import OpenApi.Text.Blank
import OpenApi.Text.Case

/-!
Making identifiers out of free text.
-/
namespace OpenApi.Identifier

def isPart (c : Char) : Bool := c.isAlphanum || c == '_' || c == '$'

def isStart (c : Char) : Bool := isPart c && !c.isDigit

/-- Puts `_` for every character that no identifier can hold, and in front of a digit. -/
def ofText (raw : String) : String :=
  match raw.toList.map fun c => if isPart c then c else '_' with
  | [] => "_"
  | c :: rest => String.ofList (if c.isDigit then '_' :: c :: rest else c :: rest)

/-- The non-empty runs of characters between those that `p` takes for gaps. -/
def wordsBy (p : Char → Bool) (cs : List Char) : List String :=
  ((cs.splitBy fun a b => p a == p b).filter fun run => !run.all p).map String.ofList

def isPathGap (c : Char) : Bool :=
  "/\x7b\x7d:.-_".toList.contains c || Text.isBlank c

/-- A function name for a method and path: `get` and `/users/{id}` make `getUsersId`. A path without
words, or with a slash at its end, adds `Index`. -/
def ofRoute (method path : String) : String :=
  let words := wordsBy isPathGap path.toList
  let words := if words.isEmpty || path.toList.getLast? == some '/' then words ++ ["index"] else words
  Text.lower method ++ String.join (words.map Text.capitalize)

/-- `list_pets` makes `ListPets`. -/
def pascal (name : String) : String :=
  let words := wordsBy (fun c => !(c.isAlphanum || c == '$')) name.toList
  if words.isEmpty then "_" else String.join (words.map Text.capitalize)

/-- Is the whole text an identifier? -/
def isIdentifier (s : String) : Bool :=
  match s.toList with
  | [] => false
  | c :: rest => isStart c && rest.all isPart

end OpenApi.Identifier
