import OpenApi.TypeScript.Literal

/-!
Paths as routes of a server and as members of its client.
-/
namespace OpenApi.TypeScript

/-- Writes parameters in braces with a colon in front; `part` is the text since a brace that is open,
backwards. A brace that none closes, and an empty pair, stay as they are. -/
def routeFrom : Option (List Char) → List Char → List Char
  | none, [] => []
  | some part, [] => '{' :: part.reverse
  | none, c :: rest => if c == '{' then routeFrom (some []) rest else c :: routeFrom none rest
  | some part, c :: rest =>
    if c == '}' then
      if part.isEmpty then '{' :: '}' :: routeFrom none rest
      else ':' :: (part.reverse ++ routeFrom none rest)
    else routeFrom (some (c :: part)) rest

/-- `/users/{userId}` as `/users/:userId`. -/
def route (path : String) : String := String.ofList (routeFrom none path.toList)

/-- The parts of a path that are not empty. -/
def pathParts (path : String) : List String := (Text.split '/' path).filter (!·.isEmpty)

/-- A member, by name if the name can stand alone. -/
def access (part : String) : String :=
  if isPlainKey part then "." ++ part else "[" ++ quoted part ++ "]"

/-- The function of a client for a method and path, such as `client.users[':userId'].$get`. -/
def clientFunction (client path method : String) : String :=
  let parts := pathParts (route path)
  let index := if parts.isEmpty || path.toList.getLast? == some '/' then ".index" else ""
  client ++ String.join (parts.map access) ++ index ++ ".$" ++ Text.lower method

/-- The first part of a path, by which cache keys are grouped. -/
def pathGroup (path : String) : String := (pathParts path).head?.getD ""

end OpenApi.TypeScript
