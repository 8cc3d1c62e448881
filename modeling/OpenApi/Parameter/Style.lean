/-!
Where a parameter travels and in which style it is written there.
-/
namespace OpenApi

inductive Location where
  | path
  | query
  | header
  | cookie
deriving DecidableEq, Repr

def Location.text : Location → String
  | .path => "path"
  | .query => "query"
  | .header => "header"
  | .cookie => "cookie"

def Location.all : List Location := [.path, .query, .header, .cookie]

def Location.ofText? (s : String) : Option Location := Location.all.find? (·.text == s)

inductive Style where
  | simple
  | label
  | matrix
  | form
  | spaceDelimited
  | pipeDelimited
  | deepObject
deriving DecidableEq, Repr

def Style.text : Style → String
  | .simple => "simple"
  | .label => "label"
  | .matrix => "matrix"
  | .form => "form"
  | .spaceDelimited => "spaceDelimited"
  | .pipeDelimited => "pipeDelimited"
  | .deepObject => "deepObject"

def Style.all : List Style :=
  [.simple, .label, .matrix, .form, .spaceDelimited, .pipeDelimited, .deepObject]

def Style.ofText? (s : String) : Option Style := Style.all.find? (·.text == s)

/-- The style of a parameter that names none. -/
def Location.defaultStyle : Location → Style
  | .query => .form
  | _ => .simple

/-- The locations that a style is defined for. -/
def Style.allows : Style → Location → Bool
  | .simple, .path | .simple, .header | .simple, .cookie => true
  | .label, .path => true
  | .matrix, .path => true
  | .form, .query | .form, .cookie => true
  | .spaceDelimited, .query | .pipeDelimited, .query | .deepObject, .query => true
  | _, _ => false

/-- Whether a parameter that does not say is exploded. -/
def Style.defaultExplode : Style → Bool
  | .form | .deepObject => true
  | _ => false

/-- What stands between the items of an array that is not exploded, in the styles named for it. -/
def Style.arrayDelimiter? : Style → Option String
  | .spaceDelimited => some "%20"
  | .pipeDelimited => some "|"
  | _ => none

end OpenApi
