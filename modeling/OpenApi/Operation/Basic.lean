import OpenApi.Parameter.Style
import OpenApi.Text.Case
import OpenApi.Value.Basic

/-!
Operations and their parameters. Schemas are recorded by the pointers of their places.
-/
namespace OpenApi

structure Parameter where
  name : String
  location : Location
  style : Style
  explode : Bool
  required : Bool
  schema : Option String := none
  /-- The media type of a parameter that is described by one. -/
  contentType : Option Scalar := none
  description : Option String := none
  deprecated : Bool := false
  pointer : String := ""
deriving Repr

/-- A part of a path: text as it is, or the name of a parameter. -/
inductive Segment where
  | literal (text : String)
  | parameter (name : String)
deriving DecidableEq, Repr

structure Response where
  status : String
  description : String := ""
  contentType : Option String := none
  schema : Option String := none
deriving Repr

/-- An operation. Its id, summary and security are taken from the document as they are. -/
structure Operation where
  method : String
  path : String
  template : List Segment
  id : Value := .null
  summary : Value := .null
  description : Option String := none
  tags : List Value := []
  deprecated : Bool := false
  security : Value := .null
  parameters : List Parameter := []
  body : Option String := none
  bodyContentType : Option String := none
  bodyRequired : Bool := false
  responses : List Response := []
  pointer : String := ""

namespace Operation

/-- What an operation is found by. -/
def key (op : Operation) : String := Text.upper op.method ++ " " ++ op.path

/-- The parameters that the path names. -/
def pathParameters (op : Operation) : List String :=
  op.template.filterMap fun
    | .parameter name => some name
    | .literal _ => none

end Operation
end OpenApi
