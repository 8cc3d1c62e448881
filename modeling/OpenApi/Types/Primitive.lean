/-!
The primitive types, as finely as formats tell them apart.
-/
namespace OpenApi

inductive Primitive where
  | any
  | null
  | string
  | integer
  | int64
  | number
  | boolean
  | uuid
  | date
  | dateTime
  | time
  | email
  | uri
  | binary
  | byte
  | ipv4
  | ipv6
  | hostname
deriving DecidableEq, Repr

namespace Primitive

def text : Primitive → String
  | .any => "any"
  | .null => "null"
  | .string => "string"
  | .integer => "integer"
  | .int64 => "int64"
  | .number => "number"
  | .boolean => "boolean"
  | .uuid => "uuid"
  | .date => "date"
  | .dateTime => "date-time"
  | .time => "time"
  | .email => "email"
  | .uri => "uri"
  | .binary => "binary"
  | .byte => "byte"
  | .ipv4 => "ipv4"
  | .ipv6 => "ipv6"
  | .hostname => "hostname"

def all : List Primitive :=
  [.any, .null, .string, .integer, .int64, .number, .boolean, .uuid, .date, .dateTime, .time,
    .email, .uri, .binary, .byte, .ipv4, .ipv6, .hostname]

def ofText? (s : String) : Option Primitive := all.find? (·.text == s)

/-- Are its values texts? -/
def isString : Primitive → Bool
  | .any | .null | .integer | .int64 | .number | .boolean => false
  | _ => true

def isNumeric : Primitive → Bool
  | .integer | .int64 | .number => true
  | _ => false

/-- The primitive of an integer format. -/
def ofIntegerFormat? : String → Option Primitive
  | "int32" => some .integer
  | "int64" => some .int64
  | _ => none

/-- The primitive of a string format. -/
def ofStringFormat? (format : String) : Option Primitive :=
  [uuid, date, dateTime, time, email, uri, binary, byte, ipv4, ipv6, hostname].find?
    (·.text == format)

end Primitive
end OpenApi
