/-!
What can be wrong with a JSON text, and where.
-/
namespace OpenApi.Json

inductive Reason where
  | value
  | property
  | colon
  | comma
  | extraData
  | unterminated
  | controlCharacter
  | escape
  | unicodeEscape
  | byteOrderMark
  | tooManyDigits
deriving DecidableEq, Repr

def Reason.text : Reason → String
  | .value => "Expecting value"
  | .property => "Expecting property name enclosed in double quotes"
  | .colon => "Expecting ':' delimiter"
  | .comma => "Expecting ',' delimiter"
  | .extraData => "Extra data"
  | .unterminated => "Unterminated string starting at"
  | .controlCharacter => "Invalid control character at"
  | .escape => "Invalid \\escape"
  | .unicodeEscape => "Invalid \\uXXXX escape"
  | .byteOrderMark => "Unexpected UTF-8 BOM (decode using utf-8-sig)"
  | .tooManyDigits => "Exceeds the limit for integer digits"

/-- A reason with the number of characters that were still to be read. -/
structure Stop where
  reason : Reason
  remaining : Nat
deriving DecidableEq, Repr

/-- A reason with its place: line and column count from one, the offset from zero. -/
structure Error where
  reason : Reason
  line : Nat
  column : Nat
  offset : Nat
deriving DecidableEq, Repr

def Stop.locate (stop : Stop) (text : List Char) : Error :=
  let before := text.take (text.length - stop.remaining)
  { reason := stop.reason
    line := before.count '\n' + 1
    column := (before.reverse.takeWhile (· != '\n')).length + 1
    offset := before.length }

def Error.message (e : Error) : String :=
  s!"{e.reason.text}: line {e.line} column {e.column} (char {e.offset})"

end OpenApi.Json
