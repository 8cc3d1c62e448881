import OpenApi.Text.Digit
import OpenApi.Text.Quoted
import OpenApi.Value.Basic

/-!
The text of data in messages and artifacts. At the top a text stands bare; inside of lists and
mappings it is quoted. Data that hold an integer of too many digits have none.
-/
namespace OpenApi

def intText (n : Int) : String :=
  if n < 0 then "-" ++ Nat.repr n.natAbs else Nat.repr n.natAbs

/-- `n` with zeros in front up to `width` digits. -/
def zeroPadded (width n : Nat) : String :=
  let ds := Nat.toDigits 10 n
  String.ofList (List.replicate (width - ds.length) '0' ++ ds)

def Date.text (d : Date) : String :=
  zeroPadded 4 d.year ++ "-" ++ zeroPadded 2 d.month ++ "-" ++ zeroPadded 2 d.day

/-- The text of an integer, unless it has too many digits for one. -/
def intText? (n : Int) : Option String :=
  if (Nat.toDigits 10 n.natAbs).length ≤ Text.maxDigits then some (intText n) else none

/-- The form of a scalar inside of a list or mapping. -/
def Scalar.inner? : Scalar → Option String
  | .null => some "None"
  | .bool b => some (if b then "True" else "False")
  | .int n => intText? n
  | .float x => some x.text
  | .str s => some (Text.quoted s)
  | .date d => some s!"datetime.date({d.year}, {d.month}, {d.day})"

/-- The form of a scalar that stands alone. -/
def Scalar.text? : Scalar → Option String
  | .str s => some s
  | .date d => some d.text
  | s => s.inner?

namespace Value

mutual

/-- The form of a value inside of a list or mapping. -/
def inner? : Value → Option String
  | .scalar s => s.inner?
  | .list items => do return "[" ++ ", ".intercalate (← innerItems? items) ++ "]"
  | .map entries => do return "\x7b" ++ ", ".intercalate (← innerEntries? entries) ++ "\x7d"

def innerItems? : List Value → Option (List String)
  | [] => some []
  | x :: xs => do
    let first ← x.inner?
    return first :: (← innerItems? xs)

def innerEntries? : List (Scalar × Value) → Option (List String)
  | [] => some []
  | (k, v) :: rest => do
    let key ← k.inner?
    let value ← v.inner?
    return (key ++ ": " ++ value) :: (← innerEntries? rest)

end

/-- The form of a value that stands alone. -/
def text? : Value → Option String
  | .scalar s => s.text?
  | v => v.inner?

/-- The word for a value that has no wire text. -/
def kindName : Value → String
  | .scalar .null => "NoneType"
  | .scalar (.bool _) => "bool"
  | .scalar (.int _) => "int"
  | .scalar (.float _) => "float"
  | .scalar (.str _) => "str"
  | .scalar (.date _) => "date"
  | .list _ => "list"
  | .map _ => "dict"

end Value
end OpenApi
