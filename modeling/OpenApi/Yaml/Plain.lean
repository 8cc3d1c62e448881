import OpenApi.Json.Parser

/-!
What a plain scalar means: a truth value, null, a number, a date, or the text itself.
-/
namespace OpenApi.Yaml

/-- The meaning of a plain scalar. Under `merge` a mapping takes over entries, `default` is a mark
without a value of its own, and `unrepresentable` looks like a number or date and is none. -/
inductive Plain where
  | scalar (s : Scalar)
  | merge
  | default
  | unrepresentable
deriving DecidableEq, Repr

namespace Plain

def falseWords : List String :=
  ["no", "No", "NO", "false", "False", "FALSE", "off", "Off", "OFF"]

def trueWords : List String :=
  ["yes", "Yes", "YES", "true", "True", "TRUE", "on", "On", "ON"]

def nullWords : List String := ["", "~", "null", "Null", "NULL"]

def sign (cs : List Char) : Bool × List Char :=
  match cs with
  | '-' :: rest => (true, rest)
  | '+' :: rest => (false, rest)
  | _ => (false, cs)

def isDigitOrLine (c : Char) : Bool := c.isDigit || c == '_'

/-- The number that digits of a base denote, lines aside; at least one digit is needed. -/
def ofBase (base : Nat) (cs : List Char) : Option Nat :=
  let ds := cs.filter (· != '_')
  if ds.isEmpty then none
  else some (ds.foldl (fun n d => base * n + (Percent.hexValue? d).getD 0) 0)

/-- A decimal number of at most as many digits as numbers may have. -/
def ofDecimal (cs : List Char) : Option Nat :=
  if (cs.filter (· != '_')).length > Text.maxDigits then none else ofBase 10 cs

/-- Groups behind colons count sixtieths, and each has one or two digits, the first up to 5. -/
def isSixtieth : List Char → Bool
  | [d] => d.isDigit
  | [t, d] => '0' ≤ t && t ≤ '5' && d.isDigit
  | _ => false

/-- The pieces between colons. -/
def colonParts (cs : List Char) : List (List Char) :=
  ((String.ofList cs).splitOn ":").map String.toList

/-- The unsigned number that `cs` spells, if it has the form of one; a number of that form that
does not exist is `some none`. -/
def natural? (cs : List Char) : Option (Option Nat) :=
  match cs with
  | '0' :: 'b' :: ds =>
    if !ds.isEmpty && ds.all fun d => d == '0' || d == '1' || d == '_' then some (ofBase 2 ds)
    else none
  | '0' :: 'x' :: ds =>
    if !ds.isEmpty && ds.all fun d => (Percent.hexValue? d).isSome || d == '_' then
      some (ofBase 16 ds)
    else none
  | ['0'] => some (some 0)
  | '0' :: ds =>
    if ds.all fun d => ('0' ≤ d && d ≤ '7') || d == '_' then some (ofBase 8 cs) else none
  | d :: _ =>
    if !d.isDigit then none
    else if cs.all isDigitOrLine then some (ofDecimal cs)
    else match colonParts cs with
      | whole :: more =>
        if whole.all isDigitOrLine && !more.isEmpty && more.all isSixtieth then
          some ((ofDecimal whole).map fun n =>
            more.foldl (fun n part => 60 * n + Json.digitsValue part) n)
        else none
      | [] => none
  | [] => none

def integer? (cs : List Char) : Option (Option Int) :=
  let (negative, digits) := sign cs
  (natural? digits).map fun n? => n?.map fun n => if negative then -(n : Int) else n

/-- An exponent with its sign, or nothing. -/
def signedExponent? (cs : List Char) : Option Int :=
  match cs with
  | [] => some 0
  | e :: s :: ds =>
    if (e == 'e' || e == 'E') && (s == '+' || s == '-') && !ds.isEmpty && ds.all Char.isDigit then
      some (if s == '-' then -(Json.digitsValue ds : Int) else Json.digitsValue ds)
    else none
  | _ => none

/-- Digits, a point, digits and an exponent. A number without digits in front has no sign and needs
a digit behind the point. -/
def pointNumber? (signed negative : Bool) (cs : List Char) : Option Double :=
  let whole := cs.takeWhile isDigitOrLine
  match cs.drop whole.length with
  | '.' :: rest =>
    let fraction := rest.takeWhile isDigitOrLine
    let wellFormed :=
      match whole, fraction with
      | [], d :: _ => !signed && d.isDigit
      | d :: _, _ => d.isDigit
      | [], [] => false
    if wellFormed then
      (signedExponent? (rest.drop fraction.length)).map fun e =>
        let fraction := fraction.filter (· != '_')
        let digits := Json.digitsValue (whole.filter (· != '_') ++ fraction)
        Double.ofDecimal negative digits (e - fraction.length)
    else none
  | _ => none

/-- Adds up groups that count sixtieths, the last group first; `unit` is what the next group counts,
and there is none beyond the range of numbers. -/
def sumGroups (sum : Double) (unit : Nat) : List Nat → Option Double
  | [] => some sum
  | n :: rest =>
    match Double.ofRatio false unit 1 with
    | .infinite _ => none
    | u => sumGroups (sum.add ((Double.ofDecimal false n 0).mul u)) (unit * 60) rest

/-- A number in sixtieths with a point behind its last group. -/
def sixtiethNumber? (negative : Bool) (cs : List Char) : Option (Option Double) :=
  match (colonParts cs).reverse with
  | last :: middle :: more =>
    let seconds := last.takeWhile Char.isDigit
    let groups := (middle :: more).reverse
    match last.drop seconds.length, groups with
    | '.' :: fraction, whole :: between =>
      if isSixtieth seconds && fraction.all isDigitOrLine && whole.all isDigitOrLine
          && (whole.head?.any Char.isDigit) && between.all isSixtieth then
        let fraction := fraction.filter (· != '_')
        let lastValue := Double.ofDecimal false (Json.digitsValue (seconds ++ fraction))
          (-fraction.length)
        let rest := (between.reverse ++ [whole]).map fun g =>
          Json.digitsValue (g.filter (· != '_'))
        some ((sumGroups lastValue 60 rest).map fun total =>
          if negative then total.neg else total)
      else none
    | _, _ => none
  | _ => none

def infinities : List String := [".inf", ".Inf", ".INF"]

def nans : List String := [".nan", ".NaN", ".NAN"]

/-- The number with a point that `cs` spells, if it has the form of one; a number of that form that
does not exist is `some none`. -/
def float? (cs : List Char) : Option (Option Double) :=
  let (negative, digits) := sign cs
  let signed := digits.length < cs.length
  if infinities.contains (String.ofList digits) then some (some (.infinite negative))
  else if nans.contains (String.ofList cs) then some (some .nan)
  else match pointNumber? signed negative digits with
    | some x => some (some x)
    | none => sixtiethNumber? negative digits

def daysIn (year month : Nat) : Nat :=
  if month == 2 then
    if year % 4 == 0 && (year % 100 != 0 || year % 400 == 0) then 29 else 28
  else if [4, 6, 9, 11].contains month then 30
  else 31

/-- A date `2024-01-31`; one that no calendar has is `some none`. -/
def date? (cs : List Char) : Option (Option Date) :=
  match cs with
  | [a, b, c, d, '-', e, f, '-', g, h] =>
    if [a, b, c, d, e, f, g, h].all Char.isDigit then
      let date : Date :=
        { year := Json.digitsValue [a, b, c, d], month := Json.digitsValue [e, f]
          day := Json.digitsValue [g, h] }
      some (if 1 ≤ date.year && 1 ≤ date.month && date.month ≤ 12 && 1 ≤ date.day
          && date.day ≤ daysIn date.year date.month then some date else none)
    else none
  | _ => none

def ofOption (f : α → Scalar) : Option α → Plain
  | some a => .scalar (f a)
  | none => .unrepresentable

/-- The meaning of a plain scalar. -/
def ofText (s : String) : Plain :=
  let cs := s.toList
  if trueWords.contains s then .scalar (.bool true)
  else if falseWords.contains s then .scalar (.bool false)
  else if nullWords.contains s then .scalar .null
  else if s == "<<" then .merge
  else if s == "=" then .default
  else match float? cs, integer? cs, date? cs with
    | some x?, _, _ => ofOption .float x?
    | none, some n?, _ => ofOption .int n?
    | none, none, some d? => ofOption .date d?
    | none, none, none => .scalar (.str s)

end Plain
end OpenApi.Yaml
