import OpenApi.Double.Decimal
import OpenApi.Text.Blank
import OpenApi.Text.Digit

/-!
Reading numbers from free text. White space may stand around a number, digits of every script count,
and a line may stand between two digits.
-/
namespace OpenApi.Text

/-- The text with every decimal digit as its ASCII form. -/
def asciiDigits (cs : List Char) : List Char :=
  cs.map fun c => match decimalValue? c with
    | some d => Char.ofNat (0x30 + d)
    | none => c

/-- Does every line stand between two digits? -/
def linesBetweenDigits : Bool → List Char → Bool
  | _, [] => true
  | afterDigit, c :: rest =>
    if c == '_' then afterDigit && rest.head?.any Char.isDigit && linesBetweenDigits false rest
    else linesBetweenDigits c.isDigit rest

/-- What is left of a number without the white space around it and the lines in it, with ASCII
digits. -/
def numberText? (s : String) : Option (List Char) :=
  let cs := asciiDigits (trimList isNumberBlank s.toList)
  if linesBetweenDigits false cs then some (cs.filter (· != '_')) else none

def signOf (cs : List Char) : Bool × List Char :=
  match cs with
  | '-' :: rest => (true, rest)
  | '+' :: rest => (false, rest)
  | _ => (false, cs)

def digitsValue (ds : List Char) : Nat := ds.foldl (fun n d => 10 * n + (d.toNat - 0x30)) 0

def readInt? (s : String) : Option Int := do
  let cs ← numberText? s
  let (negative, ds) := signOf cs
  if ds.isEmpty || !ds.all Char.isDigit || ds.length > maxDigits then none
  else
    let n : Int := digitsValue ds
    some (if negative then -n else n)

def asciiLower (cs : List Char) : String := String.ofList (cs.map Char.toLower)

/-- The exponent at the end of a number: nothing, or a letter, a sign and digits. -/
def readExponent? (cs : List Char) : Option Int :=
  match cs with
  | [] => some 0
  | e :: rest =>
    let (negative, ds) := signOf rest
    if (e == 'e' || e == 'E') && !ds.isEmpty && ds.all Char.isDigit then
      some (if negative then -(digitsValue ds : Int) else digitsValue ds)
    else none

/-- The digits behind a point, and what follows them. -/
def fractionOf (cs : List Char) : List Char × List Char :=
  match cs with
  | '.' :: rest => rest.span Char.isDigit
  | _ => ([], cs)

def readDouble? (s : String) : Option Double := do
  let cs ← numberText? s
  let (negative, rest) := signOf cs
  let word := asciiLower rest
  if word == "nan" then some .nan
  else if word == "inf" || word == "infinity" then some (.infinite negative)
  else
    let (whole, rest) := rest.span Char.isDigit
    let (fraction, rest) := fractionOf rest
    if whole.isEmpty && fraction.isEmpty then none
    else
      let e ← readExponent? rest
      some (.ofDecimal negative (digitsValue (whole ++ fraction)) (e - fraction.length))

/-- Digits alone, with at most a minus in front. -/
def isWholeNumeral (s : String) : Bool :=
  let ds := match s.toList with
    | '-' :: rest => rest
    | cs => cs
  !ds.isEmpty && ds.all isDecimal

end OpenApi.Text
