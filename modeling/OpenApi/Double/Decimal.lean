import OpenApi.Double.Basic

/-!
Decimal text of floating point numbers. Reading rounds to the nearest number; writing takes the fewest
digits that read back, and of those the ones nearest to the value.
-/
namespace OpenApi.Double

/-- The number nearest to `digits · 10^exponent`. Values beyond the range are settled by their number
of digits alone, so that no power of ten larger than the range needs is ever formed. -/
def ofDecimal (negative : Bool) (digits : Nat) (exponent : Int) : Double :=
  if digits = 0 then zero negative
  else
    let top := exponent + (Nat.toDigits 10 digits).length
    if top > 310 then .infinite negative
    else if top < -324 then zero negative
    else if exponent ≥ 0 then ofRatio negative (digits * Nat.pow 10 exponent.toNat) 1
    else ofRatio negative digits (Nat.pow 10 (-exponent).toNat)

/-- Number `p` with `10^(p-1) ≤ num / den < 10^p`, for a positive fraction. -/
def decimalPoint (num den : Nat) : Int :=
  if den ≤ num then (Nat.toDigits 10 (num / den)).length
  else go 400 (num * 10) 0
where
  /-- Counts the zeros that follow the point. -/
  go : Nat → Nat → Int → Int
    | 0, _, p => p
    | fuel + 1, n, p => if den ≤ n then p else go fuel (n * 10) (p - 1)

/-- `num / den` in units of `10^unit`, as a fraction. -/
def inUnits (num den : Nat) (unit : Int) : Nat × Nat :=
  if unit ≥ 0 then (num, den * Nat.pow 10 unit.toNat) else (num * Nat.pow 10 (-unit).toNat, den)

/-- The neighbour of the value on the grid of `count` digits that reads back, if one does: the nearer
of two, on a tie the even one. -/
def digitsOn? (num den : Nat) (point : Int) (count : Nat) : Option (Nat × Int) :=
  let unit := point - count
  let (n, d) := inUnits num den unit
  let low := n / d
  let readsBack (k : Nat) := ofDecimal false k unit = ofRatio false num den
  if readsBack low then
    if readsBack (low + 1) && (2 * (n % d) > d || (2 * (n % d) == d && low % 2 == 1)) then
      some (low + 1, unit)
    else some (low, unit)
  else if readsBack (low + 1) then some (low + 1, unit) else none

/-- Fewest digits that read back as the positive fraction `num / den`, with their exponent; seventeen
always do. -/
def shortest (num den : Nat) : Nat × Int :=
  let point := decimalPoint num den
  ((List.range 17).findSome? fun i => digitsOn? num den point (i + 1)).getD (0, 0)

/-- Digits without trailing zeros, and the place of the point relative to their start. -/
def digitsAndPoint (num den : Nat) : List Char × Int :=
  let (k, unit) := shortest num den
  let all := Nat.toDigits 10 k
  let kept := (all.reverse.dropWhile (· == '0')).reverse
  (kept, unit + all.length)

/-- Writes an exponent with its sign and at least two digits. -/
def exponentText (e : Int) : String :=
  let ds := Nat.toDigits 10 e.natAbs
  (if e < 0 then "e-" else "e+") ++ String.ofList (if ds.length < 2 then '0' :: ds else ds)

/-- Lays out digits with the point at `point`: positionally from 10^-4 up to 10^16, otherwise with an
exponent. A whole number keeps one zero behind the point. -/
def layout (ds : List Char) (point : Int) : String :=
  if point ≤ -4 || point > 16 then
    let rest := ds.drop 1
    String.ofList (ds.take 1) ++ (if rest.isEmpty then "" else "." ++ String.ofList rest)
      ++ exponentText (point - 1)
  else if point ≤ 0 then
    "0." ++ String.ofList (List.replicate (-point).toNat '0' ++ ds)
  else
    let whole := point.toNat
    if ds.length ≤ whole then
      String.ofList (ds ++ List.replicate (whole - ds.length) '0') ++ ".0"
    else String.ofList (ds.take whole) ++ "." ++ String.ofList (ds.drop whole)

/-- The text of a number. -/
def text : Double → String
  | .nan => "nan"
  | .infinite s => if s then "-inf" else "inf"
  | .finite s 0 _ => if s then "-0.0" else "0.0"
  | .finite s m e =>
    let (n, d) := if e ≥ 0 then (m * Nat.pow 2 e.toNat, 1) else (m, Nat.pow 2 (-e).toNat)
    let (ds, point) := digitsAndPoint n d
    (if s then "-" else "") ++ layout ds point

end OpenApi.Double
