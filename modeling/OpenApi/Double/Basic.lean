/-!
Binary floating point numbers with 53 significant bits and exponents from -1074 to 971. Every value is
held exactly, so rounding happens in one place, `Double.ofRatio`.
-/
namespace OpenApi

/-- The number `finite s m e` is `m · 2^e`, negated if `s`. -/
inductive Double where
  | nan
  | infinite (negative : Bool)
  | finite (negative : Bool) (mantissa : Nat) (exponent : Int)
deriving DecidableEq, Repr, Inhabited

namespace Double

def minExponent : Int := -1074

def maxExponent : Int := 971

def zero (negative : Bool) : Double := .finite negative 0 minExponent

/-- The fraction `num / (den · 2^e)` without negative powers. -/
def scaled (num den : Nat) (e : Int) : Nat × Nat :=
  if e ≥ 0 then (num, den * Nat.pow 2 e.toNat) else (num * Nat.pow 2 (-e).toNat, den)

/-- The integer nearest to `num / den`, the even one of two. -/
def roundHalfEven (num den : Nat) : Nat :=
  let q := num / den
  let r := num % den
  if 2 * r < den then q
  else if 2 * r > den then q + 1
  else if q % 2 = 0 then q else q + 1

/-- The least exponent at which `num / den` needs at most 53 bits, and at least `minExponent`. -/
def fittingExponent (num den : Nat) : Int :=
  let guess := max ((num.log2 : Int) - den.log2 - 53) minExponent
  let (n, d) := scaled num den guess
  if n / d < Nat.pow 2 53 then guess else guess + 1

/-- The number nearest to `num / den`; of two equally near the one with the even mantissa. -/
def ofRatio (negative : Bool) (num den : Nat) : Double :=
  if num = 0 then zero negative
  else
    let e := fittingExponent num den
    let (n, d) := scaled num den e
    let m := roundHalfEven n d
    let (m, e) := if m = Nat.pow 2 53 then (Nat.pow 2 52, e + 1) else (m, e)
    if e > maxExponent then .infinite negative else .finite negative m e

/-- The exact value as numerator and positive denominator; none for infinities and nan. -/
def toRatio? : Double → Option (Int × Nat)
  | .finite negative m e =>
    let (n, d) := if e ≥ 0 then (m * Nat.pow 2 e.toNat, 1) else (m, Nat.pow 2 (-e).toNat)
    some (if negative then -(n : Int) else n, d)
  | _ => none

/-- The integer that the number is. -/
def toInt? (x : Double) : Option Int :=
  x.toRatio?.bind fun (n, d) => if n % d = 0 then some (n / d) else none

def neg : Double → Double
  | .nan => .nan
  | .infinite s => .infinite !s
  | .finite s m e => .finite (!s) m e

/-- Multiplies two numbers and rounds once. -/
def mul (x y : Double) : Double :=
  match x, y with
  | .nan, _ | _, .nan => .nan
  | .infinite a, .infinite b => .infinite (a != b)
  | .infinite a, .finite b m _ | .finite b m _, .infinite a =>
    if m = 0 then .nan else .infinite (a != b)
  | .finite a .., .finite b .. =>
    match x.toRatio?, y.toRatio? with
    | some (p, q), some (r, s) => ofRatio (a != b) (p * r).natAbs (q * s)
    | _, _ => .nan

/-- Adds two numbers and rounds once; the sum of two zeros keeps no sign unless both have it. -/
def add (x y : Double) : Double :=
  match x, y with
  | .infinite a, .infinite b => if a = b then .infinite a else .nan
  | .infinite a, .finite .. => .infinite a
  | .finite .., .infinite b => .infinite b
  | .nan, _ => .nan
  | _, .nan => .nan
  | .finite a .., .finite b .. =>
    match x.toRatio?, y.toRatio? with
    | some (p, q), some (r, s) =>
      let sum := p * s + r * q
      if sum = 0 then zero (a && b) else ofRatio (sum < 0) sum.natAbs (q * s)
    | _, _ => .nan

end Double

/-- A number on the extended line, for comparing integers and floating point numbers exactly. -/
inductive Magnitude where
  | unordered
  | bottom
  | ratio (num : Int) (den : Nat)
  | top

namespace Magnitude

def ofDouble (x : Double) : Magnitude :=
  match x, x.toRatio? with
  | _, some (n, d) => .ratio n d
  | .infinite true, none => .bottom
  | .infinite false, none => .top
  | _, none => .unordered

def ofInt (n : Int) : Magnitude := .ratio n 1

def lt : Magnitude → Magnitude → Bool
  | .unordered, _ | _, .unordered => false
  | .ratio a b, .ratio c d => a * d < c * b
  | .bottom, .bottom => false
  | .bottom, _ => true
  | _, .bottom => false
  | .top, _ => false
  | _, .top => true

def eq : Magnitude → Magnitude → Bool
  | .ratio a b, .ratio c d => a * d == c * b
  | .bottom, .bottom | .top, .top => true
  | _, _ => false

end Magnitude
end OpenApi
