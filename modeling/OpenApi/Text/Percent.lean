import OpenApi.Text.Utf8

/-!
Percent encoding. Everything but the unreserved characters is written as octets `%XX`; reading turns
`%XX` back and leaves a `%` that no two hexadecimal digits follow.
-/
namespace OpenApi.Percent

def isUnreserved (c : Char) : Bool :=
  c.isAlphanum || c == '-' || c == '_' || c == '.' || c == '~'

def hexDigit (n : Nat) : Char :=
  if n < 10 then Char.ofNat (0x30 + n) else Char.ofNat (0x41 + (n - 10))

def hexValue? (c : Char) : Option Nat :=
  let n := c.toNat
  if 0x30 ≤ n && n ≤ 0x39 then some (n - 0x30)
  else if 0x41 ≤ n && n ≤ 0x46 then some (n - 0x37)
  else if 0x61 ≤ n && n ≤ 0x66 then some (n - 0x57)
  else none

def triple (octet : Nat) : List Char := ['%', hexDigit (octet / 16), hexDigit (octet % 16)]

/-- One character on the wire; `.` too is escaped where it delimits. -/
def encodeChar (dotDelimits : Bool) (c : Char) : List Char :=
  if isUnreserved c && !(c == '.' && dotDelimits) then [c]
  else (Utf8.octets c).flatMap triple

def encode (s : String) (dotDelimits : Bool) : String :=
  String.ofList (s.toList.flatMap (encodeChar dotDelimits))

/-- The octets that a run of ASCII characters stands for. -/
def octets : List Char → List Nat
  | '%' :: a :: b :: rest =>
    match hexValue? a, hexValue? b with
    | some x, some y => (16 * x + y) :: octets rest
    | _, _ => 0x25 :: octets (a :: b :: rest)
  | c :: rest => c.toNat :: octets rest
  | [] => []

def isAscii (c : Char) : Bool := c.toNat < 0x80

/-- The characters of a run that is ASCII throughout, or nowhere. -/
def scanRun (run : List Char) : List (Option Char) :=
  if run.all isAscii then Utf8.scan (octets run) else run.map some

/-- A character beyond ASCII stands for itself and ends the sequence of octets before it. -/
def scan (s : String) : List (Option Char) :=
  (s.toList.splitBy fun a b => isAscii a == isAscii b).flatMap scanRun

/-- The text behind `s`, if its octets are well-formed. -/
def decode? (s : String) : Option String := (Utf8.collect? (scan s)).map String.ofList

/-- The text behind `s`, with U+FFFD for ill-formed octets. -/
def decodeLossy (s : String) : String := String.ofList (Utf8.collectLossy (scan s))

end OpenApi.Percent
