/-!
Characters as UTF-8 octets. Reading marks each ill-formed part once, where a part is as much of a
well-formed sequence as was there, so a strict and a lenient reader share one scan.
-/
namespace OpenApi.Utf8

/-- The octets of a character. -/
def octets (c : Char) : List Nat :=
  let n := c.toNat
  if n < 0x80 then [n]
  else if n < 0x800 then [0xc0 + n / 0x40, 0x80 + n % 0x40]
  else if n < 0x10000 then [0xe0 + n / 0x1000, 0x80 + n / 0x40 % 0x40, 0x80 + n % 0x40]
  else [0xf0 + n / 0x40000, 0x80 + n / 0x1000 % 0x40, 0x80 + n / 0x40 % 0x40, 0x80 + n % 0x40]

def isTail (b : Nat) : Bool := 0x80 ≤ b && b ≤ 0xbf

/-- May `b` follow `a`, where `a` opens a sequence of three octets? The bounds keep out longer
spellings of shorter sequences and surrogates. -/
def secondOfThree (a b : Nat) : Bool :=
  if a = 0xe0 then 0xa0 ≤ b && b ≤ 0xbf
  else if a = 0xed then 0x80 ≤ b && b ≤ 0x9f
  else isTail b

/-- May `b` follow `a`, where `a` opens a sequence of four octets? -/
def secondOfFour (a b : Nat) : Bool :=
  if a = 0xf0 then 0x90 ≤ b && b ≤ 0xbf
  else if a = 0xf4 then 0x80 ≤ b && b ≤ 0x8f
  else isTail b

/-- The characters of a sequence of octets, with `none` for each ill-formed part. -/
def scan : List Nat → List (Option Char)
  | [] => []
  | a :: rest =>
    if a < 0x80 then some (Char.ofNat a) :: scan rest
    else if 0xc2 ≤ a && a ≤ 0xdf then
      match rest with
      | b :: rest =>
        if isTail b then some (Char.ofNat ((a - 0xc0) * 0x40 + (b - 0x80))) :: scan rest
        else none :: scan (b :: rest)
      | [] => [none]
    else if 0xe0 ≤ a && a ≤ 0xef then
      match rest with
      | b :: c :: rest =>
        if secondOfThree a b then
          if isTail c then
            some (Char.ofNat ((a - 0xe0) * 0x1000 + (b - 0x80) * 0x40 + (c - 0x80))) :: scan rest
          else none :: scan (c :: rest)
        else none :: scan (b :: c :: rest)
      | [b] => if secondOfThree a b then [none] else none :: scan [b]
      | [] => [none]
    else if 0xf0 ≤ a && a ≤ 0xf4 then
      match rest with
      | b :: c :: d :: rest =>
        if secondOfFour a b then
          if isTail c then
            if isTail d then
              some (Char.ofNat ((a - 0xf0) * 0x40000 + (b - 0x80) * 0x1000 + (c - 0x80) * 0x40
                + (d - 0x80))) :: scan rest
            else none :: scan (d :: rest)
          else none :: scan (c :: d :: rest)
        else none :: scan (b :: c :: d :: rest)
      | [b, c] =>
        if secondOfFour a b then
          if isTail c then [none] else none :: scan [c]
        else none :: scan [b, c]
      | [b] => if secondOfFour a b then [none] else none :: scan [b]
      | [] => [none]
    else none :: scan rest

/-- The characters, if every octet belongs to one. -/
def collect? : List (Option Char) → Option (List Char)
  | [] => some []
  | some c :: rest => (collect? rest).map (c :: ·)
  | none :: _ => none

/-- The characters, with U+FFFD for each ill-formed part. -/
def collectLossy (marks : List (Option Char)) : List Char :=
  marks.map fun m => m.getD (Char.ofNat 0xfffd)

end OpenApi.Utf8
