import OpenApi.Text.Range

/-!
White space, and the ways text is cut and squeezed at it.
-/
namespace OpenApi.Text

/-- White space: the controls U+0009 to U+000D and U+001C to U+001F, U+0085, and the space and line
separators of Unicode. -/
def blankRanges : Ranges := [
  (0x9, 0xd), (0x1c, 0x20), (0x85, 0x85), (0xa0, 0xa0), (0x1680, 0x1680), (0x2000, 0x200a),
  (0x2028, 0x2029), (0x202f, 0x202f), (0x205f, 0x205f), (0x3000, 0x3000)]

def isBlank (c : Char) : Bool := blankRanges.has c

/-- White space that may stand around a number; the four separators U+001C to U+001F may not. -/
def isNumberBlank (c : Char) : Bool := isBlank c && !(0x1c ≤ c.toNat && c.toNat ≤ 0x1f)

/-- Cuts what satisfies `p` off both ends. -/
def trimList (p : Char → Bool) (cs : List Char) : List Char :=
  ((cs.dropWhile p).reverse.dropWhile p).reverse

def trim (s : String) : String := String.ofList (trimList isBlank s.toList)

/-- Each run of characters that satisfy `p` becomes one `filler`. -/
def squeezeList (p : Char → Bool) (filler : Char) : List Char → List Char
  | [] => []
  | [c] => if p c then [filler] else [c]
  | c :: d :: rest =>
    if p c then
      if p d then squeezeList p filler (d :: rest) else filler :: squeezeList p filler (d :: rest)
    else c :: squeezeList p filler (d :: rest)

end OpenApi.Text
