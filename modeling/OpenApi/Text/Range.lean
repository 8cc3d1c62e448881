/-!
Membership of a character in a table of code point ranges.
-/
namespace OpenApi.Text

/-- First and last code point of each range. -/
abbrev Ranges := List (Nat × Nat)

/-- The ranges of a set from `next` on, given by how many code points in a row are outside of it and how many
inside, in turn. -/
def Ranges.ofRuns (next : Nat) : List Nat → Ranges
  | outside :: inside :: rest =>
    (next + outside, next + outside + inside - 1) :: ofRuns (next + outside + inside) rest
  | _ => []

def Ranges.has (table : Ranges) (c : Char) : Bool :=
  table.any fun r => r.1 ≤ c.toNat && c.toNat ≤ r.2

end OpenApi.Text
