/-!
The tokens of a YAML text. Indentation shows as start and end tokens of block collections.
-/
namespace OpenApi.Yaml

inductive Token where
  | documentStart
  | documentEnd
  | blockSequence
  | blockMapping
  | blockEnd
  | flowSequence
  | flowSequenceEnd
  | flowMapping
  | flowMappingEnd
  | flowEntry
  | blockEntry
  | key
  | value
  | alias (name : String)
  | anchor (name : String)
  | scalar (text : String) (plain : Bool)
deriving DecidableEq, Repr

/-- Why a text gives no data: it is not YAML, or it spells a character, number or date that does not
exist. -/
inductive DataError where
  | malformed
  | unrepresentable
deriving DecidableEq, Repr

def isBreak (c : Char) : Bool :=
  c == '\n' || c == '\r' || c.toNat == 0x85 || c.toNat == 0x2028 || c.toNat == 0x2029

/-- A line break, or the NUL that stands for the end of the text. -/
def isBreakOrEnd (c : Char) : Bool := c.toNat == 0 || isBreak c

def isGap (c : Char) : Bool := c == ' ' || c == '\t' || isBreakOrEnd c

/-- The characters that a YAML text may hold. -/
def isAllowed (c : Char) : Bool :=
  let n := c.toNat
  n == 0x09 || n == 0x0a || n == 0x0d || (0x20 ≤ n && n ≤ 0x7e) || n == 0x85
    || (0xa0 ≤ n && n ≤ 0xd7ff) || (0xe000 ≤ n && n ≤ 0xfffd) || 0x10000 ≤ n

end OpenApi.Yaml
