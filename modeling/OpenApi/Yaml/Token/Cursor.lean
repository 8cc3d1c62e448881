import OpenApi.Yaml.Token

/-!
Where a scan of YAML text stands: the text ahead, the open indentations, and the places where a key
may turn out to have started.
-/
namespace OpenApi.Yaml

/-- A place where a key may have started: the number of tokens before it, and its position. A key
that is `required` must be followed by its colon. -/
structure KeyPlace where
  token : Nat
  required : Bool
  offset : Nat
  line : Nat
  column : Int

/-- `flow` counts open brackets and braces; `indent` is the column of the innermost block, below
zero outside of all; `keyPlaces` has at most one place for each depth of brackets. Of the tokens,
`taken` were handed on and `tokens` were not. `limit` is above the number of characters in the whole
text and so bounds every loop that reads at least one of them. -/
structure Cursor where
  rest : List Char
  limit : Nat
  offset : Nat := 0
  line : Nat := 0
  column : Int := 0
  flow : Nat := 0
  indent : Int := -1
  indents : List Int := []
  keyAllowed : Bool := true
  keyPlaces : List (Nat × KeyPlace) := []
  taken : Nat := 0
  tokens : List Token := []

abbrev Scan := StateT Cursor (Except DataError)

/-- The start of a text. -/
def Cursor.ofText (text : List Char) : Cursor := { rest := text, limit := text.length + 2 }

namespace Scan

/-- Ends a scan at something that is not YAML. -/
def refuse {α : Type} : Scan α := throw .malformed

/-- The character `i` places ahead; NUL behind the end. -/
def peek (i : Nat) : Scan Char := return (← get).rest.getD i (Char.ofNat 0)

def step (c : Cursor) : Cursor :=
  match c.rest with
  | [] => c
  | ch :: rest =>
    let c := { c with rest, offset := c.offset + 1 }
    if isBreak ch && !(ch == '\r' && rest.head? == some '\n') then
      { c with line := c.line + 1, column := 0 }
    else if ch.toNat == 0xfeff then c
    else { c with column := c.column + 1 }

def skip (n : Nat) : Scan Unit := modify (Nat.repeat step n)

/-- Reads as many characters as satisfy `p`. -/
def takeWhile (p : Char → Bool) : Scan (List Char) := do
  let found := (← get).rest.takeWhile p
  skip found.length
  return found

/-- Repeats `body` on a value until it says that no more is to come. -/
def iterate {α : Type} (body : α → Scan (α × Bool)) : Nat → α → Scan α
  | 0, _ => refuse
  | fuel + 1, a => do
    let (a, more) ← body a
    if more then iterate body fuel a else return a

/-- Repeats `body`, which reads at least one character whenever more is to come. -/
def loop {α : Type} (a : α) (body : α → Scan (α × Bool)) : Scan α := do
  iterate body (← get).limit a

/-- Reads a line break, if there is one, in its normal form. -/
def lineBreak : Scan (List Char) := do
  let c ← peek 0
  if c == '\r' && (← peek 1) == '\n' then
    skip 2
    return ['\n']
  if c.toNat == 0x2028 || c.toNat == 0x2029 then
    skip 1
    return [c]
  if isBreak c then
    skip 1
    return ['\n']
  return []

/-- Does the text go on with three of `mark` and a gap? -/
def atMark (mark : Char) : Scan Bool := do
  return (← peek 0) == mark && (← peek 1) == mark && (← peek 2) == mark && isGap (← peek 3)

def atDocumentMark : Scan Bool := do
  return (← atMark '-') || (← atMark '.')

def push (t : Token) : Scan Unit := modify fun c => { c with tokens := c.tokens ++ [t] }

end Scan
end OpenApi.Yaml
